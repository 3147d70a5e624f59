import Equivocation.Proofs.Agreement
import Equivocation.Proofs.Lives

namespace Equivocation.Proofs.Labels

open Replica Validity Adoption Ancestry Turns Lives
open Agreement (plainScheme)

/-- Views go up from certificates to the blocks that carry them, and to the certified blocks. -/
structure CertificatesPrecede (r : Replica) : Prop where
  past : r.highQc.view = .zero ∨ r.highQc.view.next ≤ r.view
  carried : ∀ b ∈ r.chain.blocks, ∀ q, b.justify = some q →
    q.view ≤ r.highQc.view ∧ q.view.next ≤ b.view
  rooted : ∀ b ∈ r.chain.blocks, b = .genesis ∨ ∃ q, b.justify = some q ∧ b.parent = q.block
  below : ∀ q ∈ certificates r, ∀ b, r.chain.get? q.block = some b → q.view ≤ b.view

/-- What has been added since. Labels are checked against the blocks stored at first. -/
structure Arrivals (before r : Replica) : Prop where
  grown : ∀ h b, before.chain.get? h = some b → r.chain.get? h = some b
  labelled : ∀ q ∈ certificates r, q ∈ certificates before ∨ Labelled before.chain q

variable {rules : Rules} {seat : Seat} {before r r' : Replica} {input : Input}
  {H H' : List SyncInfo} {es : List Effect} {b : Block} {q : QuorumCertificate}

theorem CertificatesPrecede.initial : CertificatesPrecede {} where
  past := .inl rfl
  carried b hb q hq := by
    rw [List.mem_singleton.mp hb] at hq
    cases hq
  rooted b hb := .inl (List.mem_singleton.mp hb)
  below q hq b _ := by
    rcases mem_certificates.mp hq with rfl | ⟨x, hx, hj⟩
    · exact Nat.zero_le _
    · rw [List.mem_singleton.mp hx] at hj
      cases hj

theorem CertificatesPrecede.le_highQc (h : CertificatesPrecede r) (hq : q ∈ certificates r) :
    q.view ≤ r.highQc.view := by
  rcases mem_certificates.mp hq with rfl | ⟨b, hb, hj⟩
  · exact Nat.le_refl _
  · exact (h.carried b hb q hj).1

theorem CertificatesPrecede.highQc_le (h : CertificatesPrecede r) : r.highQc.view ≤ r.view := by
  rcases h.past with hz | hn
  · rw [hz]
    exact Nat.zero_le _
  · exact Nat.le_trans (View.le_next _) hn

theorem CertificatesPrecede.insert (h : CertificatesPrecede r) (hj : b.justify = some q)
    (hp : b.parent = q.block)
    (hq : q.view ≤ r.highQc.view) (hn : q.view.next ≤ b.view) (hv : r.view ≤ b.view)
    (hl : ∀ x, r.chain.get? q.block = some x → q.view ≤ x.view) :
    CertificatesPrecede { r with chain := r.chain.insert b } where
  past := h.past
  carried x hx p hxp := by
    rcases mem_insert hx with rfl | hx
    · obtain rfl := Option.some.inj (hj.symm.trans hxp)
      exact ⟨hq, hn⟩
    · exact h.carried x hx p hxp
  rooted x hx := by
    rcases mem_insert hx with rfl | hx
    · exact .inr ⟨q, hj, hp⟩
    · exact h.rooted x hx
  below p hpc x hx := by
    have hold : p = q ∨ p ∈ certificates r := by
      rcases mem_certificates.mp hpc with rfl | ⟨y, hy, hyp⟩
      · exact .inr (mem_certificates.mpr (.inl rfl))
      · rcases mem_insert hy with rfl | hy
        · exact .inl (Option.some.inj (hyp.symm.trans hj))
        · exact .inr (mem_certificates.mpr (.inr ⟨y, hy, hyp⟩))
    rcases get?_of_insert hx with rfl | hx
    · rcases hold with rfl | hold
      · exact Nat.le_trans (View.le_next _) hn
      · exact Nat.le_trans (h.le_highQc hold) (Nat.le_trans h.highQc_le hv)
    · rcases hold with rfl | hold
      · exact hl x hx
      · exact h.below p hold x hx

theorem mem_certificates_take {q? : Option QuorumCertificate} (hq : q ∈ certificates r')
    (hc : r'.chain = r.chain) (hh : r'.highQc = takeQc r.highQc q?) :
    q ∈ certificates r ∨ q? = some q := by
  rcases mem_certificates.mp hq with rfl | ⟨b, hb, hj⟩
  · rw [hh]
    rcases takeQc_cases r.highQc q? with he | he
    · exact .inl (mem_certificates.mpr (.inl he))
    · exact .inr he
  · exact .inl (mem_certificates.mpr (.inr ⟨b, hc ▸ hb, hj⟩))

theorem CertificatesPrecede.take (h : CertificatesPrecede r) {q? : Option QuorumCertificate}
    {view : View}
    (hl : ∀ q, q? = some q → Labelled r.chain q ∧ q.view.next ≤ view) (hv : r.view ≤ view) :
    CertificatesPrecede { r with view, highQc := takeQc r.highQc q? } where
  past := by
    rcases takeQc_cases r.highQc q? with he | he
    · rw [he]
      exact h.past.imp_right fun hp => Nat.le_trans hp hv
    · exact .inr (hl _ he).2
  carried b hb q hj := by
    obtain ⟨hq, hn⟩ := h.carried b hb q hj
    exact ⟨Nat.le_trans hq (le_takeQc r.highQc q?), hn⟩
  rooted := h.rooted
  below q hq b hb := by
    rcases mem_certificates_take (r := r) hq rfl rfl with hq | hq
    · exact h.below q hq b hb
    · exact Nat.le_of_eq (congrArg View.toNat ((hl q hq).1 b hb).symm)

/-- The certificate was checked against the blocks from before the turn. Since then only a block of
the view just entered may have been stored, and the certificate is older. -/
theorem CertificatesPrecede.store (h : CertificatesPrecede r) {origin : ReplicaId}
    (hi : Regular input) (offered : input = .message origin (.propose ⟨b⟩))
    (current : r.view ≤ b.view) (carried : b.justify = some q) (labelled : Labelled before.chain q)
    (adopted : q.view.next ≤ r.view ∧ q.view ≤ r.highQc.view)
    (grown : ∀ h p, r.chain.get? h = some p → before.chain.get? h = some p ∨ p.view = r.view) :
    CertificatesPrecede { r with chain := r.chain.insert b } := by
  obtain ⟨hn, hq⟩ := adopted
  have hp : b.parent = q.block := by
    have hm := hi origin _ offered
    by_contra hne
    by_cases hz : b.view = .zero <;> simp [Message.impossibility?, carried, hne, hz] at hm
  refine h.insert carried hp hq (Nat.le_trans hn current) current fun x hx => ?_
  rcases grown _ _ hx with hx | hx
  · exact Nat.le_of_eq (congrArg View.toNat (labelled x hx).symm)
  · rw [hx]
    exact Nat.le_trans (View.le_next _) hn

theorem act_certificatesPrecede (hi : Regular input) (ha : Act rules seat before input r H r' es H')
    (ht : Truthful seat.policy before.signatures) (h : CertificatesPrecede r) :
    CertificatesPrecede r' := by
  cases ha with
  | adopt held certified past valid =>
    have hk := h.take (fun q hq => ⟨((valid ht).2 q hq).2,
      View.next_le_of_lt (Nat.lt_of_le_of_lt (certifiedView?_le hq certified) past)⟩)
      (Nat.le_refl _)
    exact { hk with }
  | climb held certified ahead valid =>
    have hk := h.take (fun q hq => ⟨((valid ht).2 q hq).2,
      View.next_le_next (certifiedView?_le hq certified)⟩) (Nat.le_trans ahead (View.le_next _))
    exact { hk with }
  | propose started led =>
    have hn := next_le_of_past h.past started
    have hins := h.insert (b := nextBlock seat r) rfl rfl (Nat.le_refl _) hn (Nat.le_refl _)
      (h.below _ (mem_certificates.mpr (.inl rfl)))
    exact { hins with }
  | store offered led current carried labelled attested adopted grown =>
    exact h.store hi offered current carried labelled (adopted (attested ht)) grown
  | _ => exact { h with }

theorem act_arrivals (ha : Act rules seat before input r H r' es H')
    (ht : Truthful seat.policy before.signatures) (h : Arrivals before r) : Arrivals before r' := by
  have htake : ∀ {s : SyncInfo} {r' : Replica},
      (Truthful seat.policy before.signatures → Valid seat.policy r.chain s) →
      r'.chain = r.chain → r'.highQc = takeQc r.highQc s.qc → Arrivals before r' :=
    fun hv hc hh => ⟨fun g b hb => hc ▸ h.grown g b hb, fun q hq => by
      rcases mem_certificates_take hq hc hh with hq | hq
      · exact h.labelled q hq
      · exact .inr fun b hb => ((hv ht).2 q hq).2 b (h.grown _ _ hb)⟩
  cases ha with
  | adopt held certified past valid => exact htake valid rfl rfl
  | climb held certified ahead valid => exact htake valid rfl rfl
  | propose started led =>
    refine ⟨fun g b hb => get?_insert (h.grown g b hb), fun q hq => ?_⟩
    rcases mem_certificates.mp hq with rfl | ⟨b, hb, hj⟩
    · exact h.labelled _ (mem_certificates.mpr (.inl rfl))
    · rcases mem_insert hb with rfl | hb
      · obtain rfl := Option.some.inj hj
        exact h.labelled _ (mem_certificates.mpr (.inl rfl))
      · exact h.labelled q (mem_certificates.mpr (.inr ⟨b, hb, hj⟩))
  | store offered led current carried labelled attested adopted grown =>
    refine ⟨fun g b hb => get?_insert (h.grown g b hb), fun q hq => ?_⟩
    rcases mem_certificates.mp hq with rfl | ⟨b, hb, hj⟩
    · exact h.labelled _ (mem_certificates.mpr (.inl rfl))
    · rcases mem_insert hb with rfl | hb
      · obtain rfl := Option.some.inj (carried.symm.trans hj)
        exact .inr labelled
      · exact h.labelled q (mem_certificates.mpr (.inr ⟨b, hb, hj⟩))
  | _ => exact { h with }

section Own

variable (hown : ∀ h, seat.policy.keys.verify (seat.policy.keys.sign h) h = true)
include hown

theorem life_certificatesPrecede (inputs : List Input) :
    CertificatesPrecede (life rules seat inputs) :=
  (@life_invariant rules seat (fun r => Truthful seat.policy r.signatures ∧ CertificatesPrecede r)
    ⟨truthful_empty, .initial⟩
    (fun _ _ _ _ _ _ _ hi ha hb h =>
      ⟨act_truthful hown ha h.1, act_certificatesPrecede hi ha hb.1 h.2⟩)
    inputs).2

theorem turn_arrivals (inputs : List Input) (input : Input) :
    Arrivals (life rules seat inputs) (life rules seat (inputs ++ [input])) := by
  have ht := @life_truthful rules seat hown inputs
  have hrefl : Arrivals (life rules seat inputs) (life rules seat inputs) :=
    ⟨fun _ _ hb => hb, fun _ hq => .inl hq⟩
  rw [life_concat]
  rcases @react_cases rules seat _ input (life_started inputs) with h | ⟨-, H', hm⟩
  · rw [h]
    exact hrefl
  · exact moves_invariant (fun _ _ _ _ _ ha => act_arrivals ha ht) hm hrefl

/-- A certificate that was not there at some time has been checked against every block that was. -/
theorem life_arrivals (xs ys : List Input) :
    (∀ h b, (life rules seat xs).chain.get? h = some b →
      (life rules seat (xs ++ ys)).chain.get? h = some b) ∧
    ∀ q ∈ certificates (life rules seat (xs ++ ys)),
      q ∈ certificates (life rules seat xs) ∨ Labelled (life rules seat xs).chain q := by
  induction ys using List.reverseRecOn with
  | nil =>
    rw [List.append_nil]
    exact ⟨fun _ _ hb => hb, fun _ hq => .inl hq⟩
  | append_singleton ys y ih =>
    have ht := @turn_arrivals rules seat hown (xs ++ ys) y
    rw [← List.append_assoc]
    refine ⟨fun h b hb => ht.grown h b (ih.1 h b hb), fun q hq => ?_⟩
    rcases ht.labelled q hq with hq | hl
    · exact ih.2 q hq
    · exact .inr fun b hb => hl b (ih.1 _ b hb)

/-- A label is never above the view of the stored block, and it is exact if the block was stored
before the certificate came. A stored block is of a later view than its certificate, and than its
parent if that was stored before the certificate came. After the last view there is no later one. -/
theorem certificate_labels (xs ys : List Input) :
    (∀ q ∈ certificates (life rules seat (xs ++ ys)), ∀ b,
      (life rules seat (xs ++ ys)).chain.get? q.block = some b → q.view ≤ b.view) ∧
    (∀ q ∈ certificates (life rules seat (xs ++ ys)), q ∉ certificates (life rules seat xs) →
      ∀ b, (life rules seat xs).chain.get? q.block = some b →
        (life rules seat (xs ++ ys)).chain.get? q.block = some b ∧ b.view = q.view) ∧
    ∀ b ∈ (life rules seat (xs ++ ys)).chain.blocks, b = .genesis ∨
      ∃ q, b.justify = some q ∧ b.parent = q.block ∧ q.view.next ≤ b.view ∧
        (q ∉ certificates (life rules seat xs) →
          ∀ p, (life rules seat xs).chain.get? b.parent = some p → p.view.next ≤ b.view) := by
  have ho := @life_certificatesPrecede rules seat hown (xs ++ ys)
  obtain ⟨hgrown, hlabelled⟩ := @life_arrivals rules seat hown xs ys
  have hexact : ∀ q ∈ certificates (life rules seat (xs ++ ys)),
      q ∉ certificates (life rules seat xs) →
        ∀ b, (life rules seat xs).chain.get? q.block = some b → b.view = q.view :=
    fun q hq hn => (hlabelled q hq).resolve_left hn
  refine ⟨ho.below, fun q hq hn b hb => ⟨hgrown _ b hb, hexact q hq hn b hb⟩, fun b hb => ?_⟩
  refine (ho.rooted b hb).imp_right fun ⟨q, hj, hp⟩ => ?_
  have hlater := (ho.carried b hb q hj).2
  refine ⟨q, hj, hp, hlater, fun hn p hg => ?_⟩
  rw [hp] at hg
  rw [hexact q (mem_certificates.mpr (.inr ⟨b, hb, hj⟩)) hn p hg]
  exact hlater

end Own

def plainSeat : Seat where
  node := .ofNat 1
  replica := .ofNat 1
  replicas := [1, 2, 3, 4].map .ofNat
  leaders := [2, 2, 3].map .ofNat
  viewTimeout := 10
  policy := ⟨⟨plainScheme, .ofNat 1, [1, 2, 3, 4].map .ofNat⟩, 0, 3⟩

def plainSignatures (h : Hash) : List Signature :=
  [2, 3, 4].map fun r => ⟨.ofNat r, plainScheme.sign (.ofNat r) h⟩

def proposal (b : Block) : Input := .message b.proposer (.propose ⟨b⟩)

def first : Block :=
  .ofContents ⟨Block.genesisHash, some .genesis, [], .ofNat 1, .ofNat 2⟩

def firstQc : QuorumCertificate := ⟨.ofNat 1, first.hash, plainSignatures first.hash⟩

def second : Block := .ofContents ⟨first.hash, some firstQc, [], .ofNat 2, .ofNat 2⟩

theorem plainSeat_verifies (h : Hash) :
    plainSeat.policy.keys.verify (plainSeat.policy.keys.sign h) h = true := by
  simp [Keyring.verify, Keyring.sign, plainSeat, plainScheme]

theorem certificate_labels_second :
    (life .chained plainSeat ([proposal first] ++ [proposal second])).highQc = firstQc ∧
      (life .chained plainSeat ([proposal first] ++ [proposal second])).chain.get? firstQc.block =
        some first ∧
      first.view = firstQc.view ∧ first.view.next ≤ second.view := by
  obtain ⟨-, hexact, hlater⟩ :=
    @certificate_labels .chained plainSeat plainSeat_verifies [proposal first] [proposal second]
  have hq : (life .chained plainSeat ([proposal first] ++ [proposal second])).highQc = firstQc ∧
      second ∈ (life .chained plainSeat ([proposal first] ++ [proposal second])).chain.blocks := by
    decide +kernel
  have hg : firstQc ∉ certificates (life .chained plainSeat [proposal first]) ∧
      (life .chained plainSeat [proposal first]).chain.get? first.hash = some first := by
    decide +kernel
  obtain ⟨hstored, hlabel⟩ :=
    hexact firstQc (mem_certificates.mpr (.inl hq.1.symm)) hg.1 first hg.2
  refine ⟨hq.1, hstored, hlabel, ?_⟩
  rcases hlater second hq.2 with hz | ⟨q, hj, -, -, hp⟩
  · cases congrArg (·.justify) hz
  · obtain rfl := Option.some.inj hj
    exact hp hg.1 first hg.2

/-- A block of view 3, certified as one of view 1 before it comes in. -/
def late : Block :=
  .ofContents ⟨Block.genesisHash, some .genesis, [], .ofNat 3, .ofNat 3⟩

def carrier : Block :=
  .ofContents
    ⟨late.hash, some ⟨.ofNat 1, late.hash, plainSignatures late.hash⟩, [], .ofNat 2, .ofNat 2⟩

def mislabelled : Replica := life .chained plainSeat [proposal carrier, proposal late]

/-- Labels are not checked again when the certified block comes in. -/
theorem certificate_labels_late :
    mislabelled.chain.get? mislabelled.highQc.block = some late ∧
      late.view ≠ mislabelled.highQc.view ∧
      carrier ∈ mislabelled.chain.blocks ∧ carrier.parent = late.hash ∧
      ¬ late.view < carrier.view := by
  decide +kernel

end Equivocation.Proofs.Labels
