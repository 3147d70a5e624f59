import Equivocation.Proofs.Handling
import Equivocation.Proofs.Labels

namespace Equivocation.Proofs.Quorums

open Replica Validity Adoption Ancestry Turns Conduct Handling Deployment States

/-- A block is the genesis block, or of a later view with a certificate for its parent. -/
def CertifiesParent (b : Block) : Prop :=
  b = .genesis ∨ b.view ≠ .zero ∧ ∃ q, b.justify = some q ∧ b.parent = q.block

structure Rooted (r : Replica) : Prop where
  origin : r.chain.get? Block.genesisHash = some .genesis
  certifies : ∀ b ∈ r.chain.blocks, CertifiesParent b
  executed : r.chain.contains r.executed = true

variable {rules : Rules} {seat : Seat} {before r r' : Replica} {input : Input} {t t' : Turn Replica}
  {b : Block} {origin : ReplicaId} {q : QuorumCertificate} {policy : CachePolicy} {h : Hash}
  {ss : List Signature}

theorem contains_insert_of_contains (hc : r.chain.contains h = true) (b : Block) :
    (r.chain.insert b).contains h = true := by
  obtain ⟨x, hx⟩ := Option.isSome_iff_exists.mp hc
  exact Option.isSome_iff_exists.mpr ⟨x, get?_insert hx⟩

theorem Rooted.initial : Rooted {} where
  origin := List.find?_cons_of_pos (decide_eq_true rfl)
  certifies b hb := .inl (List.mem_singleton.mp hb)
  executed := by
    have ho : Chain.initial.get? Block.genesisHash = some .genesis :=
      List.find?_cons_of_pos (decide_eq_true rfl)
    exact Option.isSome_iff_exists.mpr ⟨_, ho⟩

theorem Rooted.of_eq (h : Rooted r) (hc : r'.chain = r.chain)
    (he : r'.executed = r.executed ∨ r.chain.contains r'.executed = true) : Rooted r' where
  origin := hc ▸ h.origin
  certifies := hc ▸ h.certifies
  executed := by
    rw [hc]
    obtain he | he := he
    · rw [he]
      exact h.executed
    · exact he

theorem Rooted.insert (h : Rooted r) (hb : CertifiesParent b) (hc : r'.chain = r.chain.insert b)
    (he : r'.executed = r.executed) : Rooted r' where
  origin := by
    rw [hc]
    exact get?_insert h.origin
  certifies x hx := by
    rw [hc] at hx
    obtain rfl | hx := mem_insert hx
    · exact hb
    · exact h.certifies x hx
  executed := by
    rw [hc, he]
    exact contains_insert_of_contains h.executed b

theorem certifiesParent_of_possible (hp : (Message.propose ⟨b⟩).impossibility? origin = none) :
    b.view ≠ .zero ∧ ∃ q, b.justify = some q ∧ b.parent = q.block := by
  unfold Message.impossibility? at hp
  dsimp only at hp
  split at hp
  · cases hp
  · rename_i hz
    split at hp
    · cases hp
    · rename_i q hq
      split at hp
      · cases hp
      · rename_i hparent
        exact ⟨hz, q, hq, Decidable.not_not.mp hparent⟩

theorem preparation_rooted (hc : Preparation seat before input t t') (h : Rooted t.state) :
    Rooted t'.state := by
  cases hc with
  | propose started =>
    rw [insertBlock_eq]
    exact h.insert (.inr ⟨started, _, rfl, rfl⟩) rfl rfl
  | store offered possible carried checked =>
    rw [insertBlock_eq]
    exact h.insert (.inr (certifiesParent_of_possible possible)) rfl rfl
  | _ => exact h.of_eq rfl (.inl rfl)

theorem preparations_rooted (hc : Preparations seat r input t t') (h : Rooted t.state) :
    Rooted t'.state := by
  induction hc with
  | refl => exact h
  | tail _ hc ih => exact preparation_rooted hc ih

theorem frame_rooted (hf : Frame seat r r') (h : Rooted r) : Rooted r' :=
  h.of_eq hf.chain hf.executed

theorem chronicle_rooted (rules : Rules) (seat : Seat) (inputs : List Input) :
    Rooted (chronicle rules seat inputs).state :=
  chronicle_invariant (fun _ _ _ _ hc _ h => preparation_rooted hc h) (fun _ _ => frame_rooted)
    .initial rules inputs

/-- A certificate for the genesis block in view 0, or for another block with a quorum. -/
def GenesisOrAttested (policy : CachePolicy) (q : QuorumCertificate) : Prop :=
  q.block = Block.genesisHash ∧ q.view = .zero ∨
    q.block ≠ Block.genesisHash ∧ Attested policy q

/-- All certificates that an instance holds are backed by a quorum, but for those of the genesis
block. -/
structure QuorumBacked (seat : Seat) (r : Replica) : Prop where
  truthful : Truthful seat.policy r.signatures
  highQc : r.highQc = .genesis ∨
    r.highQc.block ≠ Block.genesisHash ∧ Attested seat.policy r.highQc
  highTc : ∀ tc, r.highTc = some tc → ValidTc seat.policy tc
  carried : ∀ b ∈ r.chain.blocks, ∀ q, b.justify = some q → GenesisOrAttested seat.policy q

theorem QuorumBacked.initial : QuorumBacked seat {} where
  truthful := truthful_empty
  highQc := .inl rfl
  highTc tc ht := by cases ht
  carried b hb q hq := by
    rw [List.mem_singleton.mp hb] at hq
    cases hq

theorem QuorumBacked.of_eq (h : QuorumBacked seat r) (ht : Truthful seat.policy r'.signatures)
    (hc : r'.chain = r.chain) (hq : r'.highQc = r.highQc) (htc : r'.highTc = r.highTc) :
    QuorumBacked seat r' where
  truthful := ht
  highQc := hq ▸ h.highQc
  highTc := htc ▸ h.highTc
  carried := hc ▸ h.carried

theorem QuorumBacked.insert (h : QuorumBacked seat r) (hb : b.justify = some q)
    (hq : GenesisOrAttested seat.policy q)
    (hr : r' = { r with chain := r.chain.insert b, lastProposed := r'.lastProposed }) :
    QuorumBacked seat r' := by
  rw [hr]
  refine { h with carried := fun x hx p hp => ?_ }
  obtain rfl | hx := mem_insert hx
  · rwa [← Option.some.inj (hb.symm.trans hp)]
  · exact h.carried x hx p hp

/-- Where the genesis block is stored, a certificate for it in a later view is refused. -/
theorem view_of_labelled (h : Rooted r) (hl : Labelled r.chain q)
    (hb : q.block = Block.genesisHash) : q.view = .zero := by
  have ho := h.origin
  rw [← hb] at ho
  exact (hl _ ho).symm

theorem genesisOrAttested_of_checkQc (h : Rooted r) (hb : QuorumBacked seat r)
    (hq : (checkQc seat q r).1 = true) :
    GenesisOrAttested seat.policy q := by
  by_cases hg : q.block = Block.genesisHash
  · exact .inl ⟨hg, view_of_labelled h (labelled_of_checkQc hq) hg⟩
  · exact .inr ⟨hg, attested_of_checkQc hb.truthful hq⟩

section Own

variable (hown : ∀ h, seat.policy.keys.verify (seat.policy.keys.sign h) h = true)
include hown

theorem preparation_quorumBacked (hc : Preparation seat before input t t') (hrb : Rooted before)
    (hb : QuorumBacked seat before) (hr : Rooted t.state) (h : QuorumBacked seat t.state) :
    QuorumBacked seat t'.state := by
  cases hc with
  | emit plain => exact h
  | halt i => exact h
  | count signatures kept votes timeouts viewTicks =>
    exact h.of_eq (kept h.truthful) rfl rfl rfl
  | holdTc valid =>
    exact { h with highTc := fun tc htc => Option.some.inj htc ▸ valid hb.truthful }
  | holdQc newer valid =>
    obtain ⟨ha, hl⟩ := valid hb.truthful
    refine { h with highQc := .inr ⟨fun hg => ?_, ha⟩ }
    rw [view_of_labelled hr hl hg] at newer
    exact Nat.not_lt_zero _ newer
  | enter v => exact h.of_eq h.truthful rfl rfl rfl
  | propose started =>
    rw [insertBlock_eq]
    have hq : GenesisOrAttested seat.policy t.state.highQc := h.highQc.imp_left fun he => by
      rw [he]
      exact ⟨rfl, rfl⟩
    exact h.insert (b := nextBlock seat t.state) rfl hq rfl
  | store offered possible carried checked =>
    rw [insertBlock_eq]
    exact h.insert carried (genesisOrAttested_of_checkQc hrb hb checked) rfl
  | giveUp => exact h.of_eq (truthful_sign h.truthful (hown _)) rfl rfl rfl

theorem preparations_quorumBacked (hc : Preparations seat r input { state := r } t) (hr : Rooted r)
    (hb : QuorumBacked seat r) : QuorumBacked seat t.state :=
  (preparations_invariant (P := fun r => Rooted r ∧ QuorumBacked seat r)
    (fun _ _ _ _ hc hb h =>
      ⟨preparation_rooted hc h.1, preparation_quorumBacked hown hc hb.1 hb.2 h.1 h.2⟩)
    hc ⟨hr, hb⟩ ⟨hr, hb⟩).2

theorem chronicle_quorumBacked (rules : Rules) (inputs : List Input) :
    QuorumBacked seat (chronicle rules seat inputs).state :=
  (chronicle_invariant (P := fun r => Rooted r ∧ QuorumBacked seat r)
    (fun _ _ _ _ hc hb h =>
      ⟨preparation_rooted hc h.1, preparation_quorumBacked hown hc hb.1 hb.2 h.1 h.2⟩)
    (fun _ _ hf h => ⟨frame_rooted hf h.1,
      h.2.of_eq (hf.truthful hown h.2.truthful) hf.chain hf.highQc hf.highTc⟩)
    ⟨.initial, .initial⟩ rules inputs).2

end Own

/-- Different replicas out of `n`, a quorum of them, with valid signatures over the hash. -/
def Quorate (scheme : Scheme) (n : Nat) (hash : Hash) (ss : List Signature) : Prop :=
  ∃ rs : List ReplicaId, rs.Nodup ∧ rs ⊆ replicas n ∧ quorumSize n ≤ rs.length ∧
    ∀ r ∈ rs, ∃ s ∈ ss, s.signer = r ∧ scheme.verify r hash s.bytes = true

theorem view_hash_ne_genesisHash (v : View) : v.hash ≠ Block.genesisHash := by
  intro h
  have hz : Block.genesisHash.bytes.drop 8 = List.replicate 24 0 := by
    rw [← h]
    exact List.drop_left' (by simp [View.encode])
  revert hz
  decide +kernel

/-- As the signers differ, the valid signatures count as many replicas. -/
theorem quorate_of_endorsed {scheme : Scheme} {n : Nat} {me : ReplicaId} {capacity : Nat}
    (hd : Signature.distinctSigners ss = true) (hne : h ≠ Block.genesisHash)
    (he : Endorsed ⟨⟨scheme, me, replicas n⟩, capacity, quorumSize (replicas n).length⟩ ss h) :
    Quorate scheme n h ss := by
  have hnodup : (ss.map (·.signer)).Nodup := of_decide_eq_true hd
  have hq := he.resolve_left hne
  rw [Authenticity.eraseDups_of_nodup (List.Nodup.of_map _ hnodup), length_replicas] at hq
  let keys : Keyring := ⟨scheme, me, replicas n⟩
  have hv : ∀ s ∈ ss.filter fun s => keys.verify s h,
      s ∈ ss ∧ s.signer ∈ replicas n ∧ scheme.verify s.signer h s.bytes = true := by
    intro s hs
    obtain ⟨hs, hv⟩ := List.mem_filter.mp hs
    obtain ⟨hk, hv⟩ := Bool.and_eq_true_iff.mp hv
    exact ⟨hs, List.contains_iff_mem.mp hk, hv⟩
  refine ⟨(ss.filter fun s => keys.verify s h).map (·.signer),
    hnodup.sublist (List.filter_sublist.map _), fun r hr => ?_, ?_, fun r hr => ?_⟩
  · obtain ⟨s, hs, rfl⟩ := List.mem_map.mp hr
    exact (hv s hs).2.1
  · rw [List.length_map, ← List.countP_eq_length_filter]
    exact hq
  · obtain ⟨s, hs, rfl⟩ := List.mem_map.mp hr
    exact ⟨s, (hv s hs).1, rfl, (hv s hs).2.2⟩

section Runs

variable (scheme : Scheme) (s : Scenario) (config : RunConfig)

theorem mem_opened {p : Protocol} {i : Instance p} (hi : i ∈ (opened scheme s config p).instances) :
    ∃ x ∈ assignNodes config.replicas config.twins, i.seat = seatOf scheme s config x := by
  obtain ⟨x, hx, rfl⟩ := List.mem_map.mp hi
  exact ⟨x, hx, rfl⟩

theorem created_mem_opened (p : Protocol) {x : NodeId × ReplicaId}
    (hx : x ∈ assignNodes config.replicas config.twins) :
    { seat := seatOf scheme s config x, state := p.create (seatOf scheme s config x) } ∈
      (opened scheme s config p).instances := List.mem_map.mpr ⟨x, hx, rfl⟩

theorem signs_own (hs : ∀ r h, scheme.verify r h (scheme.sign r h) = true)
    {x : NodeId × ReplicaId} (hx : x ∈ assignNodes config.replicas config.twins) (h : Hash) :
    (seatOf scheme s config x).policy.keys.verify
      ((seatOf scheme s config x).policy.keys.sign h) h = true :=
  Bool.and_eq_true_iff.mpr ⟨List.contains_iff_mem.mpr (replica_mem_replicas hx), hs x.2 h⟩

/-- Adopted certificates carry a quorum, whatever an instance is fed: the highest quorum
certificate unless it is the genesis certificate, the highest timeout certificate, which is never
for view 0, and the certificates of all stored blocks, which name the blocks' parents, unless they
are for the genesis block in view 0. No replica counts twice. -/
theorem adopted_quorums (hs : ∀ r h, scheme.verify r h (scheme.sign r h) = true) (rules : Rules)
    (inputs : List Input) :
    ∀ i ∈ (opened scheme s config rules.protocol).instances,
      let r := (chronicle rules i.seat inputs).state
      (r.highQc = .genesis ∨
        Quorate scheme config.replicas r.highQc.block r.highQc.signatures) ∧
      (∀ tc, r.highTc = some tc →
        View.zero < tc.view ∧ Quorate scheme config.replicas tc.view.hash tc.signatures) ∧
      ∀ b ∈ r.chain.blocks, b ≠ .genesis → ∃ q, b.justify = some q ∧ q.block = b.parent ∧
        (q.block = Block.genesisHash ∧ q.view = .zero ∨
          Quorate scheme config.replicas q.block q.signatures) := by
  intro i hi
  obtain ⟨x, hx, he⟩ := mem_opened scheme s config hi
  rw [he]
  have hr := chronicle_rooted rules (seatOf scheme s config x) inputs
  have hb := chronicle_quorumBacked (signs_own scheme s config hs hx) rules inputs
  have hq : ∀ q, q.block ≠ Block.genesisHash → Attested (seatOf scheme s config x).policy q →
      Quorate scheme config.replicas q.block q.signatures :=
    fun q hne ha => quorate_of_endorsed ha.1 hne ha.2
  refine ⟨hb.highQc.imp_right fun h => hq _ h.1 h.2, fun tc htc => ?_, fun b hmem hne => ?_⟩
  · obtain ⟨hd, hz, he⟩ := hb.highTc tc htc
    exact ⟨Nat.pos_of_ne_zero fun h => hz (View.ext h),
      quorate_of_endorsed hd (view_hash_ne_genesisHash _) he⟩
  · obtain ⟨-, q, hj, hp⟩ := (hr.certifies b hmem).resolve_left hne
    exact ⟨q, hj, hp.symm, (hb.carried b hmem q hj).imp_right fun h => hq q h.1 h.2⟩

end Runs

open Agreement (plainScheme openScenario fourReplicas)
open Labels (plainSignatures first firstQc)

def firstTc : TimeoutCertificate := ⟨.ofNat 1, plainSignatures (View.ofNat 1).hash⟩

def shared : Input := .message (.ofNat 3) (.newView ⟨.ofNat 2, { qc := firstQc, tc := firstTc }⟩)

def informed : Replica :=
  (chronicle .chained
    (seatOf plainScheme openScenario (fourReplicas .chained 7) (.ofNat 3, .ofNat 2))
    [.start, shared]).state

theorem adopted_quorums_informed :
    (informed.highQc = firstQc ∧ informed.highTc = some firstTc ∧
      (informed.chain.blocks.map (·.parent)).head? = some firstQc.block) ∧
    Quorate plainScheme 4 firstQc.block firstQc.signatures ∧
    Quorate plainScheme 4 firstTc.view.hash firstTc.signatures ∧
    ∀ b ∈ informed.chain.blocks, b ≠ .genesis → ∃ q, b.justify = some q ∧ q.block = b.parent ∧
      (q.block = Block.genesisHash ∧ q.view = .zero ∨
        Quorate plainScheme 4 q.block q.signatures) := by
  have hx : (.ofNat 3, .ofNat 2) ∈ assignNodes 4 1 := by decide
  have h := adopted_quorums plainScheme openScenario (fourReplicas .chained 7)
    (by simp [plainScheme]) .chained [.start, shared] _ (created_mem_opened _ _ _ _ hx)
  have hr : informed.highQc = firstQc ∧ informed.highTc = some firstTc ∧
      (informed.chain.blocks.map (·.parent)).head? = some firstQc.block := by decide +kernel
  have hne : firstQc ≠ .genesis := by decide +kernel
  unfold informed at hr ⊢
  dsimp only at h
  generalize (chronicle _ _ _).state = r at h hr ⊢
  obtain ⟨hq, ht, hb⟩ := h
  rw [hr.1] at hq
  exact ⟨hr, hq.resolve_left hne, (ht _ hr.2.1).2, hb⟩

end Equivocation.Proofs.Quorums
