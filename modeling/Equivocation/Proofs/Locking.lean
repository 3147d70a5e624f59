import Equivocation.Proofs.History
import Mathlib.Data.List.Infix

namespace Equivocation.Proofs.Locking

open Relation History

variable {C : Cluster} {T : Trace} {a b c p one two three : Block} {n : NodeId} {v w : View}
  {h g : Hash}

/-- Two quorums have a replica in common that runs on one node only. -/
def Overlap (C : Cluster) : Prop :=
  ∀ us vs : List ReplicaId, us.Nodup → vs.Nodup → us ⊆ C.replicas → vs ⊆ C.replicas →
    quorumSize C.replicas.length ≤ us.length → quorumSize C.replicas.length ≤ vs.length →
      ∃ r ∈ us, r ∈ vs ∧ ∀ s ∈ C.seats, ∀ t ∈ C.seats, s.replica = r → t.replica = r → s = t

theorem Overlap.common {P Q : Seat → Prop} (ho : Overlap C) (hp : Quorum C P) (hq : Quorum C Q) :
    ∃ s ∈ C.seats, P s ∧ Q s := by
  obtain ⟨us, hu₁, hu₂, hu₃, hu⟩ := hp
  obtain ⟨vs, hv₁, hv₂, hv₃, hv⟩ := hq
  obtain ⟨r, hr, hr', hs⟩ := ho us vs hu₁ hv₁ hu₂ hv₂ hu₃ hv₃
  obtain ⟨s, hs₁, he₁, hp⟩ := hu r hr
  obtain ⟨t, hs₂, he₂, hq⟩ := hv r hr'
  obtain rfl := hs s hs₁ t hs₂ he₁ he₂
  exact ⟨s, hs₁, hp, hq⟩

theorem Overlap.voter {T' : Trace} (ho : Overlap C) (hv : Elected C T v h)
    (hw : Elected C T' w g) : ∃ n, Voted T n v h ∧ Voted T' n w g := by
  obtain ⟨s, -, hs⟩ := ho.common hv hw
  exact ⟨s.node, hs⟩

theorem genesis_unlinked : ¬ Link T .genesis p := by
  rintro ⟨-, -, q, hq, -⟩
  cases hq

theorem ne_genesis_of_link (hb : Link T b p) : b ≠ .genesis := by
  rintro rfl
  exact genesis_unlinked hb

theorem link_unique (hd : Distinct T) (ha : Link T b a) (hp : Link T b p) : a = p :=
  hd a p ha.1 hp.1 (ha.2.1.symm.trans hp.2.1)

/-- A node that votes for a block has voted for no other of the same view. -/
theorem voted_before {q : Trace} {s : Signature}
    (hl : AllWarranted C (T ++ (n, .publish (.vote ⟨v, h, s⟩)) :: q))
    (hv : Voted (T ++ (n, .publish (.vote ⟨v, h, s⟩)) :: q) n w g) (hw : w ≤ v) :
    Voted T n w g ∨ w = v ∧ g = h := by
  obtain ⟨s', hm⟩ := hv
  rcases List.mem_append.mp hm with hm | hm
  · exact .inl ⟨s', hm⟩
  · rcases List.mem_cons.mp hm with hm | hm
    · cases hm
      exact .inr ⟨rfl, rfl⟩
    · obtain ⟨q₁, q₂, rfl⟩ := List.append_of_mem hm
      obtain ⟨b, -, -, hb, -, hlt, -⟩ :=
        hl (T ++ (n, .publish (.vote ⟨v, h, s⟩)) :: q₁) n (.publish (.vote ⟨w, g, s'⟩)) q₂ (by simp)
      have hlt := hlt v h ⟨s, by simp⟩
      rw [← hb] at hlt
      exact absurd hw (Nat.not_le_of_lt hlt)

theorem vote_unique (hl : AllWarranted C T) (hv : Voted T n v h) (hw : Voted T n v g) : g = h := by
  obtain ⟨s, hm⟩ := hv
  obtain ⟨t, q, rfl⟩ := List.append_of_mem hm
  rcases voted_before hl hw (Nat.le_refl _) with hw | ⟨-, hg⟩
  · obtain ⟨b, -, -, hb, -, hlt, -⟩ := hl t n _ q rfl
    have hlt := hlt v g hw
    rw [← hb] at hlt
    exact absurd hlt (Nat.lt_irrefl _)
  · exact hg

/-- A proposed block carries a certificate for its parent, which is of an earlier view, or of the
last view of all. -/
theorem known_cases (hl : AllWarranted C T) (hb : Known T b) :
    b = .genesis ∨ ∃ q, b.justify = some q ∧ b.parent = q.block ∧ b.view ≠ .zero ∧
      Genuine C T q ∧ q.view.next ≤ b.view := by
  refine hb.imp_right fun ⟨n, whom, hm⟩ => ?_
  obtain ⟨t, u, rfl, q, hj, hp, hv, hg, hn⟩ := hl.warranted hm
  exact ⟨q, hj, hp, hv, hg.mono (List.subset_append_left _ _), hn⟩

theorem eq_genesis_of_view (hl : AllWarranted C T) (hb : Known T b) (hv : b.view = .zero) :
    b = .genesis := by
  rcases known_cases hl hb with hb | ⟨q, -, -, hz, -⟩
  · exact hb
  · exact absurd hv hz

theorem link_spec (hl : AllWarranted C T) (hd : Distinct T) (hb : Known T b) (hp : Link T b p) :
    Certified C T p ∧ p.view.next ≤ b.view ∧ ∀ q, b.justify = some q → q.view = p.view := by
  rcases known_cases hl hb with rfl | ⟨q, hj, -, -, ⟨c, hc, hq, hv⟩, hn⟩
  · exact absurd hp genesis_unlinked
  · obtain ⟨hk, -, q', hj', hq'⟩ := hp
    obtain rfl : q = q' := Option.some.inj (hj.symm.trans hj')
    obtain rfl := hd c p hc.known hk (hq.symm.trans hq')
    refine ⟨hc, hv ▸ hn, fun q' hj' => ?_⟩
    rw [← Option.some.inj (hj.symm.trans hj'), hv]

theorem certified_unique (hl : AllWarranted C T) (hd : Distinct T) (ho : Overlap C)
    (ha : Certified C T a) (hb : Certified C T b) (hv : a.view = b.view) : a = b := by
  rcases ha with rfl | ⟨hka, hea⟩
  · exact (eq_genesis_of_view hl hb.known hv.symm).symm
  · rcases hb with rfl | ⟨hkb, heb⟩
    · exact eq_genesis_of_view hl hka hv
    · rw [hv] at hea
      obtain ⟨n, hna, hnb⟩ := ho.voter hea heb
      exact hd a b hka hkb (vote_unique hl hnb hna)

/-- Walks up the links never leave a block that is its own parent. -/
theorem eq_of_descends_of_loop (hd : Distinct T) (hb : Link T b b) (hc : Descends T b c) :
    c = b := by
  induction hc with
  | refl => rfl
  | tail _ hc ih =>
    rw [ih] at hc
    exact link_unique hd hc hb

theorem certified_rooted (hl : AllWarranted C T) (hd : Distinct T) (ho : Overlap C)
    (hb : Certified C T b) : Descends T b .genesis := by
  rcases hb with rfl | ⟨hk, he⟩
  · exact .refl
  · obtain ⟨n, ⟨s, hm⟩, -⟩ := ho.voter he he
    obtain ⟨t, q, rfl, c, hc, hh, -, hr, -⟩ := hl.warranted hm
    have ht : t ⊆ t ++ (n, .publish (.vote ⟨b.view, b.hash, s⟩)) :: q :=
      List.subset_append_left _ _
    obtain rfl := hd b c hk (hc.mono ht) hh
    exact Descends.mono ht hr

/-- Among certified blocks, views ascend from parent to child. -/
theorem link_lt (hl : AllWarranted C T) (hd : Distinct T) (ho : Overlap C) (hb : Certified C T b)
    (hp : Link T b p) : p.view < b.view := by
  obtain ⟨hc, hn, -⟩ := link_spec hl hd hb.known hp
  by_cases hv : p.view = b.view
  · obtain rfl := certified_unique hl hd ho hc hb hv
    have hg := eq_of_descends_of_loop hd hp (certified_rooted hl hd ho hb)
    exact absurd hg.symm (ne_genesis_of_link hp)
  · have hne : p.view.toNat ≠ b.view.toNat := fun he => hv (View.ext he)
    have hlt := p.view.isLt
    rw [View.le_def, View.toNat_next] at hn
    rw [View.lt_def]
    omega

theorem descends_spec (hl : AllWarranted C T) (hd : Distinct T) (ho : Overlap C)
    (hb : Certified C T b) (ha : Descends T b a) : Certified C T a ∧ (a = b ∨ a.view < b.view) := by
  induction ha with
  | refl => exact ⟨hb, .inl rfl⟩
  | tail _ hp ih =>
    obtain ⟨hc, hlt⟩ := ih
    have hlt' := link_lt hl hd ho hc hp
    refine ⟨(link_spec hl hd hc.known hp).1, .inr ?_⟩
    rcases hlt with rfl | hlt
    · exact hlt'
    · exact Nat.lt_trans hlt' hlt

theorem inner_certified (hl : AllWarranted C T) (hd : Distinct T) (hb : Inner T b) :
    Certified C T b := by
  rcases hb with rfl | ⟨d, hk, hb⟩
  · exact certified_genesis
  · exact (link_spec hl hd hk hb).1

/-- The block at the end of two links from a certified block, if no other branch of the tree has an
inner block in the views between. -/
def Unchallenged (C : Cluster) (T : Trace) (three : Block) : Prop :=
  ∃ two one, Link T two three ∧ Link T one two ∧ Certified C T one ∧
    ∀ c, Inner T c → three.view ≤ c.view → c.view ≤ one.view → Descends T c three

/-- Three blocks whose views follow one another leave no view for another branch. -/
theorem unchallenged_of_consecutive (hl : AllWarranted C T) (hd : Distinct T) (ho : Overlap C)
    (h₁ : Link T one two) (h₂ : Link T two three) (hone : Certified C T one)
    (hv₂ : three.view.next = two.view) (hv₁ : two.view.next = one.view) :
    Unchallenged C T three := by
  have htwo := (link_spec hl hd hone.known h₁).1
  have hthree := (link_spec hl hd htwo.known h₂).1
  have hn₂ := View.toNat_of_next_eq (link_lt hl hd ho htwo h₂) hv₂
  have hn₁ := View.toNat_of_next_eq (link_lt hl hd ho hone h₁) hv₁
  refine ⟨two, one, h₂, h₁, hone, fun c hc hv hle => ?_⟩
  have hc := inner_certified hl hd hc
  have hcase : c.view = three.view ∨ c.view = two.view ∨ c.view = one.view := by
    simp only [View.ext_iff]
    rw [View.le_def] at hv hle
    omega
  rcases hcase with he | he | he
  · rw [certified_unique hl hd ho hc hthree he]
  · rw [certified_unique hl hd ho hc htwo he]
    exact .single h₂
  · rw [certified_unique hl hd ho hc hone he]
    exact .head h₁ (.single h₂)

/-- A node that has voted for the first of three blocks in line votes for no block of a later view
that has left the third behind. -/
theorem restrained_of_vote (hl : AllWarranted C T) (hd : Distinct T) {t u : Trace} {s : Signature}
    (ht : T = t ++ (n, .publish (.vote ⟨c.view, c.hash, s⟩)) :: u) (hc : Known T c)
    (h₁ : Link T one two) (h₂ : Link T two three) (ho : Known T one)
    (hv : Voted T n one.view one.hash) (hlt : one.view < c.view) :
    ∃ l, Inner t l ∧ three.view ≤ l.view ∧
      (Descends T c l ∨ ∃ p, Link T c p ∧ l.view ≤ p.view) := by
  have hsub : t ⊆ T := by rw [ht]; exact List.subset_append_left _ _
  have hv : Voted t n one.view one.hash := by
    rw [ht] at hv hl
    rcases voted_before hl hv (Nat.le_of_lt hlt) with hv | ⟨he, -⟩
    · exact hv
    · rw [he] at hlt
      exact absurd hlt (Nat.lt_irrefl _)
  -- The lock at the vote for `c` covers the earlier vote for `one`, so it is no older than `three`.
  obtain ⟨c', hk, hh, -, -, -, l, hcl, hcov, hdir⟩ := hl t n _ u ht
  obtain rfl := hd c c' hc (hk.mono hsub) hh
  obtain ⟨b, p, hb, he, hp, hw⟩ := hcov _ _ hv
  obtain rfl := hd b one (hb.mono hsub) ho he
  obtain rfl := link_unique hd h₁ (hp.mono hsub)
  obtain ⟨-, -, q, hq, -⟩ := id h₂
  have hthree := (link_spec hl hd h₁.1 h₂).2.2 q hq
  refine ⟨l, hcl, hthree ▸ hw q hq, ?_⟩
  rcases hdir with hdir | ⟨p, hp, hle⟩
  · exact .inl (Descends.mono hsub hdir)
  · exact .inr ⟨p, hp.mono hsub, hle⟩

/-- Safety of the two-phase lock: every inner block that is no older than the end of three in line
descends from it, as soon as those in the views of the three do. -/
theorem descends_of_unchallenged (hl : AllWarranted C T) (hd : Distinct T) (ho : Overlap C)
    (hclear : Unchallenged C T three) (hc : Inner T c) (hv : three.view ≤ c.view) :
    Descends T c three := by
  obtain ⟨two, one, h₂, h₁, hone, hgap⟩ := hclear
  -- The votes for `c` may follow a lock on `c` itself. The inner induction goes back to the votes
  -- that certified it first.
  suffices hs : ∀ t u, T = t ++ u → Certified C t c → Descends T c three by
    exact hs T [] (List.append_nil T).symm (inner_certified hl hd hc)
  induction hm : c.view.toNat using Nat.strong_induction_on generalizing c with
  | _ m ih =>
    have hcc := inner_certified hl hd hc
    have ih : ∀ x, Inner T x → three.view ≤ x.view → x.view < c.view → Descends T x three :=
      fun x hx hvx hlt => ih x.view.toNat (hm ▸ hlt) hx hvx rfl T [] (List.append_nil T).symm
        (inner_certified hl hd hx)
    intro t
    induction hk : t.length using Nat.strong_induction_on generalizing t with
    | _ k ihk =>
      intro u ht hct
      by_cases hle : c.view ≤ one.view
      · exact hgap c hc hv hle
      · have hlt : one.view < c.view := Nat.lt_of_not_le hle
        rcases hct with rfl | ⟨-, hec⟩
        · exact absurd hlt (Nat.not_lt_zero _)
        · have heo := (hone.resolve_left (ne_genesis_of_link h₁)).2
          obtain ⟨n, hvo, s, hvc⟩ := ho.voter heo hec
          obtain ⟨t₁, t₂, rfl⟩ := List.append_of_mem hvc
          have ht' : T = t₁ ++ (n, .publish (.vote ⟨c.view, c.hash, s⟩)) :: (t₂ ++ u) := by
            rw [ht, List.append_assoc, List.cons_append]
          obtain ⟨l, hil, hvl, hdir⟩ :=
            restrained_of_vote hl hd ht' hcc.known h₁ h₂ hone.known hvo hlt
          have hsub : t₁ ⊆ T := by rw [ht']; exact List.subset_append_left _ _
          rcases hdir with hdir | ⟨p, hp, hle⟩
          · rcases (descends_spec hl hd ho hcc hdir).2 with rfl | hlt'
            · have hl₁ : AllWarranted C t₁ := AllWarranted.front (ht' ▸ hl)
              exact ihk t₁.length (by rw [← hk]; simp) t₁ rfl _ ht'
                (inner_certified hl₁ (hd.anti hsub) hil)
            · exact hdir.trans (ih l (hil.mono hsub) hvl hlt')
          · exact .head hp (ih p (.inr ⟨c, hcc.known, hp⟩) (Nat.le_trans hvl hle)
              (link_lt hl hd ho hcc hp))

end Equivocation.Proofs.Locking
