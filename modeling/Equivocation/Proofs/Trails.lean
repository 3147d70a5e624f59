import Equivocation.Proofs.Ancestry
import Equivocation.Proofs.Locking
import Mathlib.Data.List.Chain
import Mathlib.Data.List.Nodup

namespace Equivocation.Proofs.Trails

open Relation History Locking Ancestry

variable {C : Cluster} {T : Trace} {a b y : Block} {bs cs : List Block} {c : Chain}

/-- The blocks on the way from the genesis block, itself left out, to the last one. -/
inductive Trail (T : Trace) : List Block → Block → Prop
  | root : Trail T [] .genesis
  | step {bs : List Block} {p b : Block} : Trail T bs p → Link T b p → Trail T (bs ++ [b]) b

/-- An inner block that all inner blocks of no earlier view descend from. -/
def Final (T : Trace) (b : Block) : Prop :=
  Inner T b ∧ ∀ c, Inner T c → b.view ≤ c.view → Descends T c b

theorem mono {T' : Trace} (ht : T ⊆ T') (h : Trail T bs b) : Trail T' bs b := by
  induction h with
  | root => exact .root
  | step _ hp ih => exact .step ih (hp.mono ht)

theorem final_genesis (hl : AllWarranted C T) (hd : Distinct T) (ho : Overlap C) :
    Final T .genesis :=
  ⟨.inl rfl, fun _ hc _ => certified_rooted hl hd ho (inner_certified hl hd hc)⟩

theorem final_of_unchallenged (hl : AllWarranted C T) (hd : Distinct T) (ho : Overlap C)
    (hb : Unchallenged C T b) : Final T b := by
  obtain ⟨two, one, h₂, h₁, -⟩ := id hb
  exact ⟨.inr ⟨two, h₁.1, h₂⟩, fun c => descends_of_unchallenged hl hd ho hb⟩

theorem unique (hd : Distinct T) (hb : Trail T bs b) (hc : Trail T cs b) : bs = cs := by
  induction hb generalizing cs with
  | root =>
    cases hc with
    | root => rfl
    | step _ hp => exact absurd hp genesis_unlinked
  | step _ hp ih =>
    cases hc with
    | root => exact absurd hp genesis_unlinked
    | step hc hq =>
      obtain rfl := link_unique hd hp hq
      rw [ih hc]

theorem prefix_of_descends (hd : Distinct T) (ha : Trail T bs a) (hb : Trail T cs b)
    (h : Descends T b a) : bs <+: cs := by
  induction h using ReflTransGen.head_induction_on generalizing cs with
  | refl => rw [unique hd ha hb]
  | head hp _ ih =>
    cases hb with
    | root => exact absurd hp genesis_unlinked
    | step hc hq =>
      obtain rfl := link_unique hd hp hq
      exact (ih hc).trans (List.prefix_append _ _)

/-- Of the trails to two final blocks, one continues the other. -/
theorem comparable (hd : Distinct T) (ha : Trail T bs a) (hb : Trail T cs b)
    (hfa : Final T a) (hfb : Final T b) : bs <+: cs ∨ cs <+: bs := by
  rcases Nat.le_total a.view.toNat b.view.toNat with hv | hv
  · exact .inl (prefix_of_descends hd ha hb (hfa.2 b hfb.1 hv))
  · exact .inr (prefix_of_descends hd hb ha (hfb.2 a hfa.1 hv))

theorem extend (hu : ∀ b p, Known T b → Up c b p → Link T b p) (hw : Walk c b cs y)
    (hb : Known T b) (hy : Trail T bs y) : Trail T (bs ++ cs.reverse) b := by
  induction hw with
  | stop b => simpa using hy
  | step hp _ ih =>
    have hl := hu _ _ hb hp
    rw [List.reverse_cons, ← List.append_assoc]
    exact .step (ih hl.1 hy) hl

theorem walk_stops (hl : AllWarranted C T) (hd : Distinct T) (ho : Overlap C)
    (hu : ∀ b p, Known T b → Up c b p → Link T b p) (hw : Walk c b cs y)
    (hb : Certified C T b) (ha : Descends T b a) (hcs : ∀ x ∈ cs, a.view < x.view)
    (hy : ¬ a.view < y.view) : y = a := by
  induction hw with
  | stop b => exact ((descends_spec hl hd ho hb ha).2.resolve_right hy).symm
  | step hp _ ih =>
    have hlink := hu _ _ hb.known hp
    rcases ReflTransGen.cases_head ha with rfl | ⟨p, hp', ha⟩
    · exact absurd (hcs _ List.mem_cons_self) (Nat.lt_irrefl _)
    · obtain rfl := link_unique hd hlink hp'
      exact ih (link_spec hl hd hb.known hlink).1 ha
        (fun x hx => hcs x (List.mem_cons_of_mem _ hx)) hy

theorem known (h : Trail T bs b) (hb : Known T b) : ∀ x ∈ bs, Known T x ∧ x ≠ .genesis := by
  induction h with
  | root => exact fun x hx => absurd hx List.not_mem_nil
  | step _ hp ih =>
    intro x hx
    rcases List.mem_append.mp hx with hx | hx
    · exact ih hp.1 x hx
    · rw [List.mem_singleton.mp hx]
      exact ⟨hb, ne_genesis_of_link hp⟩

theorem last (h : Trail T bs b) : (Block.genesis :: bs).getLast? = some b := by
  cases h with
  | root => rfl
  | step _ _ => rw [← List.cons_append, List.getLast?_concat]

/-- Along a trail to a certified block, each block is the parent of the next, and views ascend. -/
theorem isChain (hl : AllWarranted C T) (hd : Distinct T) (ho : Overlap C) (h : Trail T bs b)
    (hb : Certified C T b) :
    (Block.genesis :: bs).IsChain fun x y => y.parent = x.hash ∧ x.view < y.view := by
  induction h with
  | root => exact .singleton _
  | step ht hp ih =>
    rw [← List.cons_append]
    refine List.isChain_append.mpr ⟨ih (link_spec hl hd hb.known hp).1, .singleton _, ?_⟩
    intro x hx y hy
    rw [last ht] at hx
    cases hx
    cases hy
    exact ⟨hp.2.1, link_lt hl hd ho hb hp⟩

theorem hashes_nodup (hl : AllWarranted C T) (hd : Distinct T) (ho : Overlap C) (h : Trail T bs b)
    (hb : Certified C T b) : (bs.map (·.hash)).Nodup := by
  have ht : Trans (fun x y : Block => x.view < y.view) (fun x y : Block => x.view < y.view)
      (fun x y : Block => x.view < y.view) := ⟨fun h g => Nat.lt_trans h g⟩
  have hc := (isChain hl hd ho h hb).imp fun x y hxy => hxy.2
  have hp := (List.isChain_iff_pairwise.mp hc).of_cons
  refine List.Nodup.map_on (fun x hx y hy he => ?_) (hp.imp fun hxy he => ?_)
  · exact hd x y (known h hb.known x hx).1 (known h hb.known y hy).1 he
  · rw [he] at hxy
    exact Nat.lt_irrefl _ hxy

end Equivocation.Proofs.Trails
