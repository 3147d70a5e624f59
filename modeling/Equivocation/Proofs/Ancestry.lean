import Equivocation.Chain
import Mathlib.Logic.Relation

namespace Equivocation.Proofs.Ancestry

open Relation

variable {c : Chain} {a b p x : Block} {h : Hash}

theorem hash_of_get? (hb : c.get? h = some b) : b.hash = h := by
  have hh := List.find?_some hb
  simpa using hh

theorem mem_of_get? (hb : c.get? h = some b) : b ∈ c.blocks := List.mem_of_find?_eq_some hb

theorem mem_insert (hx : x ∈ (c.insert b).blocks) : x = b ∨ x ∈ c.blocks := by
  unfold Chain.insert at hx
  split at hx
  · exact .inr hx
  · exact List.mem_cons.mp hx

theorem get?_insert (hx : c.get? h = some x) : (c.insert b).get? h = some x := by
  unfold Chain.insert
  split
  · exact hx
  · rename_i hb
    have hne : b.hash ≠ h := by
      rintro rfl
      simp [Chain.contains, hx] at hb
    simpa [Chain.get?, hne] using hx

theorem get?_of_insert (hx : (c.insert b).get? h = some x) : x = b ∨ c.get? h = some x := by
  unfold Chain.insert at hx
  split at hx
  · exact .inr hx
  · rw [Chain.get?, List.find?_cons] at hx
    split at hx
    · exact .inl (Option.some.inj hx).symm
    · exact .inr hx

/-- `p` is the stored parent of `b`. No walk goes on from view 0. -/
def Up (c : Chain) (b p : Block) : Prop := b.view ≠ View.zero ∧ c.get? b.parent = some p

inductive Walk (c : Chain) : Block → List Block → Block → Prop
  | stop (b : Block) : Walk c b [] b
  | step {b p y : Block} {bs : List Block} : Up c b p → Walk c p bs y → Walk c b (b :: bs) y

theorem follow_find? {stop : Block → Bool} (hs : ∀ b, b.view = View.zero → stop b = true)
    {fuel : Nat} (hx : (c.follow fuel b).find? stop = some x) : ReflTransGen (Up c) b x := by
  induction fuel generalizing b with
  | zero =>
    have hb := List.mem_of_find?_eq_some hx
    simp only [Chain.follow, List.mem_singleton] at hb
    rw [hb]
  | succ fuel ih =>
    rw [Chain.follow, List.find?_cons] at hx
    cases hb : stop b with
    | true =>
      simp only [hb, Option.some.injEq] at hx
      rw [hx]
    | false =>
      have hv : b.view ≠ View.zero := fun hv => by simp [hs b hv] at hb
      simp only [hb] at hx
      cases hp : c.get? b.parent with
      | none => simp [hp] at hx
      | some p =>
        simp only [hp] at hx
        exact .head ⟨hv, hp⟩ (ih hx)

theorem hasAncestry_path (hb : c.hasAncestry b = true) :
    ∃ root, ReflTransGen (Up c) b root ∧ root.hash = Block.genesisHash := by
  unfold Chain.hasAncestry at hb
  split at hb
  · cases hb
  · rename_i root hr
    refine ⟨root, follow_find? (fun b hv => by simpa using hv) hr, ?_⟩
    simpa [Block.isGenesis] using hb

theorem reaches_path (hb : c.reaches b h = true) :
    ∃ target x, c.get? h = some target ∧ ReflTransGen (Up c) b x ∧ x.hash = h := by
  unfold Chain.reaches at hb
  split at hb
  · cases hb
  · rename_i target ht
    split at hb
    · cases hb
    · rename_i x hx
      refine ⟨target, x, ht, follow_find? (fun b hv => ?_) hx, by simpa using hb⟩
      simp [View.le_def, hv]

theorem follow_takeWhile {v : View} {fuel : Nat}
    (hn : ((c.follow fuel b).takeWhile fun x => v < x.view).length ≠ (c.follow fuel b).length) :
    ∃ y, Walk c b ((c.follow fuel b).takeWhile fun x => v < x.view) y ∧ ¬ v < y.view := by
  induction fuel generalizing b with
  | zero =>
    by_cases hb : v < b.view
    · simp [Chain.follow, hb] at hn
    · exact ⟨b, by simpa [Chain.follow, hb] using Walk.stop b, hb⟩
  | succ fuel ih =>
    rw [Chain.follow, List.takeWhile_cons] at hn ⊢
    by_cases hb : v < b.view
    · simp only [hb, decide_true, if_true, List.length_cons] at hn ⊢
      cases hp : c.get? b.parent with
      | none => simp [hp] at hn
      | some p =>
        simp only [hp] at hn ⊢
        obtain ⟨y, hy, hv⟩ := ih (b := p) (by omega)
        have hz : b.view ≠ View.zero := fun hz => by simp [View.lt_def, hz] at hb
        exact ⟨y, .step ⟨hz, hp⟩ hy, hv⟩
    · exact ⟨b, by simpa [hb] using Walk.stop b, hb⟩

theorem Walk.ends {y : Block} {bs : List Block} (hw : Walk c b bs y) :
    bs = [] ∧ y = b ∨ ∃ bs', bs = b :: bs' := by
  cases hw with
  | stop => exact .inl ⟨rfl, rfl⟩
  | step => exact .inr ⟨_, rfl⟩

end Equivocation.Proofs.Ancestry
