import Equivocation.Scenario.Assignments
import Mathlib.Data.List.Basic

namespace Equivocation.Proofs.GrowthStrings

open Assignments

/-- From `x` on, `f` leads through a list and not beyond its end. -/
inductive Unfolds {α : Type} (f : α → Option α) : α → List α → Prop
  | last {x : α} (h : f x = none) : Unfolds f x [x]
  | step {x y : α} {ys : List α} (h : f x = some y) (rest : Unfolds f y ys) :
    Unfolds f x (x :: ys)

/-- No entry exceeds the number of groups in use before it, of which there are `used` to begin
with. -/
def Grows (maxGroups : Nat) : (used : Nat) → List Nat → Prop
  | _, [] => True
  | used, g :: gs => g ≤ used ∧ g < maxGroups ∧ Grows maxGroups (max used (g + 1)) gs

def inUse (used : Nat) (string : List Nat) : Nat :=
  string.foldl (fun count g => max count (g + 1)) used

variable {maxGroups highest used length g h : Nat} {x y string : List Nat}

section Order

theorem length_advanceRest (hy : advanceRest maxGroups highest x = some y) :
    y.length = x.length := by
  induction x generalizing highest y with
  | nil => cases hy
  | cons g x ih =>
    rw [advanceRest] at hy
    split at hy
    · rename_i rest hr
      obtain rfl := Option.some.inj hy
      exact congrArg (· + 1) (ih hr)
    · split at hy
      · obtain rfl := Option.some.inj hy
        simp
      · cases hy

/-- The strings that begin with `g`, followed by those that come after them. -/
theorem unfolds_block {xs rest : List (List Nat)}
    (hx : Unfolds (advanceRest maxGroups (max highest g)) x xs)
    (hrest : if g ≤ highest ∧ g + 1 < maxGroups then
        Unfolds (advanceRest maxGroups highest) ((g + 1) :: List.replicate x.length 0) rest
      else rest = []) :
    Unfolds (advanceRest maxGroups highest) (g :: x) (xs.map (g :: ·) ++ rest) := by
  induction hx with
  | @last x hx =>
    have ha : advanceRest maxGroups highest (g :: x) =
        if g ≤ highest ∧ g + 1 < maxGroups then some ((g + 1) :: List.replicate x.length 0)
        else none := by
      rw [advanceRest, hx, List.map_const']
    split at hrest
    · rename_i hg
      exact .step (ha.trans (if_pos hg)) hrest
    · rename_i hg
      subst hrest
      exact .last (ha.trans (if_neg hg))
  | @step x y ys hx _ ih =>
    have ha : advanceRest maxGroups highest (g :: x) = some (g :: y) := by
      rw [advanceRest, hx]
    rw [← length_advanceRest hx] at hrest
    exact .step ha (ih hrest)

/-- The strings that begin with `g` or more: once those with `g` are through, either `g` grows or
nothing before the end of the string can. -/
theorem unfolds_blocks
    (htails : ∀ highest, Unfolds (advanceRest maxGroups highest) (List.replicate length 0)
      (strings maxGroups length (highest + 1)))
    (n : Nat) (hg : g + (n + 1) = min (highest + 2) maxGroups) :
    Unfolds (advanceRest maxGroups highest) (g :: List.replicate length 0)
      ((List.range' g (n + 1)).flatMap fun g =>
        (strings maxGroups length (max (highest + 1) (g + 1))).map (g :: ·)) := by
  have hmax : ∀ g, max (highest + 1) (g + 1) = max highest g + 1 := by omega
  induction n generalizing g with
  | zero =>
    refine unfolds_block (hmax g ▸ htails _) ?_
    rw [if_neg (by omega)]
    rfl
  | succ n ih =>
    refine unfolds_block (hmax g ▸ htails _) ?_
    rw [if_pos (by omega), List.length_replicate]
    exact ih (by omega)

theorem unfolds_strings (hk : 1 ≤ maxGroups) (length highest : Nat) :
    Unfolds (advanceRest maxGroups highest) (List.replicate length 0)
      (strings maxGroups length (highest + 1)) := by
  induction length generalizing highest with
  | zero => exact .last rfl
  | succ length ih =>
    obtain ⟨n, hn⟩ : ∃ n, min (highest + 2) maxGroups = n + 1 :=
      ⟨min (highest + 2) maxGroups - 1, by omega⟩
    rw [strings, hn, List.range_eq_range']
    exact unfolds_blocks ih n (by omega)

theorem Unfolds.map {α β : Type} {f : α → Option α} {g : β → Option β} {e : α → β} {x : α}
    {xs : List α} (he : ∀ x, g (e x) = (f x).map e) (h : Unfolds f x xs) :
    Unfolds g (e x) (xs.map e) := by
  induction h with
  | last h => exact .last (by rw [he, h, Option.map_none])
  | step h _ ih => exact .step (by rw [he, h, Option.map_some]) ih

/-- From the least growth string on, all growth strings follow one after the other. -/
theorem unfolds_advance (hk : 1 ≤ maxGroups) (hl : 1 ≤ length) :
    Unfolds (advance maxGroups) (List.replicate length 0) (strings maxGroups length 0) := by
  obtain ⟨n, rfl⟩ := Nat.exists_eq_add_of_le' hl
  have h := (unfolds_strings hk n 0).map (g := advance maxGroups) (e := (0 :: ·)) fun _ => rfl
  rw [strings, Nat.min_eq_left hk]
  simpa [List.replicate_succ] using h

theorem strings_ascending (maxGroups length used : Nat) :
    (strings maxGroups length used).Pairwise (· < ·) := by
  induction length generalizing used with
  | zero => exact List.pairwise_singleton _ _
  | succ length ih =>
    rw [strings]
    refine List.pairwise_flatMap.mpr ⟨fun g _ => ?_, ?_⟩
    · refine List.pairwise_map.mpr ((ih _).imp fun h => ?_)
      exact List.cons_lt_cons_self.mpr h
    · refine List.pairwise_lt_range.imp fun hlt x hx y hy => ?_
      obtain ⟨x, -, rfl⟩ := List.mem_map.mp hx
      obtain ⟨y, -, rfl⟩ := List.mem_map.mp hy
      exact List.Lex.rel hlt

theorem mem_strings :
    string ∈ strings maxGroups length used ↔
      string.length = length ∧ Grows maxGroups used string := by
  induction length generalizing used string with
  | zero => simp +contextual [strings, Grows, List.length_eq_zero_iff]
  | succ length ih =>
    rw [strings, List.mem_flatMap]
    constructor
    · rintro ⟨g, hg, hs⟩
      obtain ⟨gs, hgs, rfl⟩ := List.mem_map.mp hs
      obtain ⟨hl, hgs⟩ := ih.mp hgs
      have hlt := List.mem_range.mp hg
      exact ⟨congrArg (· + 1) hl, by omega, by omega, hgs⟩
    · rintro ⟨hl, hs⟩
      match string, hs with
      | g :: gs, ⟨hu, hk, hgs⟩ =>
        refine ⟨g, List.mem_range.mpr (by omega), List.mem_map.mpr ⟨gs, ?_, rfl⟩⟩
        exact ih.mpr ⟨Nat.succ.inj hl, hgs⟩

end Order

section Shape

theorem le_inUse (used : Nat) (string : List Nat) : used ≤ inUse used string := by
  induction string generalizing used with
  | nil => exact Nat.le_refl _
  | cons g gs ih => exact Nat.le_trans (Nat.le_max_left ..) (ih _)

theorem lt_inUse (used : Nat) (hg : g ∈ string) : g < inUse used string := by
  induction string generalizing used with
  | nil => cases hg
  | cons x xs ih =>
    rcases List.mem_cons.mp hg with rfl | hg
    · exact Nat.lt_of_lt_of_le (Nat.lt_of_succ_le (Nat.le_max_right ..)) (le_inUse _ xs)
    · exact ih _ hg

theorem inUse_le {n : Nat} (hu : used ≤ n) (hs : ∀ g ∈ string, g < n) : inUse used string ≤ n := by
  induction string generalizing used with
  | nil => exact hu
  | cons x xs ih =>
    refine ih ?_ fun g hg => hs g (List.mem_cons_of_mem _ hg)
    exact Nat.max_le.mpr ⟨hu, hs x List.mem_cons_self⟩

/-- Groups come into use in order: with every entry, the groups before it are in use already. -/
theorem grows_iff :
    Grows maxGroups used string ↔
      (∀ g ∈ string, g < maxGroups) ∧
        ∀ before h after, string = before ++ h :: after → ∀ g, used ≤ g → g < h → g ∈ before := by
  induction string generalizing used with
  | nil =>
    refine iff_of_true trivial ⟨nofun, fun before h after he => ?_⟩
    cases before <;> cases he
  | cons x xs ih =>
    rw [Grows, ih]
    constructor
    · rintro ⟨hx, hk, hlt, hs⟩
      refine ⟨List.forall_mem_cons.mpr ⟨hk, hlt⟩, fun before h after he g hu hg => ?_⟩
      cases before with
      | nil =>
        obtain ⟨rfl, -⟩ := List.cons.inj he
        omega
      | cons y before =>
        obtain ⟨rfl, hxs⟩ := List.cons.inj he
        rcases Nat.lt_or_ge x g with hxg | hxg
        · exact List.mem_cons_of_mem _ (hs before h after hxs g (by omega) hg)
        · obtain rfl : g = x := by omega
          exact List.mem_cons_self
    · rintro ⟨hlt, hs⟩
      obtain ⟨hk, hlt⟩ := List.forall_mem_cons.mp hlt
      refine ⟨?_, hk, hlt, fun before h after he g hu hg => ?_⟩
      · rcases Nat.lt_or_ge used x with hux | hux
        · cases hs [] x xs rfl used (Nat.le_refl _) hux
        · exact hux
      · have hmem := hs (x :: before) h after (congrArg (x :: ·) he) g (by omega) hg
        exact (List.mem_cons.mp hmem).resolve_left (by omega)

theorem mem_of_lt_inUse (hs : Grows maxGroups used string) (hu : used ≤ g)
    (hg : g < inUse used string) : g ∈ string := by
  induction string generalizing used with
  | nil => exact absurd hg (Nat.not_lt.mpr hu)
  | cons x xs ih =>
    obtain ⟨hx, -, hs⟩ := hs
    rcases Nat.lt_or_ge x g with hxg | hxg
    · exact List.mem_cons_of_mem _ (ih hs (by omega) hg)
    · obtain rfl : g = x := by omega
      exact List.mem_cons_self

end Shape

end Equivocation.Proofs.GrowthStrings
