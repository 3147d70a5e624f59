namespace Equivocation

universe u v

/-- A finite map as a list of entries, the entry set last at the end. -/
abbrev Table (κ : Type u) (α : Type v) := List (κ × α)

namespace Table

variable {κ : Type u} {α : Type v} [DecidableEq κ]

def get? (t : Table κ α) (k : κ) : Option α := (t.find? (·.1 = k)).map (·.2)

def erase (t : Table κ α) (k : κ) : Table κ α := t.filter (·.1 ≠ k)

def set (t : Table κ α) (k : κ) (x : α) : Table κ α := erase t k ++ [(k, x)]

def setSorted (before : κ → κ → Bool) (k : κ) (x : α) : Table κ α → Table κ α
  | [] => [(k, x)]
  | e :: t =>
    if e.1 = k then (k, x) :: t
    else if before k e.1 then (k, x) :: e :: t
    else e :: setSorted before k x t

theorem get?_cons (e : κ × α) (t : Table κ α) (l : κ) :
    get? (e :: t) l = if e.1 = l then some e.2 else get? t l := by
  by_cases h : e.1 = l <;> simp [get?, h]

theorem get?_filter (p : κ → Bool) (t : Table κ α) (k : κ) :
    get? (t.filter fun e => p e.1) k = if p k then get? t k else none := by
  induction t with
  | nil => simp [get?]
  | cons e t ih =>
    by_cases hk : e.1 = k
    · subst hk
      by_cases hp : p e.1 = true <;> simp [get?_cons, hp, ih]
    · by_cases hp : p e.1 = true <;> simp [get?_cons, hp, hk, ih]

theorem get?_erase (t : Table κ α) (k l : κ) :
    (erase t k).get? l = if l = k then none else get? t l := by
  rw [erase, get?_filter (fun l => l ≠ k)]
  by_cases hl : l = k <;> simp [hl]

theorem get?_set (t : Table κ α) (k l : κ) (x : α) :
    (set t k x).get? l = if l = k then some x else get? t l := by
  have h := get?_erase t k l
  simp only [get?, set, List.find?_append] at h ⊢
  by_cases hl : l = k
  · subst hl
    simp only [if_true] at h
    rw [Option.map_eq_none_iff] at h
    simp [h]
  · have hne : ¬ k = l := fun e => hl e.symm
    simp only [hl, if_false] at h
    simpa [hl, hne] using h

theorem get?_eq_some_iff {t : Table κ α} {k : κ} {x : α} (h : (t.map (·.1)).Nodup) :
    get? t k = some x ↔ (k, x) ∈ t := by
  induction t with
  | nil => simp [get?]
  | cons e t ih =>
    obtain ⟨he, ht⟩ := List.nodup_cons.mp h
    rw [get?_cons, List.mem_cons]
    by_cases hk : e.1 = k
    · have hno : (k, x) ∉ t := fun hm => he (List.mem_map.mpr ⟨_, hm, hk.symm⟩)
      simp [hk, hno, Prod.ext_iff, eq_comm]
    · have hne : (k, x) ≠ e := fun h => hk (h ▸ rfl)
      simp [hk, hne, ih ht]

end Table

end Equivocation
