import Equivocation.FaultLog
import Mathlib.Data.List.Basic

namespace Equivocation.Proofs.FaultLogs

open FaultLog

section Tables

variable {κ α : Type} [DecidableEq κ] {before : κ → κ → Bool} {k l : κ} {x : α} {t : Table κ α}
  {e : κ × α}

theorem mem_setSorted (h : e ∈ t.setSorted before k x) : e = (k, x) ∨ e ∈ t := by
  induction t with
  | nil => exact .inl (List.mem_singleton.mp h)
  | cons e' t ih =>
    rw [Table.setSorted] at h
    split at h
    · exact (List.mem_cons.mp h).imp id (List.mem_cons_of_mem _)
    · split at h
      · exact List.mem_cons.mp h
      · obtain rfl | h := List.mem_cons.mp h
        · exact .inr List.mem_cons_self
        · exact (ih h).imp id (List.mem_cons_of_mem _)

theorem get?_setSorted (before : κ → κ → Bool) (k l : κ) (x : α) (t : Table κ α) :
    (t.setSorted before k x).get? l = if l = k then some x else t.get? l := by
  induction t with
  | nil =>
    rw [Table.setSorted, Table.get?_cons]
    exact if_congr eq_comm rfl rfl
  | cons e t ih =>
    rw [Table.setSorted]
    by_cases hk : e.1 = k
    · rw [if_pos hk, Table.get?_cons, Table.get?_cons, hk]
      by_cases hl : l = k
      · rw [if_pos hl.symm, if_pos hl]
      · rw [if_neg (Ne.symm hl), if_neg hl, if_neg (Ne.symm hl)]
    · rw [if_neg hk]
      split
      · rw [Table.get?_cons]
        exact if_congr eq_comm rfl rfl
      · rw [Table.get?_cons, Table.get?_cons, ih]
        by_cases hl : l = k
        · rw [if_neg (fun h => hk (h.trans hl)), if_pos hl, if_pos hl]
        · rw [if_neg hl, if_neg hl]

end Tables

section KeysAscend

variable {α β : Type} {t t' : Table String α} {k : String} {x : α}

def KeysAscend (t : Table String α) : Prop := t.Pairwise fun e e' => e.1 < e'.1

theorem keysAscend_setSorted (h : KeysAscend t) (k : String) (x : α) :
    KeysAscend (t.setSorted (fun a b => a < b) k x) := by
  induction t with
  | nil => exact List.pairwise_singleton _ _
  | cons e t ih =>
    obtain ⟨he, ht⟩ := List.pairwise_cons.mp h
    rw [Table.setSorted]
    split
    next hk => exact List.pairwise_cons.mpr ⟨fun e' he' => hk ▸ he e' he', ht⟩
    next hk =>
      split
      next hlt =>
        have hlt := of_decide_eq_true hlt
        refine List.pairwise_cons.mpr ⟨fun e' he' => ?_, h⟩
        obtain rfl | he' := List.mem_cons.mp he'
        · exact hlt
        · exact String.lt_trans hlt (he e' he')
      next hlt =>
        refine List.pairwise_cons.mpr ⟨fun e' he' => ?_, ih ht⟩
        obtain rfl | he' := mem_setSorted he'
        · have hle := String.not_lt.mp fun h => hlt (decide_eq_true h)
          exact Decidable.of_not_not fun h => hk (String.le_antisymm hle (String.not_lt.mp h))
        · exact he e' he'

theorem nodup_keys (h : KeysAscend t) : (t.map (·.1)).Nodup := by
  refine List.pairwise_map.mpr (List.Pairwise.imp (fun hlt he => ?_) h)
  exact String.lt_irrefl _ (he ▸ hlt)

theorem get?_eq_some (h : KeysAscend t) : t.get? k = some x ↔ (k, x) ∈ t :=
  Table.get?_eq_some_iff (nodup_keys h)

theorem nodup_of_keysAscend (h : KeysAscend t) : t.Nodup := by
  refine List.Pairwise.imp (fun hlt => ?_) h
  rintro rfl
  exact String.lt_irrefl _ hlt

theorem keysAscend_ext (h : KeysAscend t) (h' : KeysAscend t') (hg : ∀ k, t.get? k = t'.get? k) :
    t = t' := by
  have hperm : t.Perm t' :=
    (List.perm_ext_iff_of_nodup (nodup_of_keysAscend h) (nodup_of_keysAscend h')).mpr fun e => by
      rw [← get?_eq_some h, ← get?_eq_some h', hg]
  exact hperm.eq_of_pairwise
    (fun e e' _ _ hlt hlt' => absurd hlt' (String.lt_asymm hlt)) h h'

theorem get?_map (f : α → β) (t : Table String α) (k : String) :
    Table.get? (t.map fun e => (e.1, f e.2)) k = (t.get? k).map f := by
  unfold Table.get?
  rw [List.find?_map, Option.map_map, Option.map_map]
  rfl

theorem keysAscend_map (h : KeysAscend t) (f : α → β) : KeysAscend (t.map fun e => (e.1, f e.2)) :=
  List.pairwise_map.mpr h

end KeysAscend

/-- What does not depend on how often a fault has occurred. -/
def Uncounted (P : FaultRecord → Prop) : Prop :=
  ∀ (r : FaultRecord) (n : Nat), P r → P { r with occurrences := n }

section Records

variable {P : FaultRecord → Prop} (hP : Uncounted P) {faults : Table String FaultRecord}
  {log other : FaultLog} {r : FaultRecord} {f : Fault} {step : String} {m : Message}
  {seed : Option Nat}
include hP

/-- A record is that of one of the occurrences, but for their number. -/
theorem absorb_uncounted {new : FaultRecord} (hr : P r) (hn : P new) : P (r.absorb new) := by
  unfold FaultRecord.absorb
  split
  · exact hP _ _ hn
  · exact hP _ _ hr

theorem insert_uncounted (h : ∀ e ∈ faults, P e.2) (hr : P r) :
    ∀ e ∈ insert faults r, P e.2 := by
  intro e he
  obtain rfl | he := mem_setSorted he
  · dsimp only
    cases hf : faults.get? r.key with
    | none => exact hr
    | some existing =>
      obtain ⟨x, hx, rfl⟩ := Option.map_eq_some_iff.mp hf
      exact absorb_uncounted hP (h x (List.mem_of_find?_eq_some hx)) hr
  · exact h e he

theorem record_uncounted (h : ∀ e ∈ log.faults, P e.2)
    (hr : P (.once f step m seed)) :
    ∀ e ∈ (log.record f step m seed).faults, P e.2 := insert_uncounted hP h hr

theorem merge_uncounted (h : ∀ e ∈ log.faults, P e.2) (h' : ∀ e ∈ other.faults, P e.2) :
    ∀ e ∈ (log.merge other).faults, P e.2 := by
  have hfold : ∀ rs : List FaultRecord, (∀ r ∈ rs, P r) → ∀ faults : Table String FaultRecord,
      (∀ e ∈ faults, P e.2) → ∀ e ∈ rs.foldl insert faults, P e.2 := by
    intro rs
    induction rs with
    | nil => exact fun _ faults h => h
    | cons r rs ih =>
      intro hrs faults h
      obtain ⟨hr, hrs⟩ := List.forall_mem_cons.mp hrs
      exact ih hrs _ (insert_uncounted hP h hr)
  exact hfold _ (List.forall_mem_map.mpr h') _ h

end Records

end Equivocation.Proofs.FaultLogs
