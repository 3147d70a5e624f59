import Equivocation.Run.Config
import Mathlib.Data.List.Nodup
import Mathlib.Tactic.Common

namespace Equivocation.Proofs.Validation

open RunConfig

def Existing (config : RunConfig) (n : NodeId) : Prop :=
  0 < n.toNat ∧ n.toNat ≤ config.replicas + config.twins

/-- A view that is led by a replica, and whose groups split all nodes of a run. -/
structure Partitioned (config : RunConfig) (v : ViewSchedule) : Prop where
  leader : 0 < v.leader.toNat ∧ v.leader.toNat ≤ config.replicas
  disjoint : v.groups.Pairwise fun g h => ∀ n ∈ g.nodes, n ∉ h.nodes
  covering : ∀ n, (∃ g ∈ v.groups, n ∈ g.nodes) ↔ Existing config n

variable {config : RunConfig} {s : Scenario} {v : ViewSchedule} {view m : Nat}
  {covered ns : List NodeId}

section Covers

theorem cover_eq_ok {all : List NodeId} :
    cover config view covered ns = .ok all ↔
      (∀ n ∈ ns, Existing config n) ∧ ns.Nodup ∧ (∀ n ∈ ns, n ∉ covered) ∧
        all = ns.reverse ++ covered := by
  induction ns generalizing covered with
  | nil =>
    rw [cover]
    simp [eq_comm]
  | cons n ns ih =>
    rw [cover]
    by_cases hn : Existing config n
    · by_cases hc : n ∈ covered
      · rw [if_neg (by unfold Existing at hn; omega), if_pos (List.contains_iff_mem.mpr hc)]
        exact iff_of_false nofun fun h => h.2.2.1 n List.mem_cons_self hc
      · rw [if_neg (by unfold Existing at hn; omega),
          if_neg (fun h => hc (List.contains_iff_mem.mp h)), ih, List.nodup_cons]
        simp only [List.mem_cons, forall_eq_or_imp, List.reverse_cons, List.append_assoc,
          List.singleton_append]
        constructor
        · rintro ⟨he, hd, hnew, rfl⟩
          exact ⟨⟨hn, he⟩, ⟨fun hm => hnew n hm (.inl rfl), hd⟩,
            ⟨hc, fun x hx hm => hnew x hx (.inr hm)⟩, rfl⟩
        · rintro ⟨⟨-, he⟩, ⟨hm, hd⟩, ⟨-, hnew⟩, rfl⟩
          exact ⟨he, hd, fun x hx h => h.elim (fun hxn => hm (hxn ▸ hx)) (hnew x hx), rfl⟩
    · rw [if_pos (by unfold Existing at hn; omega)]
      exact iff_of_false nofun fun h => hn (h.1 n List.mem_cons_self)

theorem coversUpTo_iff :
    coversUpTo covered m = true ↔ ∀ k, 0 < k → k ≤ m → ∃ n ∈ covered, n.toNat = k := by
  induction m with
  | zero => exact iff_of_true rfl fun k hp hk => absurd hk (Nat.not_le_of_lt hp)
  | succ m ih =>
    have hany : covered.any (·.toNat = m + 1) = true ↔ ∃ n ∈ covered, n.toNat = m + 1 := by simp
    rw [coversUpTo, Bool.and_eq_true_iff, hany, ih]
    constructor
    · rintro ⟨hlast, h⟩ k hp hk
      obtain rfl | hk := Nat.eq_or_lt_of_le hk
      · exact hlast
      · exact h k hp (Nat.le_of_lt_succ hk)
    · intro h
      exact ⟨h (m + 1) (Nat.succ_pos m) (Nat.le_refl _),
        fun k hp hk => h k hp (Nat.le_succ_of_le hk)⟩

end Covers

section Views

theorem nodup_groups (gs : List NodeSet) :
    (gs.flatMap (·.nodes)).Nodup ↔ gs.Pairwise fun g h => ∀ n ∈ g.nodes, n ∉ h.nodes := by
  have hg : ∀ g ∈ gs, g.nodes.Nodup := fun g _ =>
    g.ascending.imp fun h => ne_of_apply_ne NodeId.toNat (Nat.ne_of_lt h)
  rw [List.nodup_flatMap]
  exact and_iff_right hg

variable (hsize : config.replicas + config.twins < 0x100000000)
include hsize

theorem validateView_iff (view : Nat) :
    validateView config v view = .ok () ↔ Partitioned config v := by
  unfold validateView
  split
  · exact iff_of_false nofun fun h => by have := h.leader; omega
  · rename_i hl
    -- What is covered in the end has exactly the nodes of the groups.
    cases hc : cover config view [] (v.groups.flatMap (·.nodes)) with
    | error reason =>
      refine iff_of_false nofun fun h => ?_
      have hok : cover config view [] (v.groups.flatMap (·.nodes)) = .ok _ := cover_eq_ok.mpr
        ⟨fun n hn => (h.covering n).mp (List.mem_flatMap.mp hn), (nodup_groups _).mpr h.disjoint,
          fun _ _ => List.not_mem_nil, rfl⟩
      rw [hc] at hok
      cases hok
    | ok all =>
      obtain ⟨he, hd, -, rfl⟩ := cover_eq_ok.mp hc
      have hmem : ∀ n, n ∈ (v.groups.flatMap (·.nodes)).reverse ++ [] ↔
          ∃ g ∈ v.groups, n ∈ g.nodes := by simp
      dsimp only
      split
      · rename_i hall
        refine iff_of_true rfl ⟨by omega, (nodup_groups _).mp hd, fun n => ⟨fun hn => ?_, ?_⟩⟩
        · exact he n (List.mem_flatMap.mpr hn)
        · rintro ⟨hp, hle⟩
          obtain ⟨x, hx, hxn⟩ := coversUpTo_iff.mp hall n.toNat hp hle
          exact (hmem n).mp (NodeId.ext hxn ▸ hx)
      · rename_i hall
        refine iff_of_false nofun fun h => hall (coversUpTo_iff.mpr fun k hp hle => ?_)
        have hk : k < 0x100000000 := Nat.lt_of_le_of_lt hle hsize
        exact ⟨⟨k, hk⟩, (hmem _).mpr ((h.covering _).mpr ⟨hp, hle⟩), rfl⟩

theorem validateViews_iff (views : List ViewSchedule) (view : Nat) :
    validateViews config views view = .ok () ↔ ∀ v ∈ views, Partitioned config v := by
  induction views generalizing view with
  | nil => exact iff_of_true rfl fun _ h => absurd h List.not_mem_nil
  | cons v views ih =>
    rw [validateViews, List.forall_mem_cons, ← validateView_iff hsize view, ← ih (view + 1)]
    cases validateView config v view with
    | error reason => exact iff_of_false nofun fun h => by cases h.1
    | ok _ => exact (and_iff_right rfl).symm

end Views

/-- A scenario can be run exactly if each of its views is led by a replica and splits the nodes. -/
theorem validate_iff :
    config.validate s = .ok () ↔
      0 < config.replicas ∧ config.twins ≤ config.replicas ∧
        config.replicas + config.twins < 0x100000000 ∧ s.views ≠ [] ∧
          ∀ v ∈ s.views, Partitioned config v := by
  unfold validate
  split
  · exact iff_of_false nofun fun h => by omega
  · split
    · exact iff_of_false nofun fun h => by omega
    · split
      · rename_i hs
        exact iff_of_false nofun fun h => h.2.2.2.1 (List.isEmpty_iff.mp hs)
      · split
        · exact iff_of_false nofun fun h => by omega
        · rename_i hs hsize
          have hviews := validateViews_iff (Nat.lt_of_not_le hsize) s.views 1
          have hne : s.views ≠ [] := fun h => hs (List.isEmpty_iff.mpr h)
          cases hv : validateViews config s.views 1 with
          | error reason =>
            refine iff_of_false nofun fun h => ?_
            rw [hviews.mpr h.2.2.2.2] at hv
            cases hv
          | ok _ => exact iff_of_true rfl ⟨by omega, by omega, by omega, hne, hviews.mp hv⟩

end Equivocation.Proofs.Validation
