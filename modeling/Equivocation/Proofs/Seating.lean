import Equivocation.Proofs.Deployment
import Equivocation.Proofs.Isolation
import Equivocation.Proofs.Validation
import Mathlib.Data.Set.Basic

namespace Equivocation.Proofs.Seating

open Deployment Validation
open Isolation (connected_iff)

/-- The replica of each node in turn: two nodes for each of the twins, one for every other. -/
def replicaOf (twins i : Nat) : Nat := if i < 2 * twins then i / 2 + 1 else i - twins + 1

/-- Nodes are numbered from 1 without a gap. Twins have two nodes next to each other, before all
other replicas, which have one. -/
structure Assigned (replicas twins : Nat) (nodes : List (NodeId × ReplicaId)) : Prop where
  numbered : nodes.map (·.1.toNat) = List.range' 1 (replicas + twins)
  carried : ∀ n r, (n, r) ∈ nodes → 0 < r.toNat ∧ r.toNat ≤ replicas
  paired : ∀ r : ReplicaId, 0 < r.toNat → r.toNat ≤ twins → ∀ n,
    (n, r) ∈ nodes ↔ n.toNat = 2 * r.toNat - 1 ∨ n.toNat = 2 * r.toNat
  single : ∀ r : ReplicaId, twins < r.toNat → r.toNat ≤ replicas → ∀ n,
    (n, r) ∈ nodes ↔ n.toNat = r.toNat + twins
  doubles : ∀ n, n ∈ twinNodes twins nodes ↔ ∃ r, (n, r) ∈ nodes ∧ ∃ m, m ≠ n ∧ (m, r) ∈ nodes

/-- Messages of a view travel within its groups: whom a node is connected to makes up its group. -/
structure Grouped (config : RunConfig) (v : ViewSchedule) : Prop where
  reaches : ∀ a b, v.connected a b = true → Existing config a ∧ Existing config b
  equivalence : Equivalence fun a b : { n // Existing config n } => v.connected a b = true
  classes : { A | ∃ a, Existing config a ∧ A = { b | v.connected a b = true } } =
    { A | ∃ g ∈ v.groups, g.nodes ≠ [] ∧ A = { b | b ∈ g.nodes } }

variable {n t : Nat} {config : RunConfig} {s : Scenario} {v : ViewSchedule} {a b : NodeId}

section Nodes

theorem nodeReplicas_eq (n t : Nat) :
    nodeReplicas n t = (List.range (n + min n t)).map (replicaOf t) := by
  induction n with
  | zero => simp [nodeReplicas]
  | succ n ih =>
    rw [nodeReplicas_succ, ih]
    by_cases h : n < t
    · have hlen : n + 1 + min (n + 1) t = n + min n t + 1 + 1 := by omega
      have hfirst : replicaOf t (n + min n t) = n + 1 := by
        unfold replicaOf
        rw [if_pos (by omega)]
        omega
      have hsecond : replicaOf t (n + min n t + 1) = n + 1 := by
        unfold replicaOf
        rw [if_pos (by omega)]
        omega
      rw [if_pos h, hlen, List.range_succ, List.range_succ]
      simp [hfirst, hsecond]
    · have hlen : n + 1 + min (n + 1) t = n + min n t + 1 := by omega
      have hlast : replicaOf t (n + min n t) = n + 1 := by
        unfold replicaOf
        rw [if_neg (by omega)]
        omega
      rw [if_neg h, hlen, List.range_succ]
      simp [hlast]

theorem assignNodes_eq (ht : t ≤ n) :
    assignNodes n t =
      (List.range (n + t)).map fun i => (.ofNat (i + 1), .ofNat (replicaOf t i)) := by
  unfold assignNodes
  rw [nodeReplicas_eq, Nat.min_eq_right ht]
  refine List.ext_getElem (by simp) fun i hi hi' => ?_
  simp

theorem replicaOf_bounds (ht : t ≤ n) {i : Nat} (hi : i < n + t) :
    0 < replicaOf t i ∧ replicaOf t i ≤ n := by
  unfold replicaOf
  split
  · omega
  · omega

theorem mem_twinNodes {x : NodeId} :
    x ∈ twinNodes t (assignNodes n t) ↔ ∃ r, (x, r) ∈ assignNodes n t ∧ r.toNat ≤ t := by
  unfold twinNodes
  simp

variable (ht : t ≤ n) (hn : n + t < 0x100000000)
include ht hn

theorem mem_assigned {x : NodeId} {r : ReplicaId} :
    (x, r) ∈ assignNodes n t ↔
      0 < x.toNat ∧ x.toNat ≤ n + t ∧ r.toNat = replicaOf t (x.toNat - 1) := by
  rw [assignNodes_eq ht, List.mem_map]
  constructor
  · rintro ⟨i, hi, he⟩
    obtain ⟨rfl, rfl⟩ := Prod.ext_iff.mp he
    have hi := List.mem_range.mp hi
    have hc := replicaOf_bounds ht hi
    have hx : (i + 1) % 0x100000000 = i + 1 := Nat.mod_eq_of_lt (by omega)
    have hr : replicaOf t i % 0x100000000 = replicaOf t i := Nat.mod_eq_of_lt (by omega)
    dsimp only
    rw [NodeId.toNat_ofNat, ReplicaId.toNat_ofNat, hx, hr]
    exact ⟨Nat.succ_pos i, hi, rfl⟩
  · rintro ⟨hp, hle, hr⟩
    refine ⟨x.toNat - 1, List.mem_range.mpr (by omega), ?_⟩
    rw [Nat.sub_add_cancel hp, NodeId.ofNat_toNat, ← hr, ReplicaId.ofNat_toNat]

theorem mem_paired {x : NodeId} {r : ReplicaId} (hp : 0 < r.toNat) (hr : r.toNat ≤ t) :
    (x, r) ∈ assignNodes n t ↔ x.toNat = 2 * r.toNat - 1 ∨ x.toNat = 2 * r.toNat := by
  rw [mem_assigned ht hn]
  unfold replicaOf
  split
  · omega
  · omega

theorem mem_single {x : NodeId} {r : ReplicaId} (hr : t < r.toNat) (hle : r.toNat ≤ n) :
    (x, r) ∈ assignNodes n t ↔ x.toNat = r.toNat + t := by
  rw [mem_assigned ht hn]
  unfold replicaOf
  split
  · omega
  · omega

theorem mem_twinNodes_iff {x : NodeId} :
    x ∈ twinNodes t (assignNodes n t) ↔
      ∃ r, (x, r) ∈ assignNodes n t ∧ ∃ y, y ≠ x ∧ (y, r) ∈ assignNodes n t := by
  rw [mem_twinNodes]
  refine exists_congr fun r => and_congr_right fun hx => ?_
  constructor
  · intro hr
    have hp : 0 < r.toNat := by
      obtain ⟨-, -, hc⟩ := (mem_assigned ht hn).mp hx
      unfold replicaOf at hc
      split at hc <;> omega
    have hpair := fun y => mem_paired (x := y) ht hn hp hr
    rcases (hpair x).mp hx with hfirst | hsecond
    · have hlt : 2 * r.toNat < 0x100000000 := by omega
      refine ⟨⟨2 * r.toNat, hlt⟩, fun he => ?_, (hpair _).mpr (.inr rfl)⟩
      rw [← he] at hfirst
      dsimp only at hfirst
      omega
    · have hlt : 2 * r.toNat - 1 < 0x100000000 := by omega
      refine ⟨⟨2 * r.toNat - 1, hlt⟩, fun he => ?_, (hpair _).mpr (.inl rfl)⟩
      rw [← he] at hsecond
      dsimp only at hsecond
      omega
  · rintro ⟨y, hne, hy⟩
    by_contra hr
    exact hne (Prod.ext_iff.mp (carried_once hn hy hx rfl (Nat.lt_of_not_le hr))).1

theorem assigned : Assigned n t (assignNodes n t) where
  numbered := by
    rw [assignNodes_eq ht, List.map_map]
    refine List.ext_getElem (by simp) fun i hi hi' => ?_
    rw [List.length_map, List.length_range] at hi
    simp only [List.getElem_map, List.getElem_range, List.getElem_range', Function.comp_apply,
      NodeId.toNat_ofNat]
    omega
  carried x r hx := by
    obtain ⟨hp, hle, hr⟩ := (mem_assigned ht hn).mp hx
    rw [hr]
    exact replicaOf_bounds ht (by omega)
  paired r hp hr x := mem_paired ht hn hp hr
  single r hr hle x := mem_single ht hn hr hle
  doubles x := mem_twinNodes_iff ht hn

end Nodes

section Views

variable (hv : Partitioned config v)
include hv

theorem existing_of_connected (h : v.connected a b = true) :
    Existing config a ∧ Existing config b := by
  obtain ⟨g, hg, ha, hb⟩ := connected_iff.mp h
  exact ⟨(hv.covering a).mp ⟨g, hg, ha⟩, (hv.covering b).mp ⟨g, hg, hb⟩⟩

theorem connected_of_mem {g : NodeSet} (hg : g ∈ v.groups) (ha : a ∈ g.nodes) :
    v.connected a b = true ↔ b ∈ g.nodes := by
  rw [connected_iff]
  constructor
  · rintro ⟨h, hh, ha', hb⟩
    have hgh : g = h := by
      by_contra hne
      have hsymm : Std.Symm fun g h : NodeSet => ∀ n ∈ g.nodes, n ∉ h.nodes :=
        ⟨fun _ _ hd n hn hm => hd n hm hn⟩
      exact hv.disjoint.forall hg hh hne a ha ha'
    exact hgh ▸ hb
  · intro hb
    exact ⟨g, hg, ha, hb⟩

theorem grouped : Grouped config v where
  reaches a b := existing_of_connected hv
  equivalence := by
    refine ⟨fun a => ?_, fun {a b} h => ?_, fun {a b c} hab hbc => ?_⟩
    · obtain ⟨g, hg, ha⟩ := (hv.covering a).mpr a.2
      exact (connected_of_mem hv hg ha).mpr ha
    · obtain ⟨g, hg, ha, hb⟩ := connected_iff.mp h
      exact (connected_of_mem hv hg hb).mpr ha
    · obtain ⟨g, hg, ha, hb⟩ := connected_iff.mp hab
      exact (connected_of_mem hv hg ha).mpr ((connected_of_mem hv hg hb).mp hbc)
  classes := by
    ext A
    constructor
    · rintro ⟨a, ha, rfl⟩
      obtain ⟨g, hg, hag⟩ := (hv.covering a).mpr ha
      exact ⟨g, hg, List.ne_nil_of_mem hag, Set.ext fun b => connected_of_mem hv hg hag⟩
    · rintro ⟨g, hg, hne, rfl⟩
      obtain ⟨a, ha⟩ := List.exists_mem_of_ne_nil _ hne
      exact ⟨a, (hv.covering a).mp ⟨g, hg, ha⟩,
        Set.ext fun b => (connected_of_mem hv hg ha).symm⟩

end Views

/-- A scenario can be run exactly if there are replicas, at most as many twins and at least one
view, and each view is led by a replica and splits all nodes among its groups. The nodes are then
numbered without a gap, twins first, and each view connects the nodes of a group with one another
alone. -/
theorem universe_agreed (config : RunConfig) (s : Scenario)
    (hn : config.replicas + config.twins < 0xFFFFFFFF) :
    (config.validate s = .ok () ↔
      1 ≤ config.replicas ∧ config.twins ≤ config.replicas ∧ s.views ≠ [] ∧
        ∀ v ∈ s.views, Partitioned config v) ∧
    (config.validate s = .ok () →
      Assigned config.replicas config.twins (assignNodes config.replicas config.twins) ∧
        ∀ v ∈ s.views, Grouped config v) := by
  have hsize : config.replicas + config.twins < 0x100000000 := by omega
  have hiff : config.validate s = .ok () ↔
      1 ≤ config.replicas ∧ config.twins ≤ config.replicas ∧ s.views ≠ [] ∧
        ∀ v ∈ s.views, Partitioned config v := by
    rw [validate_iff]
    exact and_congr_right fun _ => and_congr_right fun _ => and_iff_right hsize
  refine ⟨hiff, fun h => ?_⟩
  obtain ⟨-, ht, -, hv⟩ := hiff.mp h
  exact ⟨assigned ht hsize, fun v hm => grouped (hv v hm)⟩

def threeReplicas : RunConfig := { replicas := 3, twins := 1, ticks := 0, protocol := "" }

def apartTwins : Scenario :=
  ⟨[⟨.ofNat 3, [.ofList [.ofNat 4, .ofNat 1], .empty, .ofList [.ofNat 2, .ofNat 3]]⟩]⟩

theorem universe_agreed_apartTwins :
    3 + 1 < 0xFFFFFFFF ∧ threeReplicas.validate apartTwins = .ok () ∧
      Assigned 3 1 (assignNodes 3 1) ∧ ∀ v ∈ apartTwins.views, Grouped threeReplicas v := by
  have hn : threeReplicas.replicas + threeReplicas.twins < 0xFFFFFFFF := by decide
  have hv : threeReplicas.validate apartTwins = .ok () := by decide
  obtain ⟨-, h⟩ := universe_agreed threeReplicas apartTwins hn
  exact ⟨hn, hv, h hv⟩

end Equivocation.Proofs.Seating
