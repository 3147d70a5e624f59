import Equivocation.Proofs.Rounds
import Equivocation.Proofs.Validation
import Equivocation.Proofs.ViewChange

namespace Equivocation.Proofs.Gathering

open History States Deployment Provenance ViewChange Boards Rounds Validation

/-- A view in which one of `n` replicas leads and nobody of `n` nodes is cut off. -/
structure Gathered (n : Nat) (schedule : ViewSchedule) : Prop where
  leader : 0 < schedule.leader.toNat ∧ schedule.leader.toNat ≤ n
  group : ∃ g, schedule.groups = [g] ∧ ∀ x : NodeId, x ∈ g.nodes ↔ 0 < x.toNat ∧ x.toNat ≤ n

variable {scheme : Scheme} {s : Scenario} {config : RunConfig} {n : Nat}

section Assignment

/-- Without twins, replicas and nodes have the same numbers. -/
theorem assignNodes_plain (n : Nat) :
    assignNodes n 0 = (List.range n).map fun i => (.ofNat (i + 1), .ofNat (i + 1)) := by
  have hr : nodeReplicas n 0 = (List.range n).map (· + 1) := by
    unfold nodeReplicas
    rw [← List.flatMap_pure_eq_map]
    exact List.flatMap_congr fun i _ => if_neg (Nat.not_lt_zero i)
  unfold assignNodes
  rw [hr]
  refine List.ext_getElem? fun i => ?_
  by_cases hi : i < n
  · simp [List.getElem?_range hi]
  · simp [hi]

theorem nodes_assigned (n : Nat) :
    (assignNodes n 0).map (·.1) = (List.range n).map fun i => .ofNat (i + 1) := by
  rw [assignNodes_plain, List.map_map]
  rfl

theorem twinNodes_plain (hn : n < 0x100000000) : twinNodes 0 (assignNodes n 0) = [] := by
  unfold twinNodes
  rw [List.map_eq_nil_iff, List.filter_eq_nil_iff]
  intro x hx hle
  rw [assignNodes_plain] at hx
  obtain ⟨i, hi, rfl⟩ := List.mem_map.mp hx
  have hi := List.mem_range.mp hi
  have hle := of_decide_eq_true hle
  rw [ReplicaId.toNat_ofNat] at hle
  omega

theorem replicas_assigned (n : Nat) : (assignNodes n 0).map (·.2) = replicas n := by
  rw [assignNodes_plain, List.map_map]
  rfl

theorem nodup_replicas (hn : n < 0x100000000) : (replicas n).Nodup := by
  refine List.Nodup.map_on (fun i hi j hj h => ?_) List.nodup_range
  have hi := List.mem_range.mp hi
  have hj := List.mem_range.mp hj
  have h := congrArg ReplicaId.toNat h
  rw [ReplicaId.toNat_ofNat, ReplicaId.toNat_ofNat] at h
  omega

theorem nodup_nodes (hn : n < 0x100000000) : ((assignNodes n 0).map (·.1)).Nodup := by
  rw [nodes_assigned]
  refine List.Nodup.map_on (fun i hi j hj h => ?_) List.nodup_range
  have hi := List.mem_range.mp hi
  have hj := List.mem_range.mp hj
  have h : (i + 1) % 0x100000000 = (j + 1) % 0x100000000 := congrArg NodeId.toNat h
  omega

theorem node_bounds (hn : n < 0x100000000) {x : NodeId × ReplicaId} (hx : x ∈ assignNodes n 0) :
    0 < x.1.toNat ∧ x.1.toNat ≤ n := by
  rw [assignNodes_plain] at hx
  obtain ⟨i, hi, rfl⟩ := List.mem_map.mp hx
  have hi := List.mem_range.mp hi
  dsimp only
  rw [NodeId.toNat_ofNat]
  omega

theorem mem_replicas {r : ReplicaId} (hp : 0 < r.toNat) (hr : r.toNat ≤ n) : r ∈ replicas n := by
  refine List.mem_map.mpr ⟨r.toNat - 1, List.mem_range.mpr (by omega), ?_⟩
  rw [Nat.sub_add_cancel hp, ReplicaId.ofNat_toNat]

end Assignment

section Validation

variable (ht : config.twins = 0)
include ht

theorem partitioned_of_gathered {schedule : ViewSchedule} (h : Gathered config.replicas schedule) :
    Partitioned config schedule := by
  obtain ⟨g, hg, hmem⟩ := h.group
  refine ⟨h.leader, hg ▸ List.pairwise_singleton _ g, fun n => ?_⟩
  rw [hg, Existing, ht, Nat.add_zero, ← hmem n]
  simp

theorem validate_ok (hn : config.replicas < 0x100000000) (hp : 0 < config.replicas)
    (hs : s.views ≠ []) (h : ∀ x ∈ s.views, Gathered config.replicas x) :
    config.validate s = .ok () := by
  refine validate_iff.mpr ⟨hp, by omega, by omega, hs, fun x hx => ?_⟩
  exact partitioned_of_gathered ht (h x hx)

end Validation

theorem gathered_of_schedule {v : View} {schedule : ViewSchedule}
    (h : ∀ x ∈ s.views, Gathered n x) (hs : s.schedule? v = some schedule) :
    Gathered n schedule := by
  unfold Scenario.schedule? at hs
  split at hs
  · cases hs
  · exact h _ (List.mem_of_getElem? hs)

section Clusters

variable (hv : config.validate s = .ok ()) (ht : config.twins = 0)
include ht

theorem nodes_seated : (cluster scheme s config hv).seats.map (·.node) =
    (List.range config.replicas).map fun i => .ofNat (i + 1) := by
  unfold cluster
  dsimp only
  rw [List.map_map, ht]
  exact nodes_assigned _

theorem seat_bounds {t : Seat} (hmem : t ∈ (cluster scheme s config hv).seats) :
    0 < t.node.toNat ∧ t.node.toNat ≤ config.replicas := by
  obtain ⟨x, hx, rfl⟩ := List.mem_map.mp hmem
  rw [ht] at hx
  have hn := (validate_spec hv).2.2
  exact node_bounds (by omega) hx

variable (hg : ∀ x ∈ s.views, Gathered config.replicas x)
include hg

theorem cluster_joined (hi : config.injection = none) :
    Joined (cluster scheme s config hv) (wiring s config) where
  injection := hi
  nodes := by
    unfold cluster
    dsimp only
    rw [List.map_map]
    exact (List.map_id _).symm
  connected v schedule hs t hmem u hmem' := by
    obtain ⟨g, hgroup, hall⟩ := (gathered_of_schedule hg hs).group
    have hin : ∀ t ∈ (cluster scheme s config hv).seats, g.contains t.node = true :=
      fun t hmem => List.contains_iff_mem.mpr ((hall _).mpr (seat_bounds hv ht hmem))
    unfold ViewSchedule.connected
    rw [hgroup, List.any_cons, hin t hmem, hin u hmem']
    rfl

theorem cluster_single (hown : ∀ r h, scheme.verify r h (scheme.sign r h) = true)
    (hto : 4 ≤ config.viewTimeout) : Single (cluster scheme s config hv) s where
  keyed := cluster_keyed hv hown
  nodes := by
    have hn := (validate_spec hv).2.2
    rw [nodes_seated hv ht, ← nodes_assigned]
    exact nodup_nodes (by omega)
  replicas := by
    have hn := (validate_spec hv).2.2
    exact nodup_replicas (by omega)
  seated := by
    unfold cluster
    dsimp only
    rw [List.map_map, ht]
    exact replicas_assigned _
  leaders t hmem := by
    obtain ⟨x, -, rfl⟩ := List.mem_map.mp hmem
    rfl
  led v leader hl := by
    obtain ⟨schedule, hs, rfl⟩ := Option.map_eq_some_iff.mp hl
    obtain ⟨hp, hle⟩ := (gathered_of_schedule hg hs).leader
    exact mem_replicas hp hle
  timeout t hmem := by
    obtain ⟨x, -, rfl⟩ := List.mem_map.mp hmem
    exact hto

end Clusters

end Equivocation.Proofs.Gathering
