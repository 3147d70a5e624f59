import Equivocation.Proofs.Simulation
import Mathlib.Data.Finset.Card
import Mathlib.Data.List.Nodup

namespace Equivocation.Proofs.Deployment

open History Locking Turns Worlds Commits States Simulation

theorem validate_spec {config : RunConfig} {s : Scenario} (h : config.validate s = .ok ()) :
    0 < config.replicas ∧ config.twins ≤ config.replicas ∧
      config.replicas + config.twins < 0x100000000 := by
  unfold RunConfig.validate at h
  split at h
  · cases h
  · split at h
    · cases h
    · split at h
      · cases h
      · split at h
        · cases h
        · omega

def replicas (n : Nat) : List ReplicaId := (List.range n).map fun i => .ofNat (i + 1)

theorem length_replicas (n : Nat) : (replicas n).length = n := by simp [replicas]

section Nodes

variable {n t : Nat}

theorem nodeReplicas_succ (n t : Nat) :
    nodeReplicas (n + 1) t = nodeReplicas n t ++ if n < t then [n + 1, n + 1] else [n + 1] := by
  unfold nodeReplicas
  rw [List.range_succ, List.flatMap_append, List.flatMap_singleton]

theorem length_nodeReplicas (n t : Nat) : (nodeReplicas n t).length ≤ n + t := by
  have h : (nodeReplicas n t).length = n + min n t := by
    induction n with
    | zero => simp [nodeReplicas]
    | succ n ih =>
      rw [nodeReplicas_succ, List.length_append, ih]
      split
      · simp only [List.length_cons, List.length_nil]
        omega
      · simp only [List.length_cons, List.length_nil]
        omega
  omega

theorem mem_nodeReplicas {r : Nat} (hr : r ∈ nodeReplicas n t) : 0 < r ∧ r ≤ n := by
  obtain ⟨i, hi, hr⟩ := List.mem_flatMap.mp hr
  have hi := List.mem_range.mp hi
  split at hr
  · simp only [List.mem_cons, List.not_mem_nil, or_false, or_self] at hr
    omega
  · simp only [List.mem_cons, List.not_mem_nil, or_false] at hr
    omega

theorem pairwise_nodeReplicas (n t : Nat) :
    (nodeReplicas n t).Pairwise fun a b => a < b ∨ a = b ∧ a ≤ t := by
  induction n with
  | zero => exact .nil
  | succ n ih =>
    rw [nodeReplicas_succ]
    refine List.pairwise_append.mpr ⟨ih, ?_, fun a ha b hb => ?_⟩
    · split
      · rename_i h
        simp [Nat.succ_le_of_lt h]
      · exact List.pairwise_singleton _ _
    · have ha := (mem_nodeReplicas ha).2
      have hb : b = n + 1 := by
        split at hb <;> simpa using hb
      exact .inl (by omega)

theorem mem_assignNodes {x : NodeId × ReplicaId} (hx : x ∈ assignNodes n t) :
    ∃ i r, (nodeReplicas n t)[i]? = some r ∧ x = (.ofNat (i + 1), .ofNat r) := by
  obtain ⟨⟨r, i⟩, hm, rfl⟩ := List.mem_map.mp hx
  exact ⟨i, r, List.mem_zipIdx_iff_getElem?.mp hm, rfl⟩

theorem replica_mem_replicas {x : NodeId × ReplicaId} (hx : x ∈ assignNodes n t) :
    x.2 ∈ replicas n := by
  obtain ⟨i, r, hi, rfl⟩ := mem_assignNodes hx
  have hr := mem_nodeReplicas (List.mem_of_getElem? hi)
  refine List.mem_map.mpr ⟨r - 1, List.mem_range.mpr (by omega), ?_⟩
  rw [Nat.sub_add_cancel hr.1]

variable (hn : n + t < 0x100000000)
include hn

theorem node_injective {x y : NodeId × ReplicaId} (hx : x ∈ assignNodes n t)
    (hy : y ∈ assignNodes n t) (h : x.1 = y.1) : x = y := by
  obtain ⟨i, r, hi, rfl⟩ := mem_assignNodes hx
  obtain ⟨j, q, hj, rfl⟩ := mem_assignNodes hy
  have hlen := length_nodeReplicas n t
  have hi' := (List.getElem?_eq_some_iff.mp hi).1
  have hj' := (List.getElem?_eq_some_iff.mp hj).1
  have hij : i = j := by
    have h := congrArg NodeId.toNat h
    simp only [NodeId.toNat_ofNat] at h
    omega
  subst hij
  rw [Option.some.inj (hi.symm.trans hj)]

theorem carried_once {x y : NodeId × ReplicaId} (hx : x ∈ assignNodes n t)
    (hy : y ∈ assignNodes n t) (h : x.2 = y.2) (ht : t < x.2.toNat) : x = y := by
  obtain ⟨i, r, hi, rfl⟩ := mem_assignNodes hx
  obtain ⟨j, q, hj, rfl⟩ := mem_assignNodes hy
  have hr := mem_nodeReplicas (List.mem_of_getElem? hi)
  have hq := mem_nodeReplicas (List.mem_of_getElem? hj)
  have hrq : r = q := by
    have h := congrArg ReplicaId.toNat h
    simp only [ReplicaId.toNat_ofNat] at h
    omega
  subst hrq
  have hrt : t < r := by
    simp only [ReplicaId.toNat_ofNat] at ht
    omega
  have hpair := List.pairwise_iff_getElem.mp (pairwise_nodeReplicas n t)
  obtain ⟨hi', hi⟩ := List.getElem?_eq_some_iff.mp hi
  obtain ⟨hj', hj⟩ := List.getElem?_eq_some_iff.mp hj
  rcases Nat.lt_trichotomy i j with hlt | rfl | hlt
  · have hp := hpair i j hi' hj' hlt
    rw [hi, hj] at hp
    omega
  · rfl
  · have hp := hpair j i hj' hi' hlt
    rw [hi, hj] at hp
    omega

end Nodes

/-- Two quorums have more replicas in common than there are twins. -/
theorem common_replica {n t : Nat} (hn : n < 0x100000000) (hpos : 0 < n) (ht : t ≤ (n - 1) / 3)
    {us vs : List ReplicaId} (hu : us.Nodup) (hv : vs.Nodup) (hus : us ⊆ replicas n)
    (hvs : vs ⊆ replicas n) (hul : quorumSize n ≤ us.length) (hvl : quorumSize n ≤ vs.length) :
    ∃ r ∈ us, r ∈ vs ∧ t < r.toNat := by
  by_contra hno
  -- Then the quorums share replicas of twins only, and there are too few of them.
  have hsmall : us.toFinset ∩ vs.toFinset ⊆ (replicas t).toFinset := by
    intro r hr
    obtain ⟨hru, hrv⟩ := Finset.mem_inter.mp hr
    rw [List.mem_toFinset] at hru hrv ⊢
    have hle : r.toNat ≤ t := Nat.le_of_not_lt fun h => hno ⟨r, hru, hrv, h⟩
    obtain ⟨i, hi, rfl⟩ := List.mem_map.mp (hus hru)
    have hi := List.mem_range.mp hi
    rw [ReplicaId.toNat_ofNat] at hle
    exact List.mem_map.mpr ⟨i, List.mem_range.mpr (by omega), rfl⟩
  have hcap := Finset.card_le_card hsmall
  have hcup : us.toFinset ∪ vs.toFinset ⊆ (replicas n).toFinset := by
    intro r hr
    rw [List.mem_toFinset]
    rcases Finset.mem_union.mp hr with hr | hr
    · exact hus (List.mem_toFinset.mp hr)
    · exact hvs (List.mem_toFinset.mp hr)
  have hall := Finset.card_le_card hcup
  have hsum := Finset.card_union_add_card_inter us.toFinset vs.toFinset
  have hrt := (replicas t).toFinset_card_le
  have hrn := (replicas n).toFinset_card_le
  rw [length_replicas] at hrt hrn
  rw [List.toFinset_card_of_nodup hu, List.toFinset_card_of_nodup hv] at hsum
  unfold quorumSize at hul hvl
  omega

section Runs

variable (scheme : Scheme) (s : Scenario) (config : RunConfig)

def seatOf (x : NodeId × ReplicaId) : Seat where
  node := x.1
  replica := x.2
  replicas := replicas config.replicas
  leaders := s.leaders
  viewTimeout := config.viewTimeout
  policy := ⟨⟨scheme, x.2, replicas config.replicas⟩, config.cacheCapacity,
    quorumSize (replicas config.replicas).length⟩

def cluster (h : config.validate s = .ok ()) : Cluster where
  seats := (assignNodes config.replicas config.twins).map (seatOf scheme s config)
  replicas := replicas config.replicas
  knows t ht := by
    obtain ⟨x, -, rfl⟩ := List.mem_map.mp ht
    rfl
  signs t ht := by
    obtain ⟨x, -, rfl⟩ := List.mem_map.mp ht
    rfl
  apart t ht u hu he := by
    obtain ⟨x, hx, rfl⟩ := List.mem_map.mp ht
    obtain ⟨y, hy, rfl⟩ := List.mem_map.mp hu
    rw [node_injective (validate_spec h).2.2 hx hy he]

variable {scheme s config} (hv : config.validate s = .ok ())

theorem cluster_overlap (ht : config.twins ≤ (config.replicas - 1) / 3) :
    Overlap (cluster scheme s config hv) := by
  obtain ⟨hpos, -, hn⟩ := validate_spec hv
  intro us vs hu hw hus hvs hul hvl
  have hul : quorumSize config.replicas ≤ us.length := by
    rw [← length_replicas config.replicas]
    exact hul
  have hvl : quorumSize config.replicas ≤ vs.length := by
    rw [← length_replicas config.replicas]
    exact hvl
  obtain ⟨r, hru, hrv, hrt⟩ := common_replica (by omega) hpos ht hu hw hus hvs hul hvl
  refine ⟨r, hru, hrv, fun t hts u hus ht hu => ?_⟩
  obtain ⟨x, hx, rfl⟩ := List.mem_map.mp hts
  obtain ⟨y, hy, rfl⟩ := List.mem_map.mp hus
  subst ht
  rw [carried_once hn hx hy hu.symm hrt]

theorem opened_mirrors (rules : Rules) :
    Mirrors (cluster scheme s config hv) rules (opened scheme s config rules.protocol)
      .initial where
  reachable := .initial
  seats := List.map_map
  states i hi := by
    obtain ⟨x, -, rfl⟩ := List.mem_map.mp hi
    rfl
  commits i hi := by
    obtain ⟨x, -, rfl⟩ := List.mem_map.mp hi
    rfl
  published i hi e he := by
    obtain ⟨x, -, rfl⟩ := List.mem_map.mp hi
    exact absurd he List.not_mem_nil
  sent e he := absurd he List.not_mem_nil
  recorded n whom m hm := absurd hm List.not_mem_nil
  pending e he := absurd he List.not_mem_nil

structure Reports (C : Cluster) (rules : Rules) (twins : List NodeId) (result : RunResult)
    (W : World) : Prop where
  reachable : Reachable rules C W
  recorded : ∀ n whom m, (n, .send whom m) ∈ W.trace → ∃ e ∈ result.sent, e.message = m
  sent : ∀ e ∈ result.sent, ∃ n whom, (n, .send whom e.message) ∈ W.trace
  commitLog : result.commitLog = C.seats.map fun t => (t.node, (W.replica t.node).committed)
  verdict : result.verdict = result.commitLog.judge twins

theorem outcome_reports {C : Cluster} {rules : Rules} {run : Run rules.protocol} {wiring : Wiring}
    {W : World} (hm : Mirrors C rules run W) :
    ∃ result, (Run.outcome config wiring (.ok run)).result = .ok result ∧
      Reports C rules (twinNodes config.twins wiring.nodes) result W := by
  have hr : Mirrors C rules (run.readEvents config) W := readEvents_mirrors hm
  refine ⟨_, rfl, hr.reachable, hr.recorded, fun e he => ?_, ?_, rfl⟩
  · obtain ⟨t, -, -, whom, hm⟩ := hr.sent e he
    exact ⟨t.node, whom, hm⟩
  rw [← hr.seats, List.map_map]
  refine List.map_congr_left fun i hi => ?_
  obtain ⟨j, hj, rfl⟩ := List.mem_map.mp hi
  exact Prod.ext rfl (hm.commits j hj)

theorem complete_passedThrough {C : Cluster} {rules : Rules} {run : Run rules.protocol}
    {wiring : Wiring} (hi : wiring.injection = none) (hm : Mirrors C rules run .initial) :
    ∃ run', PassedThrough C rules [] (completeStates config wiring run) run' ∧
      (run.complete config wiring = .ok run' ∨
        config.deadlinePassed = true ∧ ∃ e, run.complete config wiring = .error (e, run')) := by
  have hs : StartingWorld C run.nodes .initial := by
    intro t ht
    rw [← hm.seats] at ht
    obtain ⟨i, hi, rfl⟩ := List.mem_map.mp ht
    exact .inl ⟨List.mem_map.mpr ⟨i, hi, rfl⟩, rfl⟩
  obtain ⟨run₁, h₁, W₁, hm₁, hs₁, -, hshown₁⟩ := starts_passedThrough run.nodes hm hs
  obtain ⟨run₂, ⟨W₂, hm₂, hs₂, hT₂, hshown₂⟩, hend⟩ :=
    @loop_passedThrough C rules run₁ W₁ config wiring hi config.ticks hm₁ hs₁
  unfold Run.complete completeStates
  rw [h₁]
  exact ⟨run₂, ⟨W₂, hm₂, hs₂, List.nil_subset _, (hshown₁.mono hT₂).append hshown₂⟩, hend⟩

theorem states_passedThrough (rules : Rules) (hi : config.injection = none) :
    ∃ run, PassedThrough (cluster scheme s config hv) rules []
      (states scheme s config rules.protocol) run ∧
      ((opened scheme s config rules.protocol).complete config (wiring s config) = .ok run ∨
        config.deadlinePassed = true ∧
          ∃ e, (opened scheme s config rules.protocol).complete config (wiring s config) =
            .error (e, run)) :=
  complete_passedThrough hi (opened_mirrors hv rules)

theorem runProtocol_reports (rules : Rules) (hi : config.injection = none) :
    (∃ result W, (runProtocol scheme s config rules.protocol).result = .ok result ∧
      Reports (cluster scheme s config hv) rules
        (twinNodes config.twins (assignNodes config.replicas config.twins)) result W) ∨
    config.deadlinePassed = true ∧
      ∃ e, (runProtocol scheme s config rules.protocol).result = .error e := by
  rw [runProtocol_eq scheme rules.protocol hv]
  obtain ⟨run, ⟨W, hm, -⟩, hend⟩ := @states_passedThrough scheme s config hv rules hi
  rcases hend with he | ⟨hd, e, he⟩
  · rw [he]
    obtain ⟨result, hr, hreports⟩ := @outcome_reports config _ rules run (wiring s config) W hm
    exact .inl ⟨result, W, hr, hreports⟩
  · rw [he]
    exact .inr ⟨hd, e, rfl⟩

end Runs

end Equivocation.Proofs.Deployment
