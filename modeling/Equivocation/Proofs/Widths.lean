import Equivocation.Proofs.Circulation
import Equivocation.Proofs.Seating
import Equivocation.Proofs.Timers
import Mathlib.Algebra.Order.BigOperators.Group.List
import Mathlib.Algebra.Order.Ring.Nat

namespace Equivocation.Proofs.Widths

open States Timers
open Agreement (builtIn_get? plainScheme openScenario fourReplicas open_valid)
open Circulation (openStates)

/-- A mailbox for each instance, a number for each message and a stamp for each use of a cached
signature. -/
def operations {rules : Rules} (run : Run rules.protocol) : Nat :=
  run.instances.length + run.network.sent.length +
    (run.instances.map fun i => i.state.signatures.entries.nextStamp).sum

/-- The counters of a run fit 64 bits, also when they move on, and quorums are those of a positive
number of replicas. -/
structure InWidth {rules : Rules} (config : RunConfig) (run : Run rules.protocol) : Prop where
  ticks : run.ticks ≤ config.ticks
  replicas : ∀ i ∈ run.instances, 0 < i.seat.replicas.length
  timers : ∀ i ∈ run.instances, i.state.viewTicks + 1 < 0x10000000000000000
  ordinals : ∀ e ∈ run.network.sent, e.ordinal + 1 < 0x10000000000000000
  stamps : ∀ i ∈ run.instances,
    i.state.signatures.entries.nextStamp < 0x10000000000000000

section Numbers

theorem numberNodes_succ (rs : List Nat) {k : Nat} (hk : k < 0xFFFFFFFF) :
    numberNodes (k + 1) rs =
      if k + rs.length < 0xFFFFFFFF then
        .ok ((rs.zipIdx k).map fun (r, i) => (.ofNat (i + 1), .ofNat r))
      else .error (.overflow "src/twins/executor.rs:312") := by
  induction rs generalizing k with
  | nil => exact (if_pos hk).symm
  | cons r rs ih =>
    rw [numberNodes, List.length_cons]
    by_cases hlast : k + 1 = 0xFFFFFFFF
    · rw [if_pos hlast, if_neg (by omega)]
    · rw [if_neg hlast, ih (by omega)]
      by_cases hfit : k + (rs.length + 1) < 0xFFFFFFFF
      · rw [if_pos hfit, if_pos (by omega)]
        rfl
      · rw [if_neg hfit, if_neg (by omega)]

/-- The last number has to leave room for another one. -/
theorem numberNodes_one {n t : Nat} (ht : t ≤ n) :
    numberNodes 1 (nodeReplicas n t) =
      if n + t < 0xFFFFFFFF then .ok (assignNodes n t)
      else .error (.overflow "src/twins/executor.rs:312") := by
  have hlen : (nodeReplicas n t).length = n + t := by
    rw [Seating.nodeReplicas_eq, List.length_map, List.length_range, Nat.min_eq_right ht]
  have h := numberNodes_succ (nodeReplicas n t) (by decide : 0 < 0xFFFFFFFF)
  rw [hlen, Nat.zero_add, Nat.zero_add] at h
  exact h

end Numbers

section Validation

variable {config : RunConfig} {s : Scenario}

theorem validate_refused (h : config.replicas = 0 ∨ config.replicas < config.twins) :
    ∃ reason, config.validate s = .error (.invalidConfiguration reason) := by
  unfold RunConfig.validate
  split
  · exact ⟨_, rfl⟩
  · split
    · exact ⟨_, rfl⟩
    · omega

theorem validate_overflow (hr : 0 < config.replicas) (ht : config.twins ≤ config.replicas)
    (hs : s.views ≠ []) (hsize : 0x100000000 ≤ config.replicas + config.twins) :
    config.validate s = .error (.crash (.overflow "src/twins/executor.rs:343")) := by
  have hne : ¬ s.views.isEmpty = true := fun h => hs (List.isEmpty_iff.mp h)
  unfold RunConfig.validate
  rw [if_neg (by omega), if_neg (by omega), if_neg hne, if_pos hsize]

theorem validate_error (hsize : config.replicas + config.twins < 0x100000000) {e : RunError}
    (h : config.validate s = .error e) : ∃ reason, e = .invalidConfiguration reason := by
  unfold RunConfig.validate at h
  split at h
  · exact ⟨_, (Except.error.inj h).symm⟩
  · split at h
    · exact ⟨_, (Except.error.inj h).symm⟩
    · split at h
      · exact ⟨_, (Except.error.inj h).symm⟩
      · rw [if_neg (by omega)] at h
        split at h
        · exact ⟨_, (Except.error.inj h).symm⟩
        · cases h

end Validation

section Runs

variable {rules : Rules} (scheme : Scheme) (s : Scenario) (config : RunConfig)

theorem opened_punctual (rules : Rules) (hv : config.validate s = .ok ()) :
    Punctual config (wiring s config) 0 (opened scheme s config rules.protocol) := by
  obtain ⟨hpos, ht, hsize⟩ := Deployment.validate_spec hv
  refine ⟨rfl, ?_, fun i hi => ?_, [], Routing.orderly_empty _⟩
  · change 0 < (List.map _ (assignNodes config.replicas config.twins)).length
    rw [Seating.assignNodes_eq ht, List.length_map, List.length_map, List.length_range]
    omega
  · obtain ⟨x, -, rfl⟩ := List.mem_map.mp hi
    refine ⟨fun hnil => ?_, rfl, Nat.lt_of_lt_of_le Nat.one_pos (Nat.le_max_left 1 _)⟩
    have hlen := congrArg List.length hnil
    simp at hlen
    omega

variable {scheme s config}

theorem inWidth_of_within {w : Wiring} {run : Run rules.protocol}
    (htimeout : config.viewTimeout < 0x10000000000000000)
    (hops : operations run < 0x10000000000000000) (h : Within config w config.ticks run) :
    InWidth config run := by
  obtain ⟨k, hk, h⟩ := h
  obtain ⟨resolved, ho⟩ := h.orderly
  have hattended := h.attended
  unfold operations at hops
  refine ⟨h.ticks ▸ hk, fun i hi => List.length_pos_iff.mpr (h.timed i hi).replicas, fun i hi => ?_,
    fun e he => ?_, fun i hi => ?_⟩
  · have htimer := (h.timed i hi).timer
    omega
  · have hnum : e.ordinal ∈ List.range' 1 run.network.sent.length :=
      ho.numbered ▸ List.mem_map_of_mem he
    have hle := List.mem_range'_1.mp hnum
    omega
  · have hle := List.le_sum_of_mem
      (List.mem_map_of_mem (f := fun i => i.state.signatures.entries.nextStamp) hi)
    omega

theorem result_error (hsize : config.replicas + config.twins < 0x100000000) {e : RunError}
    (h : (runProtocol scheme s config rules.protocol).result = .error e) :
    (∃ reason, e = .invalidConfiguration reason) ∨ Foreseen config.ticks e := by
  cases hv : config.validate s with
  | error e' =>
    unfold runProtocol at h
    rw [hv] at h
    obtain rfl : e' = e := Except.error.inj h
    exact .inl (validate_error hsize hv)
  | ok _ =>
    obtain ⟨hend, -⟩ := complete_yields (opened_punctual scheme s config rules hv)
    rw [runProtocol_eq scheme rules.protocol hv] at h
    cases hc : (opened scheme s config rules.protocol).complete config (wiring s config) with
    | ok last =>
      rw [hc] at h
      cases h
    | error stop =>
      rw [hc] at h hend
      obtain rfl : stop.1 = e := Except.error.inj h
      exact .inr hend.1

variable (scheme s config)

/-- Where there are no replicas, or fewer than twins, a run is refused. Where there are more nodes
than 32 bits can number, their number is not refused but overflows, and the last number overflows in
the same way when the nodes are given theirs. With fewer nodes a run ends well or with an error that
is not a crash, and in no state does a counter leave its width, if there are fewer operations than
64 bits can count. -/
theorem counters_in_width (hp : config.protocol = rules.name)
    (hticks : config.ticks < 0x10000000000000000)
    (htimeout : config.viewTimeout < 0x10000000000000000) :
    (config.replicas = 0 ∨ config.replicas < config.twins →
      ∃ reason, (runRegistered scheme s config Registry.builtIn).result =
        .error (.invalidConfiguration reason)) ∧
    (0 < config.replicas → config.twins ≤ config.replicas →
      numberNodes 1 (nodeReplicas config.replicas config.twins) =
        (if config.replicas + config.twins < 0xFFFFFFFF then
          .ok (assignNodes config.replicas config.twins)
        else .error (.overflow "src/twins/executor.rs:312")) ∧
      (s.views ≠ [] → 0x100000000 ≤ config.replicas + config.twins →
        (runRegistered scheme s config Registry.builtIn).result =
          .error (.crash (.overflow "src/twins/executor.rs:343")))) ∧
    (config.replicas + config.twins < 0xFFFFFFFF →
      (∀ e, (runRegistered scheme s config Registry.builtIn).result = .error e →
        (∃ reason, e = .invalidConfiguration reason) ∨ Foreseen config.ticks e) ∧
      (config.validate s = .ok () → ∀ run ∈ states scheme s config rules.protocol,
        operations run < 0x10000000000000000 →
          InWidth config run ∧ run.ticks < 0x10000000000000000)) := by
  have heq : runRegistered scheme s config Registry.builtIn =
      runProtocol scheme s config rules.protocol := by
    unfold runRegistered
    rw [hp, builtIn_get?]
  have hinvalid : ∀ e, config.validate s = .error e →
      (runProtocol scheme s config rules.protocol).result = .error e := by
    intro e he
    unfold runProtocol
    rw [he]
  rw [heq]
  refine ⟨fun h => ?_, fun hr ht => ⟨numberNodes_one ht, fun hs hsize => ?_⟩, fun hsize =>
    ⟨fun e he => ?_, fun hv run hrun hops => ?_⟩⟩
  · obtain ⟨reason, hreason⟩ := validate_refused (s := s) h
    exact ⟨reason, hinvalid _ hreason⟩
  · exact hinvalid _ (validate_overflow hr ht hs hsize)
  · exact result_error (by omega) he
  · obtain ⟨-, hall⟩ := complete_yields (opened_punctual scheme s config rules hv)
    have hw := inWidth_of_within htimeout hops (hall run hrun)
    exact ⟨hw, Nat.lt_of_le_of_lt hw.ticks hticks⟩

end Runs

theorem counters_in_width_openRun :
    ∃ run ∈ openStates, 0 < run.ticks ∧ run.network.sent ≠ [] ∧
      InWidth (fourReplicas .simple 7) run := by
  obtain ⟨-, -, h⟩ := @counters_in_width .simple plainScheme openScenario
    (fourReplicas .simple 7) rfl (by decide) (by decide)
  obtain ⟨-, hall⟩ := h (by decide)
  have hrun : ∃ run ∈ openStates, 0 < run.ticks ∧ run.network.sent ≠ [] ∧
      operations run < 0x10000000000000000 := by
    decide +kernel
  obtain ⟨run, hmem, hticks, hsent, hops⟩ := hrun
  exact ⟨run, hmem, hticks, hsent, (hall (open_valid .simple) run hmem hops).1⟩

def halves : RunConfig where
  replicas := 0x80000000
  twins := 0x80000000
  ticks := 100
  protocol := "chainedhotstuff"

def leaderless : Scenario := ⟨[⟨.ofNat 0, []⟩]⟩

/-- Each number is in its range, but the sum is not, and it is not refused. -/
theorem overflow_halves :
    halves.replicas < 0x100000000 ∧ halves.twins ≤ halves.replicas ∧
      (runRegistered plainScheme leaderless halves Registry.builtIn).result =
        .error (.crash (.overflow "src/twins/executor.rs:343")) := by
  refine ⟨by decide, by decide, ?_⟩
  unfold runRegistered
  rw [show halves.protocol = Rules.chained.name from rfl, builtIn_get?]
  rfl

end Equivocation.Proofs.Widths
