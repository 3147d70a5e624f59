import Equivocation.Run.Execution

namespace Equivocation.Proofs.States

section Steps

variable {p : Protocol} (config : RunConfig) (wiring : Wiring)

def sequenceStates {α : Type} (step : α → Run p → Run.Step p) : List α → Run p → List (Run p)
  | [], run => [run]
  | x :: xs, run =>
    run :: match step x run with
      | .error (_, stopped) => [stopped]
      | .ok next => sequenceStates step xs next

/-- The states within a tick: a delivery at a time, then a timer at a time. -/
def tickStates (run : Run p) : List (Run p) :=
  let (batch, network) := Network.nextBatch wiring run.network
  let run := { run with network, records := run.records ++ batch.remarks }
  sequenceStates Run.deliver batch.deliveries run ++
    match Run.sequence Run.deliver batch.deliveries run with
    | .error _ => []
    | .ok run => sequenceStates (fun n => Run.act n p.tick) run.nodes run

def loopStates : (budget : Nat) → Run p → List (Run p)
  | 0, run => [run]
  | budget + 1, run =>
    run ::
      if config.deadlinePassed || run.finished wiring then []
      else
        tickStates wiring run ++
          match Run.tick config wiring run with
          | .error _ => []
          | .ok next => loopStates budget next

/-- All states of a run: one instance is started at a time, then come the ticks. -/
def completeStates (run : Run p) : List (Run p) :=
  sequenceStates (fun n => Run.act n p.start) run.nodes run ++
    match Run.sequence (fun n => Run.act n p.start) run.nodes run with
    | .error _ => []
    | .ok run => loopStates config wiring config.ticks run

def EndsIn (step : Run.Step p) (run : Run p) : Prop := step = .ok run ∨ ∃ e, step = .error (e, run)

variable {config wiring} {run last : Run p}

theorem endsIn_ok (h : EndsIn (.ok run) last) : last = run := by
  rcases h with h | ⟨e, h⟩
  · exact (Except.ok.inj h).symm
  · cases h

theorem endsIn_error {e : RunError} (h : EndsIn (.error (e, run)) last) : last = run := by
  rcases h with h | ⟨f, h⟩
  · cases h
  · cases h
    rfl

theorem last_mem_sequenceStates {α : Type} {step : α → Run p → Run.Step p} {xs : List α}
    (h : EndsIn (Run.sequence step xs run) last) : last ∈ sequenceStates step xs run := by
  induction xs generalizing run with
  | nil => exact List.mem_singleton.mpr (endsIn_ok h)
  | cons x xs ih =>
    rw [Run.sequence] at h
    rw [sequenceStates]
    refine List.mem_cons_of_mem _ ?_
    cases he : step x run with
    | error stop =>
      rw [he] at h
      exact List.mem_singleton.mpr (endsIn_error h)
    | ok next =>
      rw [he] at h
      exact ih h

theorem last_mem_tickStates {e : RunError} (h : Run.tick config wiring run = .error (e, last)) :
    last ∈ tickStates wiring run := by
  unfold Run.tick at h
  dsimp only at h
  unfold tickStates
  dsimp only
  cases he : Run.sequence Run.deliver (Network.nextBatch wiring run.network).1.deliveries
      { run with
        network := (Network.nextBatch wiring run.network).2
        records := run.records ++ (Network.nextBatch wiring run.network).1.remarks } with
  | error stop =>
    rw [he] at h
    cases h
    exact List.mem_append_left _ (last_mem_sequenceStates (.inr ⟨e, he⟩))
  | ok delivered =>
    rw [he] at h
    dsimp only at h
    cases he' : Run.sequence (fun n => Run.act n p.tick) delivered.nodes delivered with
    | error stop =>
      rw [he'] at h
      cases h
      exact List.mem_append_right _ (last_mem_sequenceStates (.inr ⟨e, he'⟩))
    | ok ticked =>
      rw [he'] at h
      cases h

theorem last_mem_loopStates {budget : Nat} (h : EndsIn (Run.loop config wiring budget run) last) :
    last ∈ loopStates config wiring budget run := by
  induction budget generalizing run with
  | zero => exact List.mem_singleton.mpr (endsIn_ok h)
  | succ budget ih =>
    rw [Run.loop] at h
    rw [loopStates]
    by_cases hd : config.deadlinePassed = true
    · rw [if_pos hd] at h
      exact List.mem_cons.mpr (.inl (endsIn_error h))
    · rw [if_neg hd] at h
      by_cases hf : run.finished wiring = true
      · rw [if_pos hf] at h
        exact List.mem_cons.mpr (.inl (endsIn_ok h))
      · rw [if_neg hf] at h
        rw [if_neg (by simp [hd, hf])]
        refine List.mem_cons_of_mem _ ?_
        cases he : Run.tick config wiring run with
        | error stop =>
          rw [he] at h
          rw [endsIn_error h]
          exact List.mem_append_left _ (last_mem_tickStates he)
        | ok next =>
          rw [he] at h
          exact List.mem_append_right _ (ih h)

theorem last_mem_completeStates (h : EndsIn (run.complete config wiring) last) :
    last ∈ completeStates config wiring run := by
  unfold Run.complete at h
  unfold completeStates
  cases he : Run.sequence (fun n => Run.act n p.start) run.nodes run with
  | error stop =>
    rw [he] at h
    rw [endsIn_error h]
    exact List.mem_append_left _ (last_mem_sequenceStates (.inr ⟨stop.1, he⟩))
  | ok started =>
    rw [he] at h
    exact List.mem_append_right _ (last_mem_loopStates h)

end Steps

section Validation

variable {config config' : RunConfig} (hr : config'.replicas = config.replicas)
  (ht : config'.twins = config.twins)
include hr ht

theorem cover_congr (view : Nat) (covered ns : List NodeId) :
    config'.cover view covered ns = config.cover view covered ns := by
  induction ns generalizing covered with
  | nil => rfl
  | cons n ns ih => rw [RunConfig.cover, RunConfig.cover, ih, hr, ht]

theorem validateViews_congr (vs : List ViewSchedule) (view : Nat) :
    config'.validateViews vs view = config.validateViews vs view := by
  induction vs generalizing view with
  | nil => rfl
  | cons v vs ih =>
    rw [RunConfig.validateViews, RunConfig.validateViews, ih, RunConfig.validateView,
      RunConfig.validateView, cover_congr hr ht, hr, ht]

/-- Whether a scenario can be run depends on the numbers of replicas and twins alone. -/
theorem validate_congr (s : Scenario) : config'.validate s = config.validate s := by
  rw [RunConfig.validate, RunConfig.validate, validateViews_congr hr ht, hr, ht]

end Validation

section Runs

variable (scheme : Scheme) (s : Scenario) (config : RunConfig) (p : Protocol)

def wiring : Wiring := ⟨s, assignNodes config.replicas config.twins, config.injection⟩

def opened : Run p :=
  (Run.initial config (wiring s config) scheme p).remark
    ⟨.debug, s!"executing {s.size} views of {config.protocol}" ++
      s!" with {config.replicas} replicas and {config.twins} twins"⟩

def states : List (Run p) := completeStates config (wiring s config) (opened scheme s config p)

variable {s config}

theorem runProtocol_eq (hv : config.validate s = .ok ()) :
    runProtocol scheme s config p =
      Run.outcome config (wiring s config)
        ((opened scheme s config p).complete config (wiring s config)) := by
  unfold runProtocol
  rw [hv]
  rfl

end Runs

end Equivocation.Proofs.States
