import Equivocation.Proofs.Routing
import Equivocation.Proofs.Deployment

namespace Equivocation.Proofs.Steps

open History Turns Lives Worlds States Simulation Deployment Routing

section Sequences

variable {p : Protocol} {α : Type} {step : α → Run p → Run.Step p} {P Q : Run p → Prop}
  {xs : List α} {x : α} {run : Run p} {e : RunError}

theorem sequence_ok (hs : ∀ x ∈ xs, ∀ run, P run → ∃ run', step x run = .ok run' ∧ P run')
    (h : P run) :
    ∃ run', Run.sequence step xs run = .ok run' ∧ P run' ∧
      ∀ r ∈ sequenceStates step xs run, P r := by
  induction xs generalizing run with
  | nil => exact ⟨run, rfl, h, List.forall_mem_singleton.mpr h⟩
  | cons x xs ih =>
    obtain ⟨run₁, h₁, hp₁⟩ := hs x List.mem_cons_self run h
    obtain ⟨run₂, h₂, hp₂, hall⟩ := ih (fun y hy => hs y (List.mem_cons_of_mem _ hy)) hp₁
    refine ⟨run₂, by rw [Run.sequence, h₁]; exact h₂, hp₂, ?_⟩
    rw [sequenceStates, h₁]
    exact List.forall_mem_cons.mpr ⟨h, hall⟩

theorem sequence_stop (ys : List α)
    (hs : ∀ x ∈ xs, ∀ run, P run → ∃ run', step x run = .ok run' ∧ P run')
    (hx : ∀ run, P run → ∃ stopped, step x run = .error (e, stopped) ∧ Q stopped) (h : P run) :
    ∃ stopped, Run.sequence step (xs ++ x :: ys) run = .error (e, stopped) ∧ Q stopped := by
  induction xs generalizing run with
  | nil =>
    obtain ⟨stopped, he, hq⟩ := hx run h
    exact ⟨stopped, by rw [List.nil_append, Run.sequence, he], hq⟩
  | cons y xs ih =>
    obtain ⟨run₁, h₁, hp₁⟩ := hs y List.mem_cons_self run h
    obtain ⟨stopped, he, hq⟩ := ih (fun z hz => hs z (List.mem_cons_of_mem _ hz)) hp₁
    exact ⟨stopped, by rw [List.cons_append, Run.sequence, h₁]; exact he, hq⟩

end Sequences

variable {C : Cluster} {rules : Rules} {wiring : Wiring} {config : RunConfig}
  {run run' : Run rules.protocol} {i : Instance rules.protocol} {input : Input} {n : NodeId}
  {S : List Envelope} {P : Run rules.protocol → Prop}

/-- The instances are those of the cluster, and only they send messages, as correct replicas. -/
structure CorrectSenders (C : Cluster) (run : Run rules.protocol) : Prop where
  seats : run.instances.map (·.seat) = C.seats
  senders : ∀ e ∈ run.network.sent, ∃ t ∈ C.seats, t.node = e.sender ∧ t.replica = e.origin
  possible : ∀ e ∈ run.network.sent, e.message.impossibility? e.origin = none
  pending : ∀ e ∈ run.network.pending, e ∈ run.network.sent

inductive Due (wiring : Wiring) (run : Run rules.protocol) (i : Instance rules.protocol) :
    Input → Prop
  | start : Due wiring run i .start
  | message {e : Envelope} (sent : e ∈ run.network.sent)
      (reached : i.seat.node ∈ receivers wiring e)
      (possible : (carried wiring e).impossibility? e.origin = none) :
    Due wiring run i (.message e.origin (carried wiring e))
  | tick (started : i.state.view ≠ .zero) : Due wiring run i .tick

def Harmless (wiring : Wiring) (net : Network) : Prop :=
  ∀ e ∈ net.pending, ∀ n ∈ receivers wiring e, (carried wiring e).impossibility? e.origin = none

theorem CorrectSenders.mem_seats (hs : CorrectSenders C run) (hi : i ∈ run.instances) :
    i.seat ∈ C.seats := by
  rw [← hs.seats]
  exact List.mem_map.mpr ⟨i, hi, rfl⟩

theorem CorrectSenders.of_eq (hs : CorrectSenders C run) (hi : run'.instances = run.instances)
    (hn : run'.network = run.network) : CorrectSenders C run' where
  seats := by rw [hi]; exact hs.seats
  senders := by rw [hn]; exact hs.senders
  possible := by rw [hn]; exact hs.possible
  pending := by rw [hn]; exact hs.pending

theorem CorrectSenders.batch (hs : CorrectSenders C run) (wiring : Wiring) :
    CorrectSenders C { run with network := (Network.nextBatch wiring run.network).2 } :=
  { hs with pending := fun _ he => absurd he List.not_mem_nil }

theorem CorrectSenders.read (hs : CorrectSenders C run) (config : RunConfig) :
    CorrectSenders C (run.readEvents config) :=
  { hs with
    seats := by
      rw [← hs.seats]
      exact List.map_map }

theorem CorrectSenders.harmless (hs : CorrectSenders C run) (hi : wiring.injection = none) :
    Harmless wiring run.network := by
  intro e he n _
  rw [carried_eq hi]
  exact hs.possible e (hs.pending e he)

theorem due_moves (hd : Due wiring run i input) :
    ∃ H', Moves rules i.seat i.state input ⟨{ state := i.state }, input.hand⟩
      ⟨input.react rules i.seat i.state, H'⟩ := by
  refine react_moves i.state (fun origin m hi => ?_) fun hi => ?_
  · cases hd with
    | message sent reached possible =>
      cases hi
      exact possible
    | _ => cases hi
  · cases hd with
    | tick started => exact started
    | _ => cases hi

theorem mem_sent_took {seat : Seat} {t : Turn Replica} {e : Envelope}
    (he : e ∈ (took run seat t).network.sent) :
    e ∈ run.network.sent ∨
      e.sender = seat.node ∧ e.origin = seat.replica ∧
        .send e.recipients e.message ∈ t.effects := by
  unfold took at he
  rw [foldl_post] at he
  refine (List.mem_append.mp he).imp_right fun he => ?_
  obtain ⟨hs, ho, hm⟩ := mem_letters he
  exact ⟨hs, ho, mem_turn_sent.mp hm⟩

theorem subset_sent_took (seat : Seat) (t : Turn Replica) :
    run.network.sent ⊆ (took run seat t).network.sent :=
  subset_sent_foldl seat.node seat.replica t.sent run.network

theorem seats_took (run : Run rules.protocol) (seat : Seat) (t : Turn Replica) :
    (took run seat t).instances.map (·.seat) = run.instances.map (·.seat) := by
  unfold took
  rw [List.map_map]
  refine List.map_congr_left fun j _ => ?_
  dsimp only [Function.comp_apply]
  split <;> rfl

theorem CorrectSenders.took (hs : CorrectSenders C run) (hi : i ∈ run.instances)
    (hd : Due wiring run i input) :
    CorrectSenders C (took run i.seat (input.react rules i.seat i.state)) := by
  obtain ⟨H', hm⟩ := due_moves hd
  have hseat := hs.mem_seats hi
  refine ⟨(seats_took _ _ _).trans hs.seats, fun e he => ?_, fun e he => ?_,
    pending_foldl _ _ _ _ hs.pending⟩
  · obtain he | ⟨hn, ho, -⟩ := mem_sent_took he
    · exact hs.senders e he
    · exact ⟨i.seat, hseat, hn.symm, ho.symm⟩
  · obtain he | ⟨-, ho, he⟩ := mem_sent_took he
    · exact hs.possible e he
    · rw [ho]
      exact moves_possible (C.signs _ hseat) hm _ _ he

theorem due_started (hd : Due wiring run i input) (hv : i.state.view ≠ .zero) :
    (input.react rules i.seat i.state).state.view ≠ .zero := by
  obtain ⟨H', hm⟩ := due_moves hd
  exact moves_started hm hv

theorem started_took (hd : Due wiring run i input) (hv : i.state.view ≠ .zero)
    (hs : ∀ j ∈ run.instances, j.state.view ≠ .zero) :
    ∀ j ∈ (took run i.seat (input.react rules i.seat i.state)).instances, j.state.view ≠ .zero := by
  intro j hj
  obtain ⟨k, hk, -, ⟨-, he, -⟩ | ⟨-, rfl⟩⟩ := mem_took hj
  · rw [he]
    exact due_started hd hv
  · exact hs j hk

structure Stable (C : Cluster) (wiring : Wiring) (P : Run rules.protocol → Prop) : Prop where
  turn : ∀ run i input, CorrectSenders C run → P run → i ∈ run.instances → Due wiring run i input →
    P (took run i.seat (input.react rules i.seat i.state))
  frame : ∀ run run' : Run rules.protocol, run'.instances = run.instances →
    run'.network = run.network → P run → P run'

/-- What holds at any time of a run without faults if it does so at its beginning. -/
structure RunInvariant (C : Cluster) (wiring : Wiring) (P : Run rules.protocol → Prop) : Prop
    extends Stable C wiring P where
  batch : ∀ run, CorrectSenders C run → P run → Harmless wiring run.network →
    P { run with network := (Network.nextBatch wiring run.network).2 }
  read : ∀ config run, P run → P (run.readEvents config)

structure StartedRun (C : Cluster) (S : List Envelope) (P : Run rules.protocol → Prop)
    (run : Run rules.protocol) : Prop where
  standing : CorrectSenders C run
  started : ∀ i ∈ run.instances, i.state.view ≠ .zero
  since : S ⊆ run.network.sent
  kept : P run

theorem StartedRun.of_eq (hk : Stable C wiring P) (h : StartedRun C S P run)
    (hi : run'.instances = run.instances) (hn : run'.network = run.network) :
    StartedRun C S P run' where
  standing := h.standing.of_eq hi hn
  started := by rw [hi]; exact h.started
  since := by rw [hn]; exact h.since
  kept := hk.frame run run' hi hn h.kept

/-- A turn that is due is either taken by an instance or, without one, by nobody. -/
theorem act_due {turn : Seat → Replica → Turn Replica}
    (ht : ∀ seat r, turn seat r = input.react rules seat r)
    (hd : ∀ i ∈ run.instances, i.seat.node = n → Due wiring run i input) :
    (∀ i ∈ run.instances, i.seat.node ≠ n) ∧ run.act n turn = .ok run ∨
      ∃ i ∈ run.instances, i.seat.node = n ∧ Due wiring run i input ∧
        run.act n turn = .ok (took run i.seat (input.react rules i.seat i.state)) := by
  cases hf : run.instances.find? (·.seat.node = n) with
  | none =>
    refine .inl ⟨fun i hi hn => List.find?_eq_none.mp hf i hi (decide_eq_true hn), ?_⟩
    unfold Run.act
    rw [hf]
  | some i =>
    have hi := List.mem_of_find?_eq_some hf
    have hn := List.find?_some hf
    have hn : i.seat.node = n := of_decide_eq_true hn
    have hd := hd i hi hn
    obtain ⟨H', hm⟩ := due_moves hd
    have he := ht i.seat i.state
    refine .inr ⟨i, hi, hn, hd, ?_⟩
    rw [← he]
    exact act_eq hf ((congrArg Turn.halt he).trans (halt_eq hm))

theorem act_startedRun (hk : Stable C wiring P) {turn : Seat → Replica → Turn Replica}
    (ht : ∀ seat r, turn seat r = input.react rules seat r)
    (hd : ∀ i ∈ run.instances, i.seat.node = n → Due wiring run i input)
    (h : StartedRun C S P run) : ∃ run', run.act n turn = .ok run' ∧ StartedRun C S P run' := by
  obtain ⟨-, he⟩ | ⟨i, hi, -, hd, he⟩ := act_due ht hd
  · exact ⟨run, he, h⟩
  · exact ⟨_, he, h.standing.took hi hd, started_took hd (h.started i hi) h.started,
      List.Subset.trans h.since (subset_sent_took _ _), hk.turn run i input h.standing h.kept hi hd⟩

theorem deliver_startedRun (hk : Stable C wiring P) {e : Envelope} (he : e ∈ S)
    (hn : n ∈ receivers wiring e) (hp : (carried wiring e).impossibility? e.origin = none)
    (h : StartedRun C S P run) :
    ∃ run', Run.deliver ⟨e.ordinal, n, e.origin, carried wiring e⟩ run = .ok run' ∧
      StartedRun C S P run' := by
  have hr : ∀ seat r, rules.protocol.receive seat e.origin (carried wiring e) r =
      (Input.message e.origin (carried wiring e)).react rules seat r := fun _ _ => rfl
  refine act_startedRun hk hr (fun i hi hin => ?_) (h.of_eq hk rfl rfl)
  subst hin
  exact .message (h.since he) hn hp

theorem timer_startedRun (hk : Stable C wiring P) (h : StartedRun C S P run) :
    ∃ run', run.act n rules.protocol.tick = .ok run' ∧ StartedRun C S P run' :=
  have ht : ∀ seat r, rules.protocol.tick seat r = Input.tick.react rules seat r := fun _ _ => rfl
  act_startedRun hk ht (fun i hi _ => .tick (h.started i hi)) h

theorem deliveries_startedRun (hk : Stable C wiring P) {es : List Envelope} (hs : es ⊆ S)
    (hr : ∀ e ∈ es, ∀ n ∈ receivers wiring e, (carried wiring e).impossibility? e.origin = none)
    (h : StartedRun C S P run) :
    ∃ run', Run.sequence Run.deliver (es.flatMap (deliveries wiring)) run = .ok run' ∧
      StartedRun C S P run' ∧
        ∀ r ∈ sequenceStates Run.deliver (es.flatMap (deliveries wiring)) run,
          StartedRun C S P r := by
  refine sequence_ok (fun d hd run h => ?_) h
  obtain ⟨e, he, hd⟩ := List.mem_flatMap.mp hd
  obtain ⟨n, hn, rfl⟩ := mem_deliveries.mp hd
  exact deliver_startedRun hk (hs he) hn (hr e he n hn) h

theorem timers_startedRun (hk : Stable C wiring P) (ns : List NodeId) (h : StartedRun C S P run) :
    ∃ run', Run.sequence (fun n => Run.act n rules.protocol.tick) ns run = .ok run' ∧
      StartedRun C S P run' ∧
        ∀ r ∈ sequenceStates (fun n => Run.act n rules.protocol.tick) ns run, StartedRun C S P r :=
  sequence_ok (fun _ _ _ h => timer_startedRun hk h) h

theorem StartedRun.batch (hk : RunInvariant C wiring P) (h : StartedRun C S P run)
    (hr : Harmless wiring run.network) (records : List LogRecord) :
    StartedRun C run.network.sent P
      { run with network := (Network.nextBatch wiring run.network).2, records } where
  standing := { h.standing.batch wiring with }
  started := h.started
  since := List.Subset.refl _
  kept := hk.frame { run with network := (Network.nextBatch wiring run.network).2 } _ rfl rfl
    (hk.batch run h.standing h.kept hr)

theorem StartedRun.read (hk : RunInvariant C wiring P) (h : StartedRun C S P run)
    (config : RunConfig) :
    StartedRun C S P (run.readEvents config) where
  standing := h.standing.read config
  started i hi := by
    obtain ⟨j, hj, rfl⟩ := List.mem_map.mp hi
    exact h.started j hj
  since := h.since
  kept := hk.read config run h.kept

theorem StartedRun.anti {S' : List Envelope} (h : StartedRun C S P run) (hs : S' ⊆ S) :
    StartedRun C S' P run :=
  { h with since := List.Subset.trans hs h.since }

theorem tick_startedRun (hk : RunInvariant C wiring P) (hr : Harmless wiring run.network)
    (h : StartedRun C [] P run) :
    ∃ run', Run.tick config wiring run = .ok run' ∧ StartedRun C [] P run' ∧
      ∀ r ∈ tickStates wiring run, StartedRun C [] P r := by
  have hb := h.batch hk hr (run.records ++ (Network.nextBatch wiring run.network).1.remarks)
  obtain ⟨run₁, h₁, hu₁, hs₁⟩ := deliveries_startedRun hk.toStable h.standing.pending hr hb
  obtain ⟨run₂, h₂, hu₂, hs₂⟩ := timers_startedRun hk.toStable run₁.nodes hu₁
  rw [← deliveries_nextBatch] at h₁ hs₁
  have hu₃ := (hu₂.read hk config).anti (List.nil_subset _)
  refine ⟨{ run₂.readEvents config with ticks := (run₂.readEvents config).ticks + 1 }, ?_,
    hu₃.of_eq hk.toStable rfl rfl, fun r hr => ?_⟩
  · unfold Run.tick
    dsimp only
    rw [h₁]
    dsimp only
    rw [h₂]
  · unfold tickStates at hr
    dsimp only at hr
    rw [h₁] at hr
    exact (List.mem_append.mp hr).elim (fun hr => (hs₁ r hr).anti (List.nil_subset _))
      fun hr => (hs₂ r hr).anti (List.nil_subset _)

def Ticking (C : Cluster) (config : RunConfig) (wiring : Wiring) (P : Run rules.protocol → Prop)
    (F : RunError × Run rules.protocol → Prop) : Prop :=
  ∀ run, StartedRun C [] P run →
    (∃ run', Run.tick config wiring run = .ok run' ∧ StartedRun C [] P run' ∧
      ∀ r ∈ tickStates wiring run, StartedRun C [] P r) ∨
    ∃ stop, Run.tick config wiring run = .error stop ∧ F stop

theorem loop_startedRun {F : RunError × Run rules.protocol → Prop}
    (ht : Ticking C config wiring P F) (budget : Nat) (h : StartedRun C [] P run) :
    (∀ r ∈ loopStates config wiring budget run, StartedRun C [] P r) ∧
        ((∃ last, Run.loop config wiring budget run = .ok last ∧ StartedRun C [] P last) ∨
          config.deadlinePassed = true) ∨
      ∃ stop, Run.loop config wiring budget run = .error stop ∧ F stop := by
  induction budget generalizing run with
  | zero => exact .inl ⟨List.forall_mem_singleton.mpr h, .inl ⟨run, rfl, h⟩⟩
  | succ budget ih =>
    rw [Run.loop, loopStates]
    by_cases hd : config.deadlinePassed = true
    · rw [if_pos hd, if_pos (by simp [hd])]
      exact .inl ⟨List.forall_mem_singleton.mpr h, .inr hd⟩
    · rw [if_neg hd]
      by_cases hf : run.finished wiring = true
      · rw [if_pos hf, if_pos (by simp [hf])]
        exact .inl ⟨List.forall_mem_singleton.mpr h, .inl ⟨run, rfl, h⟩⟩
      · rw [if_neg hf, if_neg (by simp [hd, hf])]
        obtain ⟨run₁, he, h₁, hs₁⟩ | ⟨stop, he, hF⟩ := ht run h
        · rw [he]
          obtain ⟨hs₂, hend⟩ | hstop := ih h₁
          · exact .inl ⟨List.forall_mem_cons.mpr ⟨h, fun r hr =>
              (List.mem_append.mp hr).elim (hs₁ r) (hs₂ r)⟩, hend⟩
          · exact .inr hstop
        · rw [he]
          exact .inr ⟨stop, rfl, hF⟩

def Starting (ns : List NodeId) (run : Run rules.protocol) : Prop :=
  ∀ i ∈ run.instances, i.seat.node ∈ ns ∧ i.state = {} ∨ i.state.view ≠ .zero

theorem start_startedRun (hk : Stable C wiring P) {ns : List NodeId} (hs : CorrectSenders C run)
    (hp : P run) (hst : Starting (n :: ns) run) :
    ∃ run', run.act n rules.protocol.start = .ok run' ∧ CorrectSenders C run' ∧ P run' ∧
      Starting ns run' := by
  have hstart : ∀ seat r, rules.protocol.start seat r = Input.start.react rules seat r := by
    simp only [Rules.protocol, Input.react, implies_true]
  obtain ⟨hno, he⟩ | ⟨i, hi, rfl, hd, he⟩ :=
    @act_due rules wiring run .start n rules.protocol.start hstart fun _ _ _ => .start
  · refine ⟨run, he, hs, hp, fun j hj => (hst j hj).imp_left fun h => ⟨?_, h.2⟩⟩
    exact (List.mem_cons.mp h.1).resolve_left (hno j hj)
  · refine ⟨_, he, hs.took hi hd, hk.turn run i .start hs hp hi hd, fun j hj => ?_⟩
    obtain ⟨k, hk, hseat, ⟨-, he, -⟩ | ⟨hn, rfl⟩⟩ := mem_took hj
    · refine .inr ?_
      rw [he]
      obtain ⟨-, hz⟩ | hv := hst i hi
      · rw [hz, Input.react]
        exact start_view i.seat
      · exact due_started hd hv
    · exact (hst j hk).imp_left fun h => ⟨(List.mem_cons.mp h.1).resolve_left hn, h.2⟩

theorem starts_startedRun (hk : Stable C wiring P) {ns : List NodeId} (hs : CorrectSenders C run)
    (hp : P run) (hst : Starting ns run) :
    ∃ run', Run.sequence (fun n => Run.act n rules.protocol.start) ns run = .ok run' ∧
      StartedRun C [] P run' ∧
        ∀ r ∈ sequenceStates (fun n => Run.act n rules.protocol.start) ns run,
          CorrectSenders C r ∧ P r := by
  induction ns generalizing run with
  | nil =>
    refine ⟨run, rfl, ⟨hs, fun i hi => ?_, List.nil_subset _, hp⟩,
      List.forall_mem_singleton.mpr ⟨hs, hp⟩⟩
    exact (hst i hi).resolve_left fun h => List.not_mem_nil h.1
  | cons n ns ih =>
    obtain ⟨run₁, h₁, hs₁, hp₁, hst₁⟩ := start_startedRun hk hs hp hst
    obtain ⟨run₂, h₂, hu₂, hall⟩ := ih hs₁ hp₁ hst₁
    refine ⟨run₂, by rw [Run.sequence, h₁]; exact h₂, hu₂, ?_⟩
    rw [sequenceStates, h₁]
    exact List.forall_mem_cons.mpr ⟨⟨hs, hp⟩, hall⟩

theorem starting_nodes (h : ∀ i ∈ run.instances, i.state = {}) : Starting run.nodes run :=
  fun i hi => .inl ⟨List.mem_map.mpr ⟨i, hi, rfl⟩, h i hi⟩

theorem complete_startedRun {F : RunError × Run rules.protocol → Prop} (hk : Stable C wiring P)
    (ht : Ticking C config wiring P F) (hs : CorrectSenders C run) (hp : P run)
    (hz : ∀ i ∈ run.instances, i.state = {}) :
    (∀ r ∈ completeStates config wiring run, CorrectSenders C r ∧ P r) ∧
        ((∃ last, run.complete config wiring = .ok last ∧ StartedRun C [] P last) ∨
          config.deadlinePassed = true) ∨
      ∃ stop, run.complete config wiring = .error stop ∧ F stop := by
  obtain ⟨run₁, h₁, hu₁, hs₁⟩ := starts_startedRun hk hs hp (starting_nodes hz)
  unfold completeStates Run.complete
  rw [h₁]
  obtain ⟨hs₂, hend⟩ | hstop := loop_startedRun ht config.ticks hu₁
  · exact .inl ⟨fun r hr => (List.mem_append.mp hr).elim (hs₁ r)
      fun hr => ⟨(hs₂ r hr).standing, (hs₂ r hr).kept⟩, hend⟩
  · exact .inr hstop

section Runs

variable {scheme : Scheme} {s : Scenario} (hv : config.validate s = .ok ())

theorem opened_correctSenders (rules : Rules) :
    CorrectSenders (cluster scheme s config hv) (opened scheme s config rules.protocol) where
  seats := List.map_map
  senders _ he := absurd he List.not_mem_nil
  possible _ he := absurd he List.not_mem_nil
  pending _ he := absurd he List.not_mem_nil

theorem opened_created (rules : Rules) :
    ∀ i ∈ (opened scheme s config rules.protocol).instances, i.state = {} := by
  intro i hi
  obtain ⟨x, -, rfl⟩ := List.mem_map.mp hi
  rfl

/-- Without an injection, what is kept holds in all states of a run. -/
theorem states_startedRun {P : Run rules.protocol → Prop} (hi : config.injection = none)
    (hk : RunInvariant (cluster scheme s config hv) (States.wiring s config) P)
    (hp : P (opened scheme s config rules.protocol)) :
    ∀ run ∈ states scheme s config rules.protocol,
      CorrectSenders (cluster scheme s config hv) run ∧ P run := by
  have ht : Ticking (cluster scheme s config hv) config (States.wiring s config) P fun _ => False :=
    fun run h => .inl (tick_startedRun hk (h.standing.harmless hi) h)
  obtain ⟨h, -⟩ | ⟨stop, -, h⟩ :=
    complete_startedRun hk.toStable ht (opened_correctSenders hv rules) hp
    (opened_created rules)
  · exact h
  · exact h.elim

end Runs

end Equivocation.Proofs.Steps
