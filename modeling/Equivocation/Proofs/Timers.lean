import Equivocation.Proofs.Attribution
import Equivocation.Proofs.Timeline

namespace Equivocation.Proofs.Timers

open Replica Adoption Turns States Routing
open Attribution (receive_halt receive_impossible)

variable {rules : Rules} {seat : Seat} {r r' r'' : Replica} {t : Turn Replica} {b : Block}

section Turns

def Resets (r r' : Replica) : Prop := r'.viewTicks = r.viewTicks ∨ r'.viewTicks = 0

theorem Resets.trans (h : Resets r r') (h' : Resets r' r'') : Resets r r'' := by
  unfold Resets at *
  omega

theorem resets_advance (seat : Seat) (s : SyncInfo) (t : Turn Replica) :
    Resets t.state (advance seat s t).state := by
  have hspec := advance_spec seat s t
  generalize advance seat s t = t' at hspec
  cases hspec with
  | refused signatures kept timed void => exact .inl rfl
  | torn signatures kept voted void valid => exact .inl rfl
  | taken signatures kept valid =>
    unfold enterCertified
    split
    · exact .inl rfl
    · rename_i v _
      split
      · right
        rcases enterView_state seat v.next _ with he | he
        · rw [he]
          rfl
        · rw [he]
          rfl
      · exact .inl rfl

theorem viewTicks_commit (seat : Seat) (h : Hash) (t : Turn Replica) :
    (commit seat h t).state.viewTicks = t.state.viewTicks := by
  unfold commit
  split
  · rfl
  · dsimp only
    split
    · rfl
    · rw [foldl_commitBlock]
      rfl

theorem viewTicks_castVote (seat : Seat) (b : Block) (t : Turn Replica) :
    (castVote seat b t).state.viewTicks = t.state.viewTicks := by
  unfold castVote
  dsimp only
  split
  · rfl
  · rfl

theorem viewTicks_judge (rules : Rules) (seat : Seat) (b : Block) (t : Turn Replica) :
    (judge rules seat b t).state.viewTicks = t.state.viewTicks := by
  have hvote : ∀ (c : Bool) (t : Turn Replica),
      (if c then castVote seat b t else t).state.viewTicks = t.state.viewTicks := by
    intro c t
    cases c with
    | false => rfl
    | true => exact viewTicks_castVote seat b t
  unfold judge
  dsimp only
  rw [foldl_remark, hvote]
  split
  · rfl
  · rw [viewTicks_commit]
    rfl

theorem resets_onProposal (origin : ReplicaId) (q : QuorumCertificate) :
    Resets t.state (onProposal rules seat origin b q t).state := by
  unfold onProposal
  split
  · exact .inl rfl
  · obtain ⟨signatures, -, hs⟩ := checkQc_state seat q t.state
    generalize checkQc seat q t.state = checked at hs
    obtain ⟨valid, r⟩ := checked
    obtain rfl := hs
    cases valid with
    | false => exact .inl rfl
    | true =>
      simp only [Bool.not_true, Bool.false_eq_true, if_false]
      have ha := resets_advance seat { qc := some q }
        { t with state := { t.state with signatures } }
      generalize advance seat { qc := some q } _ = t' at ha
      split
      · exact ha
      · rw [insertBlock_eq]
        split
        · exact ha.trans (.inl (viewTicks_judge rules seat b _))
        · exact ha

theorem resets_onVote (origin : ReplicaId) (v : Vote) :
    Resets t.state (onVote seat origin v t).state := by
  unfold onVote
  split
  · exact .inl rfl
  · split
    · exact .inl rfl
    · obtain ⟨signatures, -, hs⟩ := checkSignature_state seat v.signature v.block t.state
      generalize checkSignature seat v.signature v.block t.state = checked at hs
      obtain ⟨valid, r⟩ := checked
      obtain rfl := hs
      cases valid with
      | false => exact .inl rfl
      | true =>
        simp only [Bool.not_true, Bool.false_eq_true, if_false]
        split
        · exact .inl rfl
        · exact resets_advance seat _ _

theorem resets_onTimeout (origin : ReplicaId) (m : Timeout) :
    Resets t.state (onTimeout seat origin m t).state := by
  obtain ⟨signatures, -, hs⟩ := checkTimeout_state seat m t.state
  unfold onTimeout
  split
  · exact .inl rfl
  · dsimp only
    generalize (if (checkSignature seat m.signature m.view.hash t.state).1 then
        checkQc seat m.highQc (checkSignature seat m.signature m.view.hash t.state).2
      else (false, (checkSignature seat m.signature m.view.hash t.state).2)) = checked at hs
    obtain ⟨valid, r⟩ := checked
    obtain rfl := hs
    cases valid with
    | false => exact .inl rfl
    | true =>
      simp only [Bool.not_true, Bool.false_eq_true, if_false]
      generalize ht : (if t.state.highQc.view < m.highQc.view then
        advance seat { qc := some m.highQc } { t with state := { t.state with signatures } }
        else { t with state := { t.state with signatures } }) = t₁
      have ha : Resets t.state t₁.state := by
        rw [← ht]
        split
        · exact resets_advance seat _ { t with state := { t.state with signatures } }
        · exact .inl rfl
      split
      · exact ha
      · exact ha.trans (resets_advance seat _ _)

theorem resets_receive (origin : ReplicaId) (m : Message) (r : Replica) :
    Resets r (Replica.receive rules seat origin m r).state := by
  have hs := @announce_state { state := r } origin m
  unfold Replica.receive
  generalize announce origin m { state := r } = t at hs
  obtain rfl : t.state = r := hs
  split
  · exact .inl rfl
  · cases m with
    | propose p =>
      dsimp only
      split
      · exact .inl rfl
      · exact resets_onProposal origin _
    | vote v => exact resets_onVote origin v
    | timeout m => exact resets_onTimeout origin m
    | newView n => exact resets_advance seat n.sync t

theorem react_viewTicks (rules : Rules) (seat : Seat) (input : Input)
    (h : r.viewTicks < max 1 seat.viewTimeout) :
    (input.react rules seat r).state.viewTicks < max 1 seat.viewTimeout := by
  have hreset : ∀ r', Resets r r' → r'.viewTicks < max 1 seat.viewTimeout := by
    intro r' hr
    unfold Resets at hr
    omega
  cases input with
  | start => exact hreset _ (resets_advance seat { qc := some .genesis } { state := r })
  | message origin m => exact hreset _ (resets_receive origin m r)
  | tick =>
    change (Replica.tick seat r).state.viewTicks < _
    unfold Replica.tick
    split
    · exact Nat.lt_of_lt_of_le Nat.one_pos (Nat.le_max_left 1 _)
    · rename_i hlate
      exact Nat.lt_of_lt_of_le (Nat.lt_of_not_le hlate) (Nat.le_max_right 1 _)

theorem halt_advance (seat : Seat) (s : SyncInfo) (t : Turn Replica) :
    (advance seat s t).halt = t.halt :=
  halt_eq (@advance_moves .chained seat t.state .start t [s] s List.mem_cons_self id)

theorem react_halt (rules : Rules) (seat : Seat) (input : Input) (r : Replica) {h : Halt}
    (hh : (input.react rules seat r).halt = some h) : ∃ f, h = .fault f := by
  cases input with
  | start =>
    change (Replica.start seat r).halt = some h at hh
    unfold Replica.start at hh
    rw [halt_advance] at hh
    cases hh
  | message origin m =>
    cases hi : m.impossibility? origin with
    | none => cases (receive_halt seat r hi).symm.trans hh
    | some i =>
      have hf := (receive_impossible rules seat r hi).1
      exact ⟨i.fault, Option.some.inj (hh.symm.trans hf)⟩
  | tick =>
    have hn : (Replica.tick seat r).halt = none := by
      unfold Replica.tick
      split
      · rfl
      · rfl
    cases hn.symm.trans hh

end Turns

section Steps

variable {p : Protocol} {run : Run p}

/-- A step goes on to a state with a property, or it stops with an error in a state with another. -/
def Yields (E : RunError → Prop) (Q P : Run p → Prop) : Run.Step p → Prop
  | .ok run => P run
  | .error (e, run) => E e ∧ Q run

/-- What each step keeps holds in all states on the way. -/
theorem sequence_yields {α : Type} {step : α → Run p → Run.Step p} {E : RunError → Prop}
    {P : Run p → Prop} (hstep : ∀ x run, P run → Yields E P P (step x run)) (xs : List α)
    (h : P run) :
    Yields E P P (Run.sequence step xs run) ∧ ∀ r ∈ sequenceStates step xs run, P r := by
  induction xs generalizing run with
  | nil => exact ⟨h, List.forall_mem_singleton.mpr h⟩
  | cons x xs ih =>
    have hx := hstep x run h
    rw [Run.sequence, sequenceStates]
    cases he : step x run with
    | error stop =>
      rw [he] at hx
      exact ⟨hx, List.forall_mem_cons.mpr ⟨h, List.forall_mem_singleton.mpr hx.2⟩⟩
    | ok next =>
      rw [he] at hx
      obtain ⟨hend, hall⟩ := ih hx
      exact ⟨hend, List.forall_mem_cons.mpr ⟨h, hall⟩⟩

end Steps

section Runs

structure Timed (config : RunConfig) (i : Instance rules.protocol) : Prop where
  replicas : i.seat.replicas ≠ []
  timeout : i.seat.viewTimeout = config.viewTimeout
  timer : i.state.viewTicks < max 1 config.viewTimeout

structure Punctual (config : RunConfig) (wiring : Wiring) (k : Nat) (run : Run rules.protocol) :
    Prop where
  ticks : run.ticks = k
  attended : 0 < run.instances.length
  timed : ∀ i ∈ run.instances, Timed config i
  orderly : ∃ resolved, Orderly wiring resolved run.network

def IsFault (e : RunError) : Prop := ∃ n f, e = .fault n f

def Foreseen (ticks : Nat) (e : RunError) : Prop :=
  IsFault e ∨ ∃ k ≤ ticks, e = .deadlineExceeded k

def Within (config : RunConfig) (wiring : Wiring) (ticks : Nat) (run : Run rules.protocol) : Prop :=
  ∃ k ≤ ticks, Punctual config wiring k run

variable {config : RunConfig} {wiring : Wiring} {run : Run rules.protocol} {k : Nat}

theorem Punctual.moved (h : Punctual config wiring k run) {i : Instance rules.protocol}
    (hi : i ∈ run.instances) (input : Input) (n : NodeId) :
    Punctual config wiring k (Timeline.moved run n i (input.react rules i.seat i.state)) where
  ticks := h.ticks
  attended := Nat.lt_of_lt_of_eq h.attended (List.length_map _).symm
  timed j hj := by
    obtain ⟨j, hm, rfl⟩ := List.mem_map.mp hj
    split
    · have hold := h.timed i hi
      have hnew := react_viewTicks rules i.seat input (hold.timeout ▸ hold.timer)
      exact { h.timed j hm with timer := hold.timeout ▸ hnew }
    · exact h.timed j hm
  orderly := by
    obtain ⟨resolved, ho⟩ := h.orderly
    exact ⟨resolved, ho.posted _ _ _⟩

theorem Punctual.batch (records : List LogRecord) (h : Punctual config wiring k run) :
    Punctual config wiring k
      { run with network := (Network.nextBatch wiring run.network).2, records } where
  ticks := h.ticks
  attended := h.attended
  timed := h.timed
  orderly := by
    obtain ⟨resolved, ho⟩ := h.orderly
    exact ⟨run.network.sent, ho.batched⟩

theorem Punctual.read (h : Punctual config wiring k run) :
    Punctual config wiring (k + 1) { run.readEvents config with ticks := run.ticks + 1 } where
  ticks := congrArg (· + 1) h.ticks
  attended := Nat.lt_of_lt_of_eq h.attended (List.length_map _).symm
  timed i hi := by
    obtain ⟨j, hj, rfl⟩ := List.mem_map.mp hi
    exact { h.timed j hj with }
  orderly := h.orderly

theorem act_yields (input : Input) {turn : Seat → Replica → Turn Replica}
    (hturn : (fun seat => input.react rules seat) = turn) (n : NodeId) (run : Run rules.protocol)
    (h : Punctual config wiring k run) :
    Yields IsFault (Punctual config wiring k) (Punctual config wiring k) (run.act n turn) := by
  subst hturn
  unfold Run.act
  cases hf : run.instances.find? (·.seat.node = n) with
  | none => exact h
  | some i =>
    have hm := h.moved (List.mem_of_find?_eq_some hf) input n
    dsimp only
    split
    · exact hm
    · rename_i halt hh
      obtain ⟨f, rfl⟩ := react_halt rules i.seat input i.state hh
      exact ⟨⟨n, f, rfl⟩, hm⟩

theorem deliver_yields (d : Delivery) (run : Run rules.protocol)
    (h : Punctual config wiring k run) :
    Yields IsFault (Punctual config wiring k) (Punctual config wiring k) (Run.deliver d run) :=
  act_yields (.message d.origin d.message) rfl d.receiver _
    ⟨h.ticks, h.attended, h.timed, h.orderly⟩

theorem tick_yields (h : Punctual config wiring k run) :
    Yields IsFault (Punctual config wiring k) (Punctual config wiring (k + 1))
      (Run.tick config wiring run) ∧
    ∀ r ∈ tickStates wiring run, Punctual config wiring k r := by
  unfold Run.tick tickStates
  dsimp only
  have hbatch := h.batch (run.records ++ (Network.nextBatch wiring run.network).1.remarks)
  obtain ⟨hend, hall⟩ := sequence_yields (fun d run => deliver_yields d run)
    (Network.nextBatch wiring run.network).1.deliveries hbatch
  cases he : Run.sequence Run.deliver (Network.nextBatch wiring run.network).1.deliveries
      { run with
        network := (Network.nextBatch wiring run.network).2
        records := run.records ++ (Network.nextBatch wiring run.network).1.remarks } with
  | error stop =>
    rw [he] at hend
    exact ⟨hend, by rwa [List.append_nil]⟩
  | ok delivered =>
    rw [he] at hend
    obtain ⟨hend', hall'⟩ := sequence_yields
      (act_yields .tick (rfl : _ = rules.protocol.tick)) delivered.nodes hend
    dsimp only
    refine ⟨?_, List.forall_mem_append.mpr ⟨hall, hall'⟩⟩
    cases he' : Run.sequence (fun n => Run.act n rules.protocol.tick) delivered.nodes delivered with
    | error stop =>
      rw [he'] at hend'
      exact hend'
    | ok ticked =>
      rw [he'] at hend'
      exact hend'.read

theorem Punctual.within (h : Punctual config wiring k run) (n : Nat) :
    Within config wiring (k + n) run :=
  ⟨k, Nat.le_add_right k n, h⟩

/-- A run performs at most as many ticks as there are left. -/
theorem loop_yields (budget : Nat) (h : Punctual config wiring k run) :
    Yields (Foreseen (k + budget)) (Within config wiring (k + budget))
      (Within config wiring (k + budget)) (Run.loop config wiring budget run) ∧
    ∀ r ∈ loopStates config wiring budget run, Within config wiring (k + budget) r := by
  induction budget generalizing k run with
  | zero => exact ⟨h.within 0, List.forall_mem_singleton.mpr (h.within 0)⟩
  | succ budget ih =>
    have hnow := h.within (budget + 1)
    rw [Run.loop, loopStates]
    by_cases hd : config.deadlinePassed = true
    · rw [if_pos hd, if_pos (by simp [hd])]
      exact ⟨⟨.inr ⟨k, Nat.le_add_right k _, congrArg _ h.ticks⟩, hnow⟩,
        List.forall_mem_singleton.mpr hnow⟩
    · rw [if_neg hd]
      by_cases hf : run.finished wiring = true
      · rw [if_pos hf, if_pos (by simp [hf])]
        exact ⟨hnow, List.forall_mem_singleton.mpr hnow⟩
      · rw [if_neg hf, if_neg (by simp [hd, hf])]
        obtain ⟨hend, hall⟩ := @tick_yields rules config wiring run k h
        have hall := fun r hr => (hall r hr).within (budget + 1)
        cases he : Run.tick config wiring run with
        | error stop =>
          rw [he] at hend
          exact ⟨⟨.inl hend.1, hend.2.within (budget + 1)⟩,
            List.forall_mem_cons.mpr ⟨hnow, by rwa [List.append_nil]⟩⟩
        | ok next =>
          rw [he] at hend
          have hrest := ih hend
          rw [Nat.add_right_comm, Nat.add_assoc] at hrest
          exact ⟨hrest.1,
            List.forall_mem_cons.mpr ⟨hnow, List.forall_mem_append.mpr ⟨hall, hrest.2⟩⟩⟩

/-- From before the start to the end, only faults and the deadline stop a run. -/
theorem complete_yields (h : Punctual config wiring 0 run) :
    Yields (Foreseen config.ticks) (Within config wiring config.ticks)
      (Within config wiring config.ticks) (run.complete config wiring) ∧
    ∀ r ∈ completeStates config wiring run, Within config wiring config.ticks r := by
  have hstart : (fun seat => Input.start.react rules seat) = rules.protocol.start := by
    dsimp only [Rules.protocol, Input.react]
  obtain ⟨hend, hall⟩ := sequence_yields (act_yields .start hstart) run.nodes h
  have hall := fun r hr => (hall r hr).within config.ticks
  rw [Nat.zero_add] at hall
  unfold Run.complete completeStates
  cases he : Run.sequence (fun n => Run.act n rules.protocol.start) run.nodes run with
  | error stop =>
    rw [he] at hend
    have hlast := hend.2.within config.ticks
    rw [Nat.zero_add] at hlast
    exact ⟨⟨.inl hend.1, hlast⟩, by rw [List.append_nil]; exact hall⟩
  | ok started =>
    rw [he] at hend
    have hrest := loop_yields config.ticks hend
    rw [Nat.zero_add] at hrest
    exact ⟨hrest.1, List.forall_mem_append.mpr ⟨hall, hrest.2⟩⟩

end Runs

end Equivocation.Proofs.Timers
