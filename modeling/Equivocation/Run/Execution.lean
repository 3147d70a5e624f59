import Equivocation.Collector
import Equivocation.Oracle
import Equivocation.Registry
import Equivocation.Run.Config

namespace Equivocation

structure Instance (p : Protocol) where
  seat : Seat
  state : p.State
  commits : List Hash := []
  unread : List Event := []

def Instance.read {p : Protocol} (i : Instance p) : Instance p :=
  { i with
    commits := i.commits ++ i.unread.filterMap fun
      | .commitBlock h _ => some h
      | _ => none
    unread := [] }

structure Run (p : Protocol) where
  instances : List (Instance p)
  network : Network := {}
  ticks : Nat := 0
  received : List (NodeId × ReplicaId × Message) := []
  records : List LogRecord := []

structure RunResult where
  sent : List Envelope
  log : List Network.Entry
  commitLog : CommitLog
  injected : Bool
  ticks : Nat
  verdict : Verdict

structure RunOutcome where
  result : Except RunError RunResult
  received : List (NodeId × ReplicaId × Message) := []
  records : List LogRecord := []

namespace Run

variable {p : Protocol} (config : RunConfig) (wiring : Wiring)

/-- A step that may end a run early; an error keeps the run as it stood. -/
abbrev Step (p : Protocol) := Except (RunError × Run p) (Run p)

def remark (r : LogRecord) (run : Run p) : Run p := { run with records := run.records ++ [r] }

def act (n : NodeId) (turn : Seat → p.State → Turn p.State) (run : Run p) : Step p :=
  match run.instances.find? (·.seat.node = n) with
  | none => .ok run
  | some i =>
    let t := turn i.seat i.state
    let update (j : Instance p) : Instance p :=
      if j.seat.node = n then { j with state := t.state, unread := j.unread ++ t.events } else j
    let run :=
      { run with
        instances := run.instances.map update
        network := t.sent.foldl (Network.post n i.seat.replica) run.network
        records := run.records ++ t.remarks }
    match t.halt with
    | none => .ok run
    | some h => .error (.ofHalt n h, run)

def deliver (d : Delivery) (run : Run p) : Step p :=
  let run := run.remark
    ⟨.trace, s!"delivering message #{d.ordinal} to node {d.receiver}"⟩
  let seen := if p.watched then [(d.receiver, d.origin, d.message)] else []
  let run := { run with received := run.received ++ seen }
  run.act d.receiver fun seat s => p.receive seat d.origin d.message s

def sequence {α : Type} (step : α → Run p → Step p) : List α → Run p → Step p
  | [], run => .ok run
  | x :: xs, run =>
    match step x run with
    | .error stop => .error stop
    | .ok run => sequence step xs run

def nodes (run : Run p) : List NodeId := run.instances.map (·.seat.node)

def readEvents (run : Run p) : Run p :=
  let records :=
    if config.logEvents then
      run.instances.flatMap fun i => i.unread.map (Event.record i.seat.node)
    else []
  { run with
    instances := run.instances.map Instance.read
    records := run.records ++ records }

/-- One tick: what was sent before it is delivered, then every timer moves on. -/
def tick (run : Run p) : Step p :=
  let (batch, network) := Network.nextBatch wiring run.network
  let run := { run with network, records := run.records ++ batch.remarks }
  match sequence deliver batch.deliveries run with
  | .error stop => .error stop
  | .ok run =>
    match sequence (fun n => act n p.tick) run.nodes run with
    | .error stop => .error stop
    | .ok run =>
      let run := run.readEvents config
      .ok { run with ticks := run.ticks + 1 }

def finished (run : Run p) : Bool :=
  run.instances.all fun i => wiring.scenario.lastView < p.view i.state

def loop : (budget : Nat) → Run p → Step p
  | 0, run => .ok run
  | budget + 1, run =>
    if config.deadlinePassed then .error (.deadlineExceeded run.ticks, run)
    else if run.finished wiring then .ok run
    else
      match tick config wiring run with
      | .error stop => .error stop
      | .ok run => loop budget run

def initial (scheme : Scheme) (p : Protocol) : Run p :=
  let replicas := (List.range config.replicas).map fun i => .ofNat (i + 1)
  { instances := wiring.nodes.map fun (n, r) =>
      let seat : Seat :=
        { node := n
          replica := r
          replicas
          leaders := wiring.scenario.leaders
          viewTimeout := config.viewTimeout
          policy := ⟨⟨scheme, r, replicas⟩, config.cacheCapacity, quorumSize replicas.length⟩ }
      { seat, state := p.create seat } }

def complete (run : Run p) : Step p :=
  match sequence (fun n => act n p.start) run.nodes run with
  | .error stop => .error stop
  | .ok run => loop config wiring config.ticks run

def commitLog (run : Run p) : CommitLog := run.instances.map fun i => (i.seat.node, i.commits)

def outcome : Step p → RunOutcome
  | .error (e, run) => ⟨.error e, run.received, run.records⟩
  | .ok run =>
    let run := run.readEvents config
    let verdict := run.commitLog.judge (twinNodes config.twins wiring.nodes)
    let records :=
      if verdict.safe then run.records
      else
        let conflict := Layout.option (verdict.conflict.map Conflict.layout)
        run.records ++ [⟨.debug, s!"safety violation: {conflict.inline}"⟩]
    let result : RunResult :=
      { sent := run.network.sent
        log := run.network.log
        commitLog := run.commitLog
        injected := run.network.injected
        ticks := run.ticks
        verdict }
    ⟨.ok result, run.received, records⟩

end Run

variable (scheme : Scheme) (s : Scenario) (config : RunConfig)

def runProtocol (p : Protocol) : RunOutcome :=
  match config.validate s with
  | .error e => { result := .error e }
  | .ok () =>
    let wiring : Wiring := ⟨s, assignNodes config.replicas config.twins, config.injection⟩
    let views := s!"executing {s.size} views of {config.protocol}"
    let nodes := s!" with {config.replicas} replicas and {config.twins} twins"
    let opened := (Run.initial config wiring scheme p).remark ⟨.debug, views ++ nodes⟩
    Run.outcome config wiring (opened.complete config wiring)

def runRegistered (registry : Registry) : RunOutcome :=
  match registry.get? config.protocol with
  | none => { result := .error (.unknownProtocol config.protocol) }
  | some p => runProtocol scheme s config p

end Equivocation
