import Equivocation.FaultLog
import Equivocation.Random.Message
import Equivocation.Run.Execution

namespace Equivocation

/-- What is run again and again with a message put in the place of the first one, and how many
commits a run should end with. -/
structure Campaign where
  scenario : Scenario
  config : RunConfig
  expected : Nat
  registry : Registry := .builtIn
  scheme : Scheme := .ed25519

structure Campaign.Progress where
  log : FaultLog := {}
  sources : Table Nat MessageSource := []
  records : List LogRecord := []

inductive Campaign.Step where
  | attempt (message : Message) (seed : Option Nat)
  | prepare (made : Except Crash Message) (seed : Option Nat)
  | fuzzSeed (seed : Nat)
  | fuzz (seed : Nat) (ranges : Ranges) (iterations : Nat)

inductive Campaign.Answer where
  | passed (passed : Bool)
  | prepared (message : Option Message)
  | done

def RunError.blame : RunError → Fault
  | crash c => ⟨c.site, c.text, ""⟩
  | fault node f =>
    ⟨f.location, f.text, if f.detail.isEmpty then s!"node {node}" else s!"node {node}: {f.detail}"⟩
  | deadlineExceeded ticks => ⟨"executor", "deadline exceeded", s!"after {ticks} ticks"⟩
  | unknownProtocol name => ⟨"executor", toString (unknownProtocol name), ""⟩
  | invalidConfiguration reason => ⟨"executor", toString (invalidConfiguration reason), ""⟩

namespace Campaign

def defaultProtocol : String := Rules.chained.name

def baseline (protocol : String) : Campaign :=
  { scenario := .baseline 4 4
    config := { replicas := 4, twins := 0, ticks := 100, protocol }
    expected := 1 }

/-- What is wrong with a run: it ended early, it is unsafe, or it did not commit as many blocks as
expected. -/
def failure? (expected : Nat) : Except RunError RunResult → Option Fault
  | .error e => some e.blame
  | .ok result =>
    match result.verdict.conflict with
    | some conflict => some ⟨"oracle", "expected no safety violations", conflict.layout.inline⟩
    | none =>
      if result.verdict.commits = expected then none
      else
        some ⟨"oracle", "unexpected number of commits",
          s!"expected {expected} commits, got {result.verdict.commits}"⟩

variable (campaign : Campaign)

def attempt (m : Message) (seed : Option Nat) (s : Progress) : Bool × Progress :=
  let config := { campaign.config with injection := some ⟨1, m⟩ }
  let outcome := runRegistered campaign.scheme campaign.scenario config campaign.registry
  let s := { s with log := s.log.count 1 0 0 0, records := s.records ++ outcome.records }
  match failure? campaign.expected outcome.result with
  | none => (true, s)
  | some f =>
    (false,
      { s with
        log := (s.log.count 0 1 0 0).record f "try_execute" m seed
        records := s.records ++
          [⟨.debug, s!"fuzz run failed at {f.location}: {f.text} ({f.detail})"⟩] })

def placeholder : Message := .newView ⟨.zero, {}⟩

/-- Counts a message, and catches the crash of one that could not be made. -/
def prepare (made : Except Crash Message) (seed : Option Nat) (s : Progress) :
    Option Message × Progress :=
  let s := { s with log := s.log.count 0 0 1 0 }
  match made with
  | .ok m => (some m, s)
  | .error crash =>
    (none,
      { s with
        log := (s.log.count 0 0 0 1).record ⟨crash.site, crash.text, ""⟩ "prepare" placeholder
          seed })

def attemptMade (made : Except Crash Message) (seed : Option Nat) (s : Progress) :
    Bool × Progress :=
  match prepare made seed s with
  | (none, s) => (false, s)
  | (some m, s) => attempt campaign m seed s

def fuzzSeed (seed : Nat) (s : Progress) : MayDiverge (Bool × Progress) := do
  let made ← Message.ofSeed seed campaign.config.replicas
  return attemptMade campaign made (some seed) s

def fuzz : (iterations : Nat) → MessageSource → Progress → MayDiverge (MessageSource × Progress)
  | 0, source, s => return (source, s)
  | iterations + 1, source, s => do
    let (made, source) ← source.next
    fuzz iterations source (attemptMade campaign made none s).2

/-- The ranges of a source are those it was first used with. -/
def step (s : Progress) : Step → MayDiverge (Answer × Progress)
  | .attempt m seed =>
    let result := attempt campaign m seed s
    return (.passed result.1, result.2)
  | .prepare made seed =>
    let result := prepare made seed s
    return (.prepared result.1, result.2)
  | .fuzzSeed seed => do
    let result ← fuzzSeed campaign seed s
    return (.passed result.1, result.2)
  | .fuzz seed ranges iterations => do
    let source := (s.sources.get? seed).getD (.ofSeed seed ranges)
    let result ← fuzz campaign iterations source s
    return (.done, { result.2 with sources := result.2.sources.set seed result.1 })

end Campaign

end Equivocation
