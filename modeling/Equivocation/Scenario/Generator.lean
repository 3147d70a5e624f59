import Equivocation.Random.Draw
import Equivocation.Run.Execution
import Equivocation.Scenario.Assignments

namespace Equivocation

structure GeneratorConfig where
  replicas : Nat
  twins : Nat
  rounds : Nat
  maxGroups : Nat
  leaders : Option (List ReplicaId) := none
  limit : Option Nat := none
  seed : Option Nat := none

/-- A source of scenarios. Each round of a scenario is a choice of a leader and an assignment of the
nodes to groups. -/
structure Generator where
  rounds : Nat
  leaders : List ReplicaId
  assignments : List (List NodeSet)
  total : Nat
  bound : Nat
  emitted : Nat := 0
  draws : Option Cursor := none

namespace Generator

def maxCount : Nat := 0xFFFFFFFFFFFFFFFFFFFFFFFFFFFFFFFF

def scenarioCount (choices rounds : Nat) : Nat :=
  if rounds = 0 then 0
  else if 0x100000000 ≤ rounds then maxCount
  else if choices ≤ 1 then choices
  else if 128 ≤ rounds then maxCount
  else min (Nat.pow choices rounds) maxCount

/-- The number of scenarios to make. Drawn scenarios may come again, so that only a limit bounds
them, if there are any at all. -/
def scenarioBound (total : Nat) (limit seed : Option Nat) : Nat :=
  match limit, seed with
  | none, _ => total
  | some limit, none => min total limit
  | some limit, some _ => if total = 0 then total else limit

def create (config : GeneratorConfig) : Except Crash Generator :=
  let size := config.replicas + config.twins
  if 0x100000000 ≤ size then .error (.overflow "generator")
  else
    let everyone := NodeSet.ofList ((List.range size).map fun i => .ofNat (i + 1))
    let assignments := Assignments.all everyone config.maxGroups
    let leaders :=
      config.leaders.getD ((List.range config.replicas).map fun i => .ofNat (i + 1))
    let total := scenarioCount (leaders.length * assignments.length) config.rounds
    .ok
      { rounds := config.rounds
        leaders
        assignments
        total
        bound := scenarioBound total config.limit config.seed
        draws := config.seed.map Cursor.ofSeed }

def opening (g : Generator) : LogRecord :=
  let choices := s!"{g.leaders.length} leaders, {g.assignments.length} assignments"
  ⟨.debug, s!"scenario generator: {choices}, {g.rounds} rounds, {g.bound} scenarios"⟩

def choices (g : Generator) : Nat := g.leaders.length * g.assignments.length

def digits (base : Nat) : (places : Nat) → Nat → List Nat
  | 0, _ => []
  | places + 1, n => digits base places (n / base) ++ [n % base]

def outOfBounds (length index : Nat) : Crash :=
  ⟨"generator", s!"index out of bounds: the len is {length} but the index is {index}"⟩

/-- Choice `c` is leader `c / n` and assignment `c % n`, where `n` is the number of assignments. -/
def schedule (g : Generator) (choice : Nat) : Except Crash ViewSchedule :=
  let n := g.assignments.length
  match g.leaders[choice / n]?, g.assignments[choice % n]? with
  | none, _ => .error (outOfBounds g.leaders.length (choice / n))
  | some _, none => .error (outOfBounds n (choice % n))
  | some leader, some groups => .ok ⟨leader, groups⟩

def ofChoices (g : Generator) (choices : List Nat) : Except Crash Scenario :=
  match choices.mapM g.schedule with
  | .error crash => .error crash
  | .ok views => .ok ⟨views⟩

/-- The choices of the next scenario: drawn, or the digits of its number with the choices of a round
as base. -/
def nextChoices (g : Generator) : MayDiverge (Except Crash (List Nat) × Generator) :=
  match g.draws with
  | some cursor =>
    ((Draw.many (Draw.below .double g.choices) g.rounds).run.run cursor).map fun drawn =>
      (drawn.1, { g with draws := some drawn.2 })
  | none =>
    if g.choices = 0 then
      some (.error ⟨"generator", "attempt to calculate the remainder with a divisor of zero"⟩, g)
    else some (.ok (digits g.choices g.rounds g.emitted), g)

def next (g : Generator) : MayDiverge (Except Crash (Option Scenario) × Generator) :=
  if g.bound ≤ g.emitted then some (.ok none, g)
  else do
    match ← nextChoices g with
    | (.error crash, g) => return (.error crash, g)
    | (.ok choices, g) =>
      let g := { g with emitted := g.emitted + 1 }
      match g.ofChoices choices with
      | .error crash => return (.error crash, g)
      | .ok s => return (.ok (some s), g)

def skip : (limit : Nat) → Generator → MayDiverge (Except Crash Nat × Generator)
  | 0, g => return (.ok 0, g)
  | limit + 1, g => do
    match ← next g with
    | (.error crash, g) => return (.error crash, g)
    | (.ok none, g) => return (.ok 0, g)
    | (.ok (some _), g) =>
      match ← skip limit g with
      | (.error crash, g) => return (.error crash, g)
      | (.ok skipped, g) => return (.ok (skipped + 1), g)

def nth (n : Nat) (g : Generator) : MayDiverge (Except Crash (Option Scenario) × Generator) := do
  match ← skip n g with
  | (.error crash, g) => return (.error crash, g)
  | (.ok _, g) => next g

def runNext (scheme : Scheme) (config : RunConfig) (p : Protocol) (g : Generator) :
    MayDiverge (Except Crash (Option (Scenario × RunOutcome)) × Generator) := do
  match ← next g with
  | (.error crash, g) => return (.error crash, g)
  | (.ok none, g) => return (.ok none, g)
  | (.ok (some s), g) => return (.ok (some (s, runProtocol scheme s config p)), g)

end Generator

end Equivocation
