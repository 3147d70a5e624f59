import Equivocation.Fault
import Equivocation.Network

namespace Equivocation

structure RunConfig where
  replicas : Nat
  twins : Nat
  ticks : Nat
  protocol : String
  injection : Option Injection := none
  viewTimeout : Nat := 10
  cacheCapacity : Nat := 1024
  deadlineMillis : Option Nat := none
  logEvents : Bool := false

inductive InvalidConfiguration where
  | noReplicas
  | tooManyTwins (twins replicas : Nat)
  | noViews
  | leaderNotReplica (leader : ReplicaId) (view : Nat)
  | noSuchNode (node : NodeId) (view : Nat)
  | repeatedNode (node : NodeId) (view : Nat)
  | uncoveredNode (view : Nat)
deriving DecidableEq

instance : ToString InvalidConfiguration where
  toString
    | .noReplicas => "at least one replica is required"
    | .tooManyTwins twins replicas =>
      s!"{twins} twins requested but there are only {replicas} replicas"
    | .noViews => "the scenario has no views"
    | .leaderNotReplica leader view => s!"leader {leader} of view {view} is not a replica"
    | .noSuchNode node view => s!"node {node} in view {view} does not exist"
    | .repeatedNode node view => s!"node {node} is in more than one group in view {view}"
    | .uncoveredNode view => s!"the groups of view {view} do not cover every node"

inductive RunError where
  | unknownProtocol (name : String)
  | invalidConfiguration (reason : InvalidConfiguration)
  | fault (node : NodeId) (fault : Fault)
  | deadlineExceeded (ticks : Nat)
  | crash (crash : Crash)
deriving DecidableEq

instance : ToString RunError where
  toString
    | .unknownProtocol name => s!"unknown protocol: {name}"
    | .invalidConfiguration reason => s!"invalid configuration: {reason}"
    | .fault node fault => s!"fault in node {node}: {fault}"
    | .deadlineExceeded ticks => s!"deadline exceeded after {ticks} ticks"
    | .crash crash => crash.text

def RunError.ofHalt (n : NodeId) : Halt → RunError
  | .fault f => .fault n f
  | .crash c => .crash c

/-- The replicas of all nodes in ascending node order: each of the first `twins` replicas runs on
two nodes, every other one on a single node. -/
def nodeReplicas (replicas twins : Nat) : List Nat :=
  (List.range replicas).flatMap fun i => if i < twins then [i + 1, i + 1] else [i + 1]

/-- The nodes of a run: what `numberNodes` gives unless its counter overflows. -/
def assignNodes (replicas twins : Nat) : List (NodeId × ReplicaId) :=
  (nodeReplicas replicas twins).zipIdx.map fun (r, i) => (.ofNat (i + 1), .ofNat r)

/-- Numbers nodes one after the other. The counter of 32 bits moves on after the last node too. -/
def numberNodes (next : Nat) : List Nat → Except Crash (List (NodeId × ReplicaId))
  | [] => .ok []
  | r :: rs =>
    if next = 0xFFFFFFFF then .error (.overflow "src/twins/executor.rs:312")
    else
      match numberNodes (next + 1) rs with
      | .error crash => .error crash
      | .ok nodes => .ok ((.ofNat next, .ofNat r) :: nodes)

def twinNodes (twins : Nat) (nodes : List (NodeId × ReplicaId)) : List NodeId :=
  (nodes.filter fun n => n.2.toNat ≤ twins).map (·.1)

namespace RunConfig

variable (config : RunConfig)

def coversUpTo (covered : List NodeId) : Nat → Bool
  | 0 => true
  | n + 1 => covered.any (·.toNat = n + 1) && coversUpTo covered n

def cover (view : Nat) : List NodeId → List NodeId → Except InvalidConfiguration (List NodeId)
  | covered, [] => .ok covered
  | covered, n :: ns =>
    if n.toNat = 0 ∨ config.replicas + config.twins < n.toNat then .error (.noSuchNode n view)
    else if covered.contains n then .error (.repeatedNode n view)
    else cover view (n :: covered) ns

def validateView (schedule : ViewSchedule) (view : Nat) : Except InvalidConfiguration Unit :=
  if schedule.leader.toNat = 0 ∨ config.replicas < schedule.leader.toNat then
    .error (.leaderNotReplica schedule.leader view)
  else
    match cover config view [] (schedule.groups.flatMap (·.nodes)) with
    | .error reason => .error reason
    | .ok covered =>
      if coversUpTo covered (config.replicas + config.twins) then .ok ()
      else .error (.uncoveredNode view)

def validateViews : List ViewSchedule → Nat → Except InvalidConfiguration Unit
  | [], _ => .ok ()
  | schedule :: rest, view =>
    match validateView config schedule view with
    | .error reason => .error reason
    | .ok () => validateViews rest (view + 1)

/-- A scenario can be run if each of its views is led by a replica and puts every node into exactly
one group. Nodes are counted in 32 bits. -/
def validate (s : Scenario) : Except RunError Unit :=
  if config.replicas = 0 then .error (.invalidConfiguration .noReplicas)
  else if config.replicas < config.twins then
    .error (.invalidConfiguration (.tooManyTwins config.twins config.replicas))
  else if s.views.isEmpty then .error (.invalidConfiguration .noViews)
  else if 0x100000000 ≤ config.replicas + config.twins then
    .error (.crash (.overflow "src/twins/executor.rs:343"))
  else
    match validateViews config s.views 1 with
    | .error reason => .error (.invalidConfiguration reason)
    | .ok () => .ok ()

/-- Time is not simulated: a limit of zero is always exceeded, any other never. -/
def deadlinePassed : Bool := config.deadlineMillis = some 0

end RunConfig

end Equivocation
