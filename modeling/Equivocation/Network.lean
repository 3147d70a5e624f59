import Equivocation.Protocol
import Equivocation.Scenario.Basic

namespace Equivocation

/-- A message as it was sent. Ordinals count the messages of a run from 1. -/
structure Envelope where
  ordinal : Nat
  sender : NodeId
  origin : ReplicaId
  recipients : Recipients
  message : Message
deriving DecidableEq

structure Delivery where
  ordinal : Nat
  receiver : NodeId
  origin : ReplicaId
  message : Message
deriving DecidableEq

structure Injection where
  ordinal : Nat
  replacement : Message
deriving DecidableEq

def Recipients.includes : Recipients → ReplicaId → Bool
  | all, _ => true
  | replica target, r => target = r

instance : ToString Recipients where
  toString
    | .all => "all"
    | .replica r => s!"replica {r}"

namespace Network

inductive Entry where
  | sent (e : Envelope)
  | injected (ordinal : Nat) (message : Message)
  | unscheduled (ordinal : Nat) (view : View)
  | delivered (ordinal : Nat) (sender receiver : NodeId)
  | partitioned (ordinal : Nat) (sender receiver : NodeId) (view : View)
deriving DecidableEq

instance : ToString Entry where
  toString
    | .sent e => s!"send #{e.ordinal} node {e.sender} -> {e.recipients}: {e.message}"
    | .injected ordinal message => s!"inject #{ordinal}: {message}"
    | .unscheduled ordinal view => s!"drop #{ordinal}: view {view} is not scheduled"
    | .delivered ordinal sender receiver =>
      s!"deliver #{ordinal} node {sender} -> node {receiver}"
    | .partitioned ordinal sender receiver view =>
      s!"drop #{ordinal} node {sender} -> node {receiver}: partitioned in view {view}"

end Network

structure Wiring where
  scenario : Scenario
  nodes : List (NodeId × ReplicaId)
  injection : Option Injection

structure Network where
  sent : List Envelope := []
  pending : List Envelope := []
  log : List Network.Entry := []
  injected : Bool := false

namespace Network

def post (sender : NodeId) (origin : ReplicaId) (n : Network) (m : Recipients × Message) :
    Network :=
  let e : Envelope := ⟨n.sent.length + 1, sender, origin, m.1, m.2⟩
  { n with sent := n.sent ++ [e], pending := n.pending ++ [e], log := n.log ++ [.sent e] }

structure Batch where
  deliveries : List Delivery := []
  log : List Entry := []
  remarks : List LogRecord := []
  injected : Bool := false

def Batch.append (a b : Batch) : Batch :=
  ⟨a.deliveries ++ b.deliveries, a.log ++ b.log, a.remarks ++ b.remarks, a.injected || b.injected⟩

variable (wiring : Wiring)

def replacement? (e : Envelope) : Option Message :=
  match wiring.injection with
  | none => none
  | some i => if i.ordinal = e.ordinal then some i.replacement else none

def route (schedule : ViewSchedule) (e : Envelope) (message : Message) (injected : Bool)
    (receiver : NodeId) : Batch :=
  if schedule.connected e.sender receiver then
    { deliveries := [⟨e.ordinal, receiver, e.origin, message⟩]
      log := [.delivered e.ordinal e.sender receiver]
      injected }
  else
    { log := [.partitioned e.ordinal e.sender receiver message.view]
      remarks :=
        [⟨.trace, s!"dropping message #{e.ordinal} from node {e.sender} to node {receiver}"⟩] }

def addressees (e : Envelope) : List NodeId :=
  (wiring.nodes.filter fun n => e.recipients.includes n.2).map (·.1)

/-- The schedule of the message's view decides which nodes it reaches; in a view without a schedule
it reaches none. -/
def resolve (e : Envelope) : Batch :=
  let replacement := replacement? wiring e
  let message := replacement.getD e.message
  let swap : Batch :=
    if replacement.isSome then
      { log := [.injected e.ordinal message]
        remarks := [⟨.debug, s!"injecting {message} as message #{e.ordinal}"⟩] }
    else {}
  swap.append <|
    match wiring.scenario.schedule? message.view with
    | none => { log := [.unscheduled e.ordinal message.view] }
    | some schedule =>
      ((addressees wiring e).map (route schedule e message replacement.isSome)).foldl .append {}

def nextBatch (n : Network) : Batch × Network :=
  let batch := (n.pending.map (resolve wiring)).foldl .append {}
  (batch, { n with
    pending := []
    log := n.log ++ batch.log
    injected := n.injected || batch.injected })

def logText (log : List Entry) : String := String.join (log.map fun e => toString e ++ "\n")

end Network

end Equivocation
