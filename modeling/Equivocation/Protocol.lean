import Equivocation.Event
import Equivocation.Fault
import Equivocation.SignatureCache

namespace Equivocation

inductive Recipients where
  | all
  | replica (r : ReplicaId)
deriving DecidableEq

inductive Effect where
  | publish (event : Event)
  | send (whom : Recipients) (message : Message)
  | remark (record : LogRecord)
deriving DecidableEq

/-- A state on its way through a handler, with the effects so far in order. A turn that halts takes
effect up to there. -/
structure Turn (σ : Type) where
  state : σ
  effects : List Effect := []
  halt : Option Halt := none

structure Seat where
  node : NodeId
  replica : ReplicaId
  replicas : List ReplicaId
  leaders : List ReplicaId
  viewTimeout : Nat
  policy : CachePolicy

/-- Anything that can be run as an instance: it is started once, then fed messages and ticks. What
its instances receive is kept in the outcome of a run if it is watched. -/
structure Protocol where
  State : Type
  create : Seat → State
  start : Seat → State → Turn State
  receive : Seat → ReplicaId → Message → State → Turn State
  tick : Seat → State → Turn State
  view : State → View
  watched : Bool := false

/-- View `v` is led by entry `v - 1` of the schedule; view 0 and views past its end are not led. -/
def Seat.leader (seat : Seat) (v : View) : Option ReplicaId :=
  if v = View.zero then none else seat.leaders[v.toNat - 1]?

namespace Turn

variable {σ : Type}

def modify (f : σ → σ) (t : Turn σ) : Turn σ := { t with state := f t.state }

def emit (e : Effect) (t : Turn σ) : Turn σ := { t with effects := t.effects ++ [e] }

def publish (e : Event) (t : Turn σ) : Turn σ := t.emit (.publish e)

def send (whom : Recipients) (m : Message) (t : Turn σ) : Turn σ := t.emit (.send whom m)

def remark (r : LogRecord) (t : Turn σ) : Turn σ := t.emit (.remark r)

def events (t : Turn σ) : List Event :=
  t.effects.filterMap fun
    | .publish e => some e
    | _ => none

def sent (t : Turn σ) : List (Recipients × Message) :=
  t.effects.filterMap fun
    | .send whom m => some (whom, m)
    | _ => none

def remarks (t : Turn σ) : List LogRecord :=
  t.effects.filterMap fun
    | .remark r => some r
    | _ => none

end Turn

end Equivocation
