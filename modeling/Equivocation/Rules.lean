import Equivocation.Chain
import Equivocation.LogRecord

namespace Equivocation

inductive Rules where
  | chained
  | simple
deriving DecidableEq

structure Safety where
  locked : Hash := Block.genesisHash
  lastVote : View := .zero
deriving DecidableEq

structure Rules.Consequence where
  lock : Option Block := none
  commit : Option Hash := none

namespace Rules.Consequence

def relock (c : Consequence) (s : Safety) : Safety :=
  match c.lock with
  | none => s
  | some b => { s with locked := b.hash }

def remarks (c : Consequence) : List LogRecord :=
  match c.lock with
  | none => []
  | some b => [⟨.trace, s!"lock {b.hash} at view {b.view}"⟩]

end Rules.Consequence

def Safety.lockedView (s : Safety) (c : Chain) : View := ((c.get? s.locked).map (·.view)).getD .zero

namespace Rules

def name : Rules → String
  | chained => "chainedhotstuff"
  | simple => "simplehotstuff"

/-- Under the chained rules a vote is safe for a block that extends the lock, or whose certificate
is newer than the lock; under the simple rules for a block of no past view whose certificate is no
older than the lock. -/
def mayVote (rules : Rules) (c : Chain) (s : Safety) (b : Block) (current : View) : Bool :=
  match rules with
  | chained =>
    c.reaches b s.locked ||
      match c.justified? b with
      | none => false
      | some justified => s.lockedView c < justified.view
  | simple =>
    current ≤ b.view &&
      match c.justified? b with
      | none => false
      | some justified => s.lockedView c ≤ justified.view

/-- The three blocks are linked by parents, and under the simple rules their views follow one
another. -/
def completes (rules : Rules) (one two three : Block) : Bool :=
  one.parent = two.hash && two.parent = three.hash &&
    match rules with
    | chained => true
    | simple => three.view.next = two.view && two.view.next = one.view

/-- A certificate of a certificate locks the block at its end, if that is newer than the lock; a
third certificate commits the block at its end, if the three blocks are in line. -/
def consequence (rules : Rules) (c : Chain) (s : Safety) (b : Block) : Consequence :=
  match c.justified? b with
  | none => {}
  | some one =>
    match c.justified? one with
    | none => {}
    | some two =>
      { lock := if s.lockedView c < two.view then some two else none
        commit :=
          match c.justified? two with
          | none => none
          | some three => if rules.completes one two three then some three.hash else none }

end Rules

end Equivocation
