import Equivocation.Layout.Consensus
import Equivocation.Table

namespace Equivocation

abbrev CommitLog := Table NodeId (List Hash)

structure Conflict where
  index : Nat
  first : NodeId × Hash
  second : NodeId × Hash
deriving DecidableEq

/-- The length of the longest honest commit sequence, and the first conflict if there is one. -/
structure Verdict where
  commits : Nat
  conflict : Option Conflict
deriving DecidableEq

def Verdict.safe (v : Verdict) : Bool := v.conflict.isNone

namespace CommitLog

def record (log : CommitLog) (n : NodeId) (commits : List Hash) : CommitLog :=
  log.setSorted (fun a b => a.toNat < b.toNat) n commits

/-- The log without the nodes of twins, whose commits carry no guarantee. -/
def honest (log : CommitLog) (excluded : List NodeId) : CommitLog :=
  log.filter fun entry => !excluded.contains entry.1

def longest (log : CommitLog) : Nat := (log.map (·.2.length)).foldl max 0

/-- The first node with a commit at the position, and the first that differs from it there. -/
def conflictAt? (log : CommitLog) (index : Nat) : Option Conflict :=
  match log.filterMap fun entry => entry.2[index]?.map (entry.1, ·) with
  | [] => none
  | first :: rest => (rest.find? (·.2 ≠ first.2)).map fun second => ⟨index, first, second⟩

def judge (log : CommitLog) (excluded : List NodeId) : Verdict :=
  let honest := log.honest excluded
  ⟨honest.longest, (List.range honest.longest).findSome? honest.conflictAt?⟩

end CommitLog

def Conflict.layout (c : Conflict) : Layout :=
  .record "Conflict"
    [("index", .nat c.index), ("first", .tuple [c.first.1.layout, c.first.2.layout]),
      ("second", .tuple [c.second.1.layout, c.second.2.layout])]

end Equivocation
