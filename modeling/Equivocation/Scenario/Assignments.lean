import Equivocation.NodeSet

namespace Equivocation

/-- The ways to split a set of nodes into at most `maxGroups` groups, from the current one on.
A split is given by a growth string: entry `i` is the group of node `i`, and no entry is more than
one above the highest entry before it. Each split has exactly one such string. -/
structure Assignments where
  nodes : NodeSet
  maxGroups : Nat
  current : Option (List Nat)

namespace Assignments

/-- The least growth string comes first. No set can be split into no groups, and the empty set is
not split at all. -/
def create (nodes : NodeSet) (maxGroups : Nat) : Assignments where
  nodes := nodes
  maxGroups := maxGroups
  current :=
    if nodes.size = 0 ∨ maxGroups = 0 then none else some (List.replicate nodes.size 0)

/-- The rest of a growth string after entries of which `highest` is the highest. The last entry that
can grow grows, and everything after it starts over. -/
def advanceRest (maxGroups : Nat) : (highest : Nat) → List Nat → Option (List Nat)
  | _, [] => none
  | highest, g :: gs =>
    match advanceRest maxGroups (max highest g) gs with
    | some rest => some (g :: rest)
    | none =>
      if g ≤ highest ∧ g + 1 < maxGroups then some ((g + 1) :: gs.map fun _ => 0) else none

def advance (maxGroups : Nat) : List Nat → Option (List Nat)
  | [] => none
  | g :: gs => (advanceRest maxGroups g gs).map (g :: ·)

def group (nodes : NodeSet) (string : List Nat) (g : Nat) : NodeSet :=
  .ofList ((nodes.nodes.zip string).filterMap fun (n, k) => if k = g then some n else none)

/-- The groups of a growth string, which come in the order of their smallest nodes. -/
def groups (nodes : NodeSet) (string : List Nat) : List NodeSet :=
  (List.range (string.foldl (fun count g => max count (g + 1)) 0)).map (group nodes string)

def next (a : Assignments) : Option (List NodeSet) × Assignments :=
  match a.current with
  | none => (none, a)
  | some string =>
    (some (groups a.nodes string), { a with current := advance a.maxGroups string })

def skip : (limit : Nat) → Assignments → Nat × Assignments
  | 0, a => (0, a)
  | limit + 1, a =>
    match a.current with
    | none => (0, a)
    | some string =>
      let (skipped, a) := skip limit { a with current := advance a.maxGroups string }
      (skipped + 1, a)

/-- What comes after `used` groups in the growth strings for `length` more nodes, in lexicographic
order. -/
def strings (maxGroups : Nat) : (length used : Nat) → List (List Nat)
  | 0, _ => [[]]
  | length + 1, used =>
    (List.range (min (used + 1) maxGroups)).flatMap fun g =>
      (strings maxGroups length (max used (g + 1))).map (g :: ·)

def all (nodes : NodeSet) (maxGroups : Nat) : List (List NodeSet) :=
  if nodes.size = 0 then [] else (strings maxGroups nodes.size 0).map (groups nodes)

end Assignments

end Equivocation
