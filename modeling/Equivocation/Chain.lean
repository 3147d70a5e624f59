import Equivocation.Block

namespace Equivocation

/-- The blocks that one instance knows, the newest first. Blocks are only ever added, and a block
may be stored before its parent is known. -/
structure Chain where
  blocks : List Block

namespace Chain

def initial : Chain := ⟨[Block.genesis]⟩

def get? (c : Chain) (h : Hash) : Option Block := c.blocks.find? (·.hash = h)

def contains (c : Chain) (h : Hash) : Bool := (c.get? h).isSome

def insert (c : Chain) (b : Block) : Chain := if c.contains b.hash then c else ⟨b :: c.blocks⟩

def size (c : Chain) : Nat := c.blocks.length

def follow (c : Chain) : (fuel : Nat) → Block → List Block
  | 0, b => [b]
  | fuel + 1, b =>
    b :: match c.get? b.parent with
      | none => []
      | some parent => follow c fuel parent

/-- A block and all its stored ancestors: without a cycle, no walk along the stored blocks has more
links than there are blocks. -/
def lineage (c : Chain) (b : Block) : List Block := c.follow c.size b

def reaches (c : Chain) (b : Block) (ancestor : Hash) : Bool :=
  match c.get? ancestor with
  | none => false
  | some target =>
    match (c.lineage b).find? fun x => x.hash = ancestor ∨ x.view ≤ target.view with
    | none => false
    | some x => x.hash = ancestor

def hasAncestry (c : Chain) (b : Block) : Bool :=
  match (c.lineage b).find? fun x => x.view = View.zero with
  | none => false
  | some root => root.isGenesis

def justified? (c : Chain) (b : Block) : Option Block := b.justify.bind fun qc => c.get? qc.block

end Chain

end Equivocation
