import Equivocation.Certificate

namespace Equivocation

structure Block.Contents where
  parent : Hash
  justify : Option QuorumCertificate
  command : List UInt8
  view : View
  proposer : ReplicaId
deriving DecidableEq

/-- Parent, proposer, view, command and certificate, one after the other; a block without a
certificate ends with its command. -/
def Block.Contents.encode (c : Block.Contents) : List UInt8 :=
  c.parent.bytes ++ c.proposer.encode ++ c.view.encode ++ c.command ++
    (c.justify.map QuorumCertificate.encode).getD []

/-- A block with its hash. It links to its parent by hash alone, and carries the certificate that
justifies the parent. -/
structure Block extends Block.Contents where
  hash : Hash
  hash_eq : hash = Hash.digest toContents.encode
deriving DecidableEq

namespace Block

def ofContents (c : Contents) : Block := ⟨c, Hash.digest c.encode, rfl⟩

def genesis : Block := ofContents ⟨Hash.zero, none, [], View.zero, .ofNat 0⟩

def genesisHash : Hash := genesis.hash

instance : Inhabited Block := ⟨genesis⟩

def encode (b : Block) : List UInt8 := b.toContents.encode

/-- Blocks count as equal when their hashes are. -/
def same (a b : Block) : Bool := a.hash = b.hash

def isGenesis (b : Block) : Bool := b.hash = genesisHash

theorem ext_contents {a b : Block} (h : a.toContents = b.toContents) : a = b := by
  obtain ⟨a, x, hx⟩ := a
  obtain ⟨b, y, hy⟩ := b
  cases h
  cases hx
  cases hy
  rfl

@[simp] theorem toContents_ofContents (c : Contents) : (ofContents c).toContents = c := rfl

@[simp] theorem ofContents_toContents (b : Block) : ofContents b.toContents = b := ext_contents rfl

end Block

namespace QuorumCertificate

def genesis : QuorumCertificate := ⟨View.zero, Block.genesisHash, []⟩

def isGenesis (qc : QuorumCertificate) : Bool :=
  qc.block = Block.genesisHash ∧ qc.view = View.zero

end QuorumCertificate

end Equivocation
