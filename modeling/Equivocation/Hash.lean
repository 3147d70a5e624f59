import Equivocation.Digest.Standard
import Equivocation.View

namespace Equivocation

@[ext] structure Hash where
  bytes : List UInt8
  length_eq : bytes.length = 32 := by decide
deriving DecidableEq

@[ext] structure SignatureBytes where
  bytes : List UInt8
  length_eq : bytes.length = 64 := by decide
deriving DecidableEq

namespace Hash

def ofSized (bs : { bs : List UInt8 // bs.length = 32 }) : Hash := ⟨bs.1, bs.2⟩

def ofBytes? (bs : List UInt8) : Option Hash :=
  if h : bs.length = 32 then some (ofSized ⟨bs, h⟩) else none

def fill (b : UInt8) : Hash := ⟨List.replicate 32 b, by simp⟩

def zero : Hash := fill 0

instance : Inhabited Hash := ⟨zero⟩

def digest (message : List UInt8) : Hash :=
  ⟨Sha2.digest Sha2.sha256 message, Sha2.length_sha256 message⟩

def full (h : Hash) : String := Bytes.hex h.bytes

def short (h : Hash) : String := Bytes.hex (h.bytes.take 6)

instance : ToString Hash := ⟨short⟩

end Hash

/-- What replicas sign when they time out in a view: its number, then zeros. -/
def View.hash (v : View) : Hash :=
  ⟨v.encode ++ List.replicate 24 0, by simp [View.encode]⟩

namespace SignatureBytes

def ofSized (bs : { bs : List UInt8 // bs.length = 64 }) : SignatureBytes := ⟨bs.1, bs.2⟩

def ofBytes? (bs : List UInt8) : Option SignatureBytes :=
  if h : bs.length = 64 then some (ofSized ⟨bs, h⟩) else none

def fill (b : UInt8) : SignatureBytes := ⟨List.replicate 64 b, by simp⟩

end SignatureBytes

end Equivocation
