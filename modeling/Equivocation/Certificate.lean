import Equivocation.Hash
import Equivocation.Identity

namespace Equivocation

@[ext] structure Signature where
  signer : ReplicaId
  bytes : SignatureBytes
deriving DecidableEq

@[ext] structure QuorumCertificate where
  view : View
  block : Hash
  signatures : List Signature
deriving DecidableEq

/-- A quorum of replicas gave up on a view. Each signature is over the hash of the view. -/
@[ext] structure TimeoutCertificate where
  view : View
  signatures : List Signature
deriving DecidableEq

@[ext] structure SyncInfo where
  qc : Option QuorumCertificate := none
  tc : Option TimeoutCertificate := none
deriving DecidableEq

def ReplicaId.encode (r : ReplicaId) : List UInt8 := Bytes.littleEndian 4 r.toNat

namespace Signature

def encode (s : Signature) : List UInt8 := s.signer.encode ++ s.bytes.bytes

/-- Signers come in numeric order, signatures of one signer in the order of their bytes. -/
def Before (s t : Signature) : Prop :=
  s.signer.toNat < t.signer.toNat ∨
    s.signer.toNat = t.signer.toNat ∧ s.bytes.bytes ≤ t.bytes.bytes

instance (s t : Signature) : Decidable (Before s t) :=
  inferInstanceAs (Decidable (_ ∨ _ ∧ _))

def insertSorted (s : Signature) : List Signature → List Signature
  | [] => [s]
  | t :: ts => if Before s t then s :: t :: ts else t :: insertSorted s ts

/-- Signatures in canonical order, so that the order in which votes arrived leaves no trace. -/
def sort (ss : List Signature) : List Signature := ss.foldr insertSorted []

def distinctSigners (ss : List Signature) : Bool := decide (ss.map signer).Nodup

end Signature

namespace QuorumCertificate

def hasDistinctSigners (qc : QuorumCertificate) : Bool := Signature.distinctSigners qc.signatures

def encode (qc : QuorumCertificate) : List UInt8 :=
  qc.block.bytes ++ qc.view.encode ++ (Signature.sort qc.signatures).flatMap Signature.encode

end QuorumCertificate

namespace TimeoutCertificate

def hasDistinctSigners (tc : TimeoutCertificate) : Bool := Signature.distinctSigners tc.signatures

def encode (tc : TimeoutCertificate) : List UInt8 :=
  tc.view.encode ++ (Signature.sort tc.signatures).flatMap Signature.encode

end TimeoutCertificate

end Equivocation
