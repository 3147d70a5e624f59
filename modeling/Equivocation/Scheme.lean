import Equivocation.Certificate
import Equivocation.Ed25519.Signing

namespace Equivocation

structure Scheme where
  sign : ReplicaId → Hash → SignatureBytes
  verify : ReplicaId → Hash → SignatureBytes → Bool
  publicKey : ReplicaId → List UInt8

def Scheme.ed25519 : Scheme where
  sign r hash := (Ed25519.KeyPair.ofReplica r).sign hash.bytes
  verify r hash bytes := (Ed25519.KeyPair.ofReplica r).verify hash.bytes bytes
  publicKey r := (Ed25519.KeyPair.ofReplica r).encoded

structure Keyring where
  scheme : Scheme
  me : ReplicaId
  known : List ReplicaId

namespace Keyring

variable (keys : Keyring)

def sign (hash : Hash) : Signature := ⟨keys.me, keys.scheme.sign keys.me hash⟩

def verify (s : Signature) (hash : Hash) : Bool :=
  keys.known.contains s.signer && keys.scheme.verify s.signer hash s.bytes

def publicKey? (r : ReplicaId) : Option (List UInt8) :=
  if keys.known.contains r then some (keys.scheme.publicKey r) else none

end Keyring

end Equivocation
