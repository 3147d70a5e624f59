import Equivocation.Ed25519.Curve
import Equivocation.Hash
import Equivocation.Identity

namespace Equivocation.Ed25519

def highestBit : Nat := 1 <<< 255

def multiplierBit : Nat := 1 <<< 254

/-- The `y` coordinate in 32 bytes, with the parity of `x` in the highest bit. -/
def Point.encode (p : Point) : List UInt8 :=
  let z := inverse p.Z
  Bytes.littleEndian 32 (mul p.Y z + mul p.X z % 2 * highestBit)

def sha512 (message : List UInt8) : List UInt8 := Sha2.digest Sha2.sha512 message

/-- A secret multiplier, what nonces are made from, and the public key in bytes and as a point, with
its multiples worked out when they are first needed. -/
structure KeyPair where
  scalar : Nat
  nonceKey : List UInt8
  multiples : Thunk Multiples
  encoded : List UInt8

def clamp (n : Nat) : Nat := n % multiplierBit / 8 * 8 + multiplierBit

def KeyPair.ofSeed (seed : List UInt8) : KeyPair :=
  let expanded := sha512 seed
  let scalar := clamp (Bytes.ofLittleEndian (expanded.take 32))
  let point := Multiples.base.times scalar
  ⟨scalar, expanded.drop 32, .mk fun _ => .ofPoint 64 point, point.encode⟩

def challenge (nonce key message : List UInt8) : Nat :=
  Bytes.ofLittleEndian (sha512 (nonce ++ key ++ message)) % groupOrder

def KeyPair.sign (k : KeyPair) (message : List UInt8) : SignatureBytes :=
  let r := Bytes.ofLittleEndian (sha512 (k.nonceKey ++ message)) % groupOrder
  let nonce := (Multiples.base.times r).encode
  let s := (r + challenge nonce k.encoded message * k.scalar) % groupOrder
  ⟨nonce ++ Bytes.littleEndian 32 s, by simp [nonce, Point.encode]⟩

/-- The multiplier must be below the group order, and the nonce point that it gives must have the
very bytes that were signed. -/
def KeyPair.verify (k : KeyPair) (message : List UInt8) (signature : SignatureBytes) : Bool :=
  let nonce := signature.bytes.take 32
  let s := Bytes.ofLittleEndian (signature.bytes.drop 32)
  let negated := (k.multiples.get.times (challenge nonce k.encoded message)).neg
  s < groupOrder && (Multiples.base.addTo s negated).encode == nonce

/-- The key pair of a replica follows from its number, so that twins share it. -/
def KeyPair.derive (r : ReplicaId) : KeyPair :=
  .ofSeed (Hash.digest (Bytes.utf8 "hotstuff_twins/replica-key" ++
    Bytes.littleEndian 4 r.toNat)).bytes

def smallKeys : Array KeyPair := (Array.range 16).map fun n => KeyPair.derive (.ofNat n)

def KeyPair.ofReplica (r : ReplicaId) : KeyPair :=
  if h : r.toNat < smallKeys.size then smallKeys[r.toNat] else .derive r

end Equivocation.Ed25519
