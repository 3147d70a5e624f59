import Equivocation.Bytes

namespace Equivocation.Sha2

class Word (α : Type) extends Add α, XorOp α, AndOp α, Complement α, ShiftRight α where
  ofNat : Nat → α
  toNat : α → Nat
  rotateRight : α → α → α

instance : Word UInt32 where
  ofNat := UInt32.ofNat
  toNat := UInt32.toNat
  rotateRight x k := x >>> k ||| x <<< (32 - k)

instance : Word UInt64 where
  ofNat := UInt64.ofNat
  toNat := UInt64.toNat
  rotateRight x k := x >>> k ||| x <<< (64 - k)

/-- What tells the members of the SHA-2 family apart: word size in bytes, initial chaining words,
round constants, and the rotation amounts of the four mixing functions. The last amount of the
two schedule functions is a shift. -/
structure Family (α : Type) where
  wordBytes : Nat
  initial : List α
  constants : List α
  sum0 : α × α × α
  sum1 : α × α × α
  mix0 : α × α × α
  mix1 : α × α × α

structure Working (α : Type) where
  a : α
  b : α
  c : α
  d : α
  e : α
  f : α
  g : α
  h : α

variable {α : Type} [Word α]

@[specialize] def rotations (r : α × α × α) (x : α) : α :=
  Word.rotateRight x r.1 ^^^ Word.rotateRight x r.2.1 ^^^ Word.rotateRight x r.2.2

@[specialize] def rotationsShift (r : α × α × α) (x : α) : α :=
  Word.rotateRight x r.1 ^^^ Word.rotateRight x r.2.1 ^^^ (x >>> r.2.2)

@[specialize] def choose (x y z : α) : α := (x &&& y) ^^^ (~~~x &&& z)

@[specialize] def majority (x y z : α) : α := (x &&& y) ^^^ (x &&& z) ^^^ (y &&& z)

namespace Working

@[specialize] def ofList (ws : List α) : Working α :=
  let word (i : Nat) := ws.getD i (Word.ofNat 0)
  ⟨word 0, word 1, word 2, word 3, word 4, word 5, word 6, word 7⟩

def toList (s : Working α) : List α := [s.a, s.b, s.c, s.d, s.e, s.f, s.g, s.h]

@[specialize] def add (s t : Working α) : Working α :=
  ⟨s.a + t.a, s.b + t.b, s.c + t.c, s.d + t.d, s.e + t.e, s.f + t.f, s.g + t.g, s.h + t.h⟩

end Working

variable (family : Family α)

/-- Big-endian words; a rest shorter than a word is dropped. -/
@[specialize] def words : Nat → List UInt8 → List α
  | 0, _ => []
  | n + 1, bs =>
    Word.ofNat (Bytes.ofBigEndian (bs.take family.wordBytes)) ::
      words n (bs.drop family.wordBytes)

/-- The message schedule, newest word first, lengthened by `n` words. -/
@[specialize] def extend : Nat → List α → List α
  | 0, ws => ws
  | n + 1, ws =>
    let word (i : Nat) := ws.getD i (Word.ofNat 0)
    extend n ((rotationsShift family.mix1 (word 1) + word 6 +
      rotationsShift family.mix0 (word 14) + word 15) :: ws)

@[specialize] def schedule (block : List UInt8) : List α :=
  (extend family (family.constants.length - 16) (words family 16 block).reverse).reverse

@[specialize] def round (s : Working α) (kw : α × α) : Working α :=
  let t := s.h + rotations family.sum1 s.e + choose s.e s.f s.g + kw.1 + kw.2
  ⟨t + (rotations family.sum0 s.a + majority s.a s.b s.c), s.a, s.b, s.c, s.d + t, s.e, s.f, s.g⟩

@[specialize] def compress (s : Working α) (block : List UInt8) : Working α :=
  s.add ((family.constants.zip (schedule family block)).foldl (round family) s)

def blockBytes : Nat := 16 * family.wordBytes

/-- A one bit, zeros, and the bit length in two words fill the message up to whole blocks. -/
def pad (message : List UInt8) : List UInt8 :=
  let size := blockBytes family
  let zeros := (2 * size - 1 - 2 * family.wordBytes - message.length % size) % size
  message ++ 128 :: List.replicate zeros 0 ++
    Bytes.bigEndian (2 * family.wordBytes) (8 * message.length)

@[specialize] def absorb : Nat → Working α → List UInt8 → Working α
  | 0, s, _ => s
  | n + 1, s, bs =>
    absorb n (compress family s (bs.take (blockBytes family))) (bs.drop (blockBytes family))

@[specialize] def digest (message : List UInt8) : List UInt8 :=
  let padded := pad family message
  (absorb family (padded.length / blockBytes family) (.ofList family.initial) padded).toList.flatMap
    fun word => Bytes.bigEndian family.wordBytes (Word.toNat word)

theorem length_digest (message : List UInt8) :
    (digest family message).length = 8 * family.wordBytes := by
  simp [digest, Working.toList]
  omega

end Equivocation.Sha2
