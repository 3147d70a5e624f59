import Equivocation.Bytes
import Equivocation.Fault
import Equivocation.Random.ChaCha

namespace Equivocation

/-- What a computation gives once it returns, and `none` if it never does. -/
abbrev MayDiverge (α : Type u) := Option α

inductive Width where
  | single
  | double

namespace Width

def bits : Width → Nat
  | single => 32
  | double => 64

def words : Width → Nat
  | single => 1
  | double => 2

def size : Width → Nat
  | single => 0x100000000
  | double => 0x10000000000000000

/-- The greatest remainder at which a number is accepted: one less than `n` with its bits moved to
the upper end of the width. -/
def acceptance (width : Width) (n : Nat) : Nat := n <<< (width.bits - (Nat.log2 n + 1)) - 1

/-- Numbers that are part of the uneven rest are turned down. -/
def accepts (width : Width) (n x : Nat) : Bool := x * n % width.size ≤ acceptance width n

end Width

structure Cursor where
  stream : Nat → UInt32
  position : Nat

namespace Cursor

def ofSeed (seed : Nat) : Cursor := ⟨ChaCha.stream (.ofSeed (UInt64.ofNat seed)), 0⟩

def advance (c : Cursor) (count : Nat) : Cursor := { c with position := c.position + count }

/-- Two words make up a number of double width, the low word first. -/
def number (c : Cursor) : Width → Nat
  | .single => (c.stream c.position).toNat
  | .double => (c.stream c.position).toNat + 0x100000000 * (c.stream (c.position + 1)).toNat

/-- Scales the next number that is accepted down to the range below `n`. There is no limit to the
numbers that are turned down before it. -/
def scaled (width : Width) (n : Nat) (c : Cursor) : MayDiverge (Nat × Cursor) :=
  let x := c.number width
  let c := c.advance width.words
  if width.accepts n x then some (x * n / width.size, c)
  else c |>.scaled width n
partial_fixpoint

def bytes (c : Cursor) : (count : Nat) → List UInt8
  | 0 => []
  | count + 1 => c.bytes count ++ Bytes.littleEndian 4 (c.stream (c.position + count)).toNat

theorem length_bytes (c : Cursor) (count : Nat) : (c.bytes count).length = 4 * count := by
  induction count with
  | zero => rfl
  | succ count ih =>
    simp only [bytes, List.length_append, ih, Bytes.length_littleEndian]
    omega

end Cursor

/-- A computation that draws from the stream. One that breaks off has still used up the words that
it drew. -/
abbrev Draw := ExceptT Crash (StateT Cursor MayDiverge)

namespace Draw

def number (width : Width) : Draw Nat := do
  let c ← get
  set (c.advance width.words)
  return c.number width

def below (width : Width) (n : Nat) : Draw Nat :=
  if n = 0 then throw ⟨"unknown", "UniformSampler::sample_single: low >= high"⟩
  else ExceptT.lift (Cursor.scaled width n)

def chance (threshold : Nat) : Draw Bool := do return (← number .double) < threshold

/-- Bytes from whole words; the rest of the last word is lost. -/
def bytes (n : Nat) : Draw { bs : List UInt8 // bs.length = n } := do
  let c ← get
  let count := (n + 3) / 4
  set (c.advance count)
  return ⟨(c.bytes count).take n, by
    rw [List.length_take, Cursor.length_bytes]
    omega⟩

def many {α : Type} (draw : Draw α) : (n : Nat) → Draw (List α)
  | 0 => return []
  | n + 1 => do
    let x ← draw
    return x :: (← many draw n)

end Draw

end Equivocation
