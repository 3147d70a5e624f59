namespace Equivocation.ChaCha

structure Row where
  w0 : UInt32
  w1 : UInt32
  w2 : UInt32
  w3 : UInt32

namespace Row

def map (f : UInt32 → UInt32) (r : Row) : Row := ⟨f r.w0, f r.w1, f r.w2, f r.w3⟩

def zipWith (f : UInt32 → UInt32 → UInt32) (r s : Row) : Row :=
  ⟨f r.w0 s.w0, f r.w1 s.w1, f r.w2 s.w2, f r.w3 s.w3⟩

def add (r s : Row) : Row := zipWith (· + ·) r s

def mix (k : UInt32) (r s : Row) : Row :=
  (zipWith (· ^^^ ·) r s).map fun x => x <<< k ||| x >>> (32 - k)

def shift (r : Row) : Row := ⟨r.w1, r.w2, r.w3, r.w0⟩

def toList (r : Row) : List UInt32 := [r.w0, r.w1, r.w2, r.w3]

end Row

structure State where
  a : Row
  b : Row
  c : Row
  d : Row

namespace State

def columns (s : State) : State :=
  let a := s.a.add s.b
  let d := s.d.mix 16 a
  let c := s.c.add d
  let b := s.b.mix 12 c
  let a := a.add b
  let d := d.mix 8 a
  let c := c.add d
  let b := b.mix 7 c
  ⟨a, b, c, d⟩

/-- Columns, then diagonals, which are the columns of the shifted rows. -/
def doubleRound (s : State) : State :=
  let s := s.columns
  let t := columns ⟨s.a, s.b.shift, s.c.shift.shift, s.d.shift.shift.shift⟩
  ⟨t.a, t.b.shift.shift.shift, t.c.shift.shift, t.d.shift⟩

def rounds : Nat → State → State
  | 0, s => s
  | n + 1, s => rounds n s.doubleRound

def toList (s : State) : List UInt32 := s.a.toList ++ s.b.toList ++ s.c.toList ++ s.d.toList

end State

structure Key where
  low : Row
  high : Row

/-- The sixteen words of one block of the stream, for a nonce of zero. -/
def block (key : Key) (counter : Nat) : List UInt32 :=
  let s : State :=
    { a := ⟨0x61707865, 0x3320646e, 0x79622d32, 0x6b206574⟩
      b := key.low
      c := key.high
      d := ⟨UInt32.ofNat counter, UInt32.ofNat (counter / 0x100000000), 0, 0⟩ }
  let t := s.rounds 10
  State.toList ⟨s.a.add t.a, s.b.add t.b, s.c.add t.c, s.d.add t.d⟩

def stream (key : Key) (n : Nat) : UInt32 := (block key (n / 16)).getD (n % 16) 0

/-- A step of the generator that spreads a seed over a key. -/
def spread (state : UInt64) : UInt64 := state * 6364136223846793005 + 11634580027462260723

def spreadWord (state : UInt64) : UInt32 :=
  let x := (((state >>> 18) ^^^ state) >>> 27).toUInt32
  let k := (state >>> 59).toUInt32
  x >>> k ||| x <<< (32 - k)

def spreadRow (state : UInt64) : Row × UInt64 :=
  let s0 := spread state
  let s1 := spread s0
  let s2 := spread s1
  let s3 := spread s2
  (⟨spreadWord s0, spreadWord s1, spreadWord s2, spreadWord s3⟩, s3)

def Key.ofSeed (seed : UInt64) : Key :=
  let (low, state) := spreadRow seed
  ⟨low, (spreadRow state).1⟩

end Equivocation.ChaCha
