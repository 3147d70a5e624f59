import Equivocation.Bytes

namespace Equivocation.Wire

inductive Malformed where
  | unexpectedEnd
  | trailingBytes
  | variant (index : UInt8)
  | presence (flag : UInt8)
deriving DecidableEq

instance : ToString Malformed where
  toString
    | .unexpectedEnd => "Unexpected length of input"
    | .trailingBytes => "Not all bytes read"
    | .variant index => s!"Unexpected variant index: {index}"
    | .presence flag =>
      s!"Invalid Option representation: {flag}. The first byte must be 0 or 1"

/-- Reads a value from the front of the bytes and gives back the rest. -/
abbrev Decoder (α : Type) := List UInt8 → Except Malformed (α × List UInt8)

/-- How the values of a type are written and read. The format can only count lists shorter than
`2 ^ 32`; `Fits` holds of the values it can write. -/
structure Codec (α : Type) where
  encode : α → List UInt8
  decode : Decoder α
  Fits : α → Prop := fun _ => True
  decideFits : (x : α) → Decidable (Fits x) := by exact fun _ => inferInstance

variable {α β : Type}

namespace Codec

instance (c : Codec α) (x : α) : Decidable (c.Fits x) := c.decideFits x

def write (c : Codec α) (x : α) : Option (List UInt8) :=
  if c.Fits x then some (c.encode x) else none

def read (c : Codec α) (bs : List UInt8) : Except Malformed α :=
  match c.decode bs with
  | .error e => .error e
  | .ok (x, []) => .ok x
  | .ok (_, _ :: _) => .error .trailingBytes

def map (c : Codec α) (make : α → β) (parts : β → α) : Codec β where
  encode y := c.encode (parts y)
  decode bs :=
    match c.decode bs with
    | .error e => .error e
    | .ok (x, rest) => .ok (make x, rest)
  Fits y := c.Fits (parts y)

def pair (a : Codec α) (b : Codec β) : Codec (α × β) where
  encode p := a.encode p.1 ++ b.encode p.2
  decode bs :=
    match a.decode bs with
    | .error e => .error e
    | .ok (x, rest) =>
      match b.decode rest with
      | .error e => .error e
      | .ok (y, rest) => .ok ((x, y), rest)
  Fits p := a.Fits p.1 ∧ b.Fits p.2

def raw (n : Nat) : Codec { bs : List UInt8 // bs.length = n } where
  encode bs := bs.1
  decode bs :=
    if h : n ≤ bs.length then .ok (⟨bs.take n, List.length_take_of_le h⟩, bs.drop n)
    else .error .unexpectedEnd

def fixed (width : Nat) : Codec { n : Nat // n < Bytes.capacity width } where
  encode n := Bytes.littleEndian width n.1
  decode bs :=
    match (raw width).decode bs with
    | .error e => .error e
    | .ok (⟨digits, h⟩, rest) =>
      .ok (⟨Bytes.ofLittleEndian digits, h ▸ Bytes.ofLittleEndian_lt digits⟩, rest)

/-- An absent value is a 0 byte, a present one a 1 byte and the value. -/
def option (c : Codec α) : Codec (Option α) where
  encode
    | none => [0]
    | some x => 1 :: c.encode x
  decode
    | [] => .error .unexpectedEnd
    | flag :: bs =>
      if flag = 0 then .ok (none, bs)
      else if flag = 1 then
        match c.decode bs with
        | .error e => .error e
        | .ok (x, rest) => .ok (some x, rest)
      else .error (.presence flag)
  Fits
    | none => True
    | some x => c.Fits x
  decideFits
    | none => .isTrue trivial
    | some x => c.decideFits x

def decodeMany (d : Decoder α) : Nat → Decoder (List α)
  | 0, bs => .ok ([], bs)
  | n + 1, bs =>
    match d bs with
    | .error e => .error e
    | .ok (x, rest) =>
      match decodeMany d n rest with
      | .error e => .error e
      | .ok (xs, rest) => .ok (x :: xs, rest)

/-- The number of items in four bytes, then the items. -/
def list (c : Codec α) : Codec (List α) where
  encode xs := Bytes.littleEndian 4 xs.length ++ xs.flatMap c.encode
  decode bs :=
    match (fixed 4).decode bs with
    | .error e => .error e
    | .ok (n, rest) => decodeMany c.decode n.1 rest
  Fits xs := xs.length < 0x100000000 ∧ ∀ x ∈ xs, c.Fits x

def byteList : Codec (List UInt8) where
  encode bs := Bytes.littleEndian 4 bs.length ++ bs
  decode bs :=
    match (fixed 4).decode bs with
    | .error e => .error e
    | .ok (n, rest) =>
      match (raw n.1).decode rest with
      | .error e => .error e
      | .ok (bytes, rest) => .ok (bytes.1, rest)
  Fits bs := bs.length < 0x100000000

end Codec

end Equivocation.Wire
