import Equivocation.Bytes

namespace Equivocation.Base64

inductive Malformed where
  | byte (b : UInt8) (offset : Nat)
  | remainder
  | padding
  | lastSymbol (b : UInt8) (offset : Nat)
deriving DecidableEq

instance : ToString Malformed where
  toString
    | .byte b offset => s!"Invalid byte {b}, offset {offset}."
    | .remainder => "Encoded text cannot have a 6-bit remainder."
    | .padding => "Invalid padding"
    | .lastSymbol b offset => s!"Invalid last symbol {b}, offset {offset}."

def pad : UInt8 := 61

def symbol (v : Nat) : UInt8 :=
  if v < 26 then UInt8.ofNat (v + 65)
  else if v < 52 then UInt8.ofNat (v + 71)
  else if v < 62 then UInt8.ofNat (v - 4)
  else if v = 62 then 43
  else 47

def value? (b : UInt8) : Option Nat :=
  if 65 ≤ b ∧ b ≤ 90 then some (b.toNat - 65)
  else if 97 ≤ b ∧ b ≤ 122 then some (b.toNat - 71)
  else if 48 ≤ b ∧ b ≤ 57 then some (b.toNat + 4)
  else if b = 43 then some 62
  else if b = 47 then some 63
  else none

def symbols : List UInt8 → List UInt8
  | [] => []
  | [a] => [symbol (a.toNat / 4), symbol (a.toNat % 4 * 16)]
  | [a, b] =>
    [symbol (a.toNat / 4), symbol (a.toNat % 4 * 16 + b.toNat / 16), symbol (b.toNat % 16 * 4)]
  | a :: b :: c :: bs =>
    symbol (a.toNat / 4) :: symbol (a.toNat % 4 * 16 + b.toNat / 16) ::
      symbol (b.toNat % 16 * 4 + c.toNat / 64) :: symbol (c.toNat % 64) :: symbols bs

def encode (bs : List UInt8) : List UInt8 :=
  let ss := symbols bs
  ss ++ List.replicate ((4 - ss.length % 4) % 4) pad

def bodyValues : Nat → List UInt8 → Except Malformed (List Nat)
  | _, [] => .ok []
  | offset, b :: bs =>
    match value? b with
    | none => .error (.byte b offset)
    | some v =>
      match bodyValues (offset + 1) bs with
      | .error e => .error e
      | .ok vs => .ok (v :: vs)

/-- The number of pads. Anything else, or a pad out of place, is blamed on the first pad. -/
def padsOnly (firstPad : Nat) : Nat → List UInt8 → Except Malformed Nat
  | _, [] => .ok 0
  | i, b :: bs =>
    if b = pad ∧ 2 ≤ i % 4 then
      match padsOnly firstPad (i + 1) bs with
      | .error e => .error e
      | .ok n => .ok (n + 1)
    else .error (.byte pad firstPad)

/-- The values of the last symbols and the number of pads after them. A pad may only stand in the
third or fourth place of a group of four. -/
def tailValues (start : Nat) : Nat → List UInt8 → Except Malformed (List Nat × Nat)
  | _, [] => .ok ([], 0)
  | i, b :: bs =>
    if b = pad then
      if i % 4 < 2 then .error (.byte pad (start + i))
      else
        match padsOnly (start + i) (i + 1) bs with
        | .error e => .error e
        | .ok n => .ok ([], n + 1)
    else
      match value? b with
      | none => .error (.byte b (start + i))
      | some v =>
        match tailValues start (i + 1) bs with
        | .error e => .error e
        | .ok (vs, n) => .ok (v :: vs, n)

/-- The bytes that groups of six bits make up; left-over bits must be zero. -/
def join : List Nat → Option (List UInt8)
  | [] => some []
  | [_] => none
  | [a, b] => if b % 16 = 0 then some [UInt8.ofNat (a * 4 + b / 16)] else none
  | [a, b, c] =>
    if c % 4 = 0 then some [UInt8.ofNat (a * 4 + b / 16), UInt8.ofNat (b % 16 * 16 + c / 4)]
    else none
  | a :: b :: c :: d :: vs =>
    (join vs).map fun bs =>
      UInt8.ofNat (a * 4 + b / 16) :: UInt8.ofNat (b % 16 * 16 + c / 4) ::
        UInt8.ofNat (c % 4 * 64 + d) :: bs

def tailStart (size : Nat) : Nat := (size - 1) / 8 * 8

def decode (bs : List UInt8) : Except Malformed (List UInt8) :=
  let size := bs.length
  let last := bs.getLast?.getD pad
  if size % 4 = 1 then
    if last ≠ pad ∧ (value? last).isNone then .error (.byte last (size - 1))
    else .error .remainder
  else
    let start := tailStart size
    match bodyValues 0 (bs.take start) with
    | .error e => .error e
    | .ok body =>
      match tailValues start 0 (bs.drop start) with
      | .error e => .error e
      | .ok (tail, pads) =>
        if (tail.length + pads) % 4 ≠ 0 then .error .padding
        else
          match join (body ++ tail) with
          | some bytes => .ok bytes
          | none =>
            let offset := start + tail.length - 1
            .error (.lastSymbol (bs.getD offset pad) offset)

def abbreviation (bs : List UInt8) : List UInt8 := (symbols bs).take 7

end Equivocation.Base64
