namespace Equivocation.Ed25519

def fieldOrder : Nat :=
  57896044618658097711785492504343953926634992332820282019728792003956564819949

def groupOrder : Nat :=
  7237005577332262213973186563042994240857116359379907606001950938285454250989

/-- A difference whose second term is at most the order. Only products are reduced. -/
def sub (a b : Nat) : Nat := a + fieldOrder - b

def mul (a b : Nat) : Nat := a * b % fieldOrder

def power (a : Nat) : (bits e : Nat) → Nat
  | 0, _ => 1
  | bits + 1, e =>
    let half := power a bits (e / 2)
    let square := mul half half
    if e % 2 = 1 then mul square a else square

def inverse (a : Nat) : Nat := power a 255 (fieldOrder - 2)

/-- Twice the coefficient `d` of the curve `-x ^ 2 + y ^ 2 = 1 + d x ^ 2 y ^ 2`. -/
def twiceD : Nat :=
  16295367250680780974490674513165176452449235426866156013048779062215315747161

/-- A point in extended coordinates: `x = X / Z`, `y = Y / Z` and `x y = T / Z`. -/
structure Point where
  X : Nat
  Y : Nat
  Z : Nat
  T : Nat

namespace Point

def identity : Point := ⟨0, 1, 1, 0⟩

def base : Point :=
  let x := 15112221349535400772501151409588531511454012693041857206046113283949847762202
  let y := 46316835694926478169428394003475163141307993866256225615783033603165251855960
  ⟨x, y, 1, mul x y⟩

def plus (p q : Point) : Point :=
  let a := mul (sub p.Y p.X) (sub q.Y q.X)
  let b := mul (p.Y + p.X) (q.Y + q.X)
  let c := mul (mul p.T twiceD) q.T
  let d := mul (2 * p.Z) q.Z
  let e := sub b a
  let f := sub d c
  let g := d + c
  let h := b + a
  ⟨mul e f, mul g h, mul f g, mul e h⟩

def double (p : Point) : Point :=
  let a := mul p.X p.X
  let b := mul p.Y p.Y
  let h := a + b
  let sum := p.X + p.Y
  let e := sub h (mul sum sum)
  let g := sub a b
  let f := 2 * mul p.Z p.Z + g
  ⟨mul e f, mul g h, mul f g, mul e h⟩

def neg (p : Point) : Point := ⟨sub 0 p.X, p.Y, p.Z, sub 0 p.T⟩

def sums (p : Point) : (count : Nat) → Point → List Point
  | 0, _ => []
  | count + 1, q => q :: sums p count (plus q p)

end Point

/-- The multiples of a point by each digit at each place of a hexadecimal numeral, the lowest place
first. -/
abbrev Multiples := List (Array Point)

namespace Multiples

def ofPoint : (places : Nat) → Point → Multiples
  | 0, _ => []
  | places + 1, p =>
    (p.sums 16 .identity).toArray :: ofPoint places p.double.double.double.double

def addTo : Multiples → (m : Nat) → (q : Point) → Point
  | [], _, q => q
  | digits :: rest, m, q => addTo rest (m / 16) (q.plus (digits.getD (m % 16) .identity))

def times (ms : Multiples) (m : Nat) : Point := addTo ms m .identity

def base : Multiples := ofPoint 64 .base

end Multiples

end Equivocation.Ed25519
