namespace Equivocation.Text

inductive NotANumber where
  | empty
  | invalidDigit
  | tooLarge
deriving DecidableEq

instance : ToString NotANumber where
  toString
    | .empty => "cannot parse integer from empty string"
    | .invalidDigit => "invalid digit found in string"
    | .tooLarge => "number too large to fit in target type"

/-- Digits are taken from the left; the first character that is no digit, or that takes the number
to the limit, decides the error. -/
def decimalDigits (limit : Nat) : Nat → List Char → Except NotANumber Nat
  | n, [] => .ok n
  | n, c :: cs =>
    if '0' ≤ c ∧ c ≤ '9' then
      let m := 10 * n + (c.toNat - 48)
      if m < limit then decimalDigits limit m cs else .error .tooLarge
    else .error .invalidDigit

def decimal (limit : Nat) : List Char → Except NotANumber Nat
  | [] => .error .empty
  | ['+'] => .error .invalidDigit
  | '+' :: cs => decimalDigits limit 0 cs
  | cs => decimalDigits limit 0 cs

end Equivocation.Text
