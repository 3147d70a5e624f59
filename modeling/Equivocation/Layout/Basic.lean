namespace Equivocation

/-- A value's text in both of its forms: on one line, and spread over lines with one component a
line. -/
structure Layout where
  inline : String
  spread : List String

namespace Layout

def atom (text : String) : Layout := ⟨text, [text]⟩

def nat (n : Nat) : Layout := atom (toString n)

def quoted (text : String) : Layout := atom ("\"" ++ text ++ "\"")

def indent (lines : List String) : List String := lines.map ("    " ++ ·)

def withComma : List String → List String
  | [] => []
  | [line] => [line ++ ","]
  | line :: lines => line :: withComma lines

def labelled (label : String) : List String → List String
  | [] => []
  | line :: lines => (label ++ line) :: lines

def items (xs : List Layout) : List String :=
  xs.flatMap fun x => indent (withComma x.spread)

/-- Components between two brackets; with no components the brackets stand alone. -/
def bracketed (left right : String) (xs : List Layout) : Layout :=
  if xs.isEmpty then atom (left ++ right)
  else ⟨left ++ ", ".intercalate (xs.map inline) ++ right, [left] ++ items xs ++ [right]⟩

def list (xs : List Layout) : Layout := bracketed "[" "]" xs

def set (xs : List Layout) : Layout := bracketed "\x7b" "\x7d" xs

def tuple (xs : List Layout) : Layout := bracketed "(" ")" xs

def apply (name : String) (xs : List Layout) : Layout := bracketed (name ++ "(") ")" xs

def record (name : String) (fields : List (String × Layout)) : Layout :=
  ⟨name ++ " \x7b " ++ ", ".intercalate (fields.map fun f => f.1 ++ ": " ++ f.2.inline) ++ " \x7d",
    [name ++ " \x7b"] ++
      fields.flatMap (fun f => indent (withComma (labelled (f.1 ++ ": ") f.2.spread))) ++ ["\x7d"]⟩

def option : Option Layout → Layout
  | none => atom "None"
  | some x => apply "Some" [x]

def text (x : Layout) : String := "\n".intercalate x.spread

end Layout

end Equivocation
