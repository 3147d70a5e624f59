namespace Equivocation.Text

/-- One carriage return at the end of a line belongs to the line's end. -/
def dropReturn (line : List Char) : List Char :=
  if line.getLast? = some '\r' then line.dropLast else line

def splitFeeds : List Char → List (List Char) × List Char
  | [] => ([], [])
  | c :: cs =>
    let (ended, rest) := splitFeeds cs
    if c = '\n' then ([] :: ended, rest)
    else
      match ended with
      | [] => ([], c :: rest)
      | line :: ended => ((c :: line) :: ended, rest)

/-- The lines of a text, without what ends them. If the last line is not ended, it is taken as it
is, but an empty one is no line. -/
def lines (cs : List Char) : List (List Char) :=
  let (ended, rest) := splitFeeds cs
  ended.map dropReturn ++ if rest.isEmpty then [] else [rest]

def unlines (ls : List (List Char)) : List Char := ls.flatMap (· ++ ['\n'])

end Equivocation.Text
