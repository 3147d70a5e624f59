import Equivocation.Base64
import Equivocation.Text.Blank
import Equivocation.Text.Decimal
import Equivocation.Text.Lines
import Equivocation.Wire.Consensus

namespace Equivocation

/-- Why messages or seeds cannot be read or stored. Lines count from 1; a text that is not part of a
file is line 0. -/
inductive CorpusError where
  | notFound
  | notText
  | decode (line : Nat) (reason : Base64.Malformed)
  | deserialize (line : Nat) (reason : Wire.Malformed)
  | invalidSeed (line : Nat) (reason : Text.NotANumber)
deriving DecidableEq

instance : ToString CorpusError where
  toString
    | .notFound => "corpus i/o error: No such file or directory (os error 2)"
    | .notText => "corpus i/o error: stream did not contain valid UTF-8"
    | .decode line reason => s!"line {line}: {reason}"
    | .deserialize line reason => s!"line {line}: not a message: {reason}"
    | .invalidSeed line reason => s!"line {line}: not a seed: {reason}"

/-- What a path leads to: nothing, not even a directory; or a directory, with or without a file. -/
inductive Storage where
  | noDirectory
  | directory (file : Option (List UInt8))

namespace Storage

def read : Storage → Except CorpusError (List Char)
  | directory (some bytes) =>
    match String.fromUTF8? ⟨bytes.toArray⟩ with
    | none => .error .notText
    | some text => .ok text.toList
  | directory none => .error .notFound
  | noDirectory => .error .notFound

def write (text : List Char) : Storage → Except CorpusError Storage
  | directory _ => .ok (directory (some (Bytes.utf8 (String.ofList text))))
  | noDirectory => .error .notFound

end Storage

namespace Corpus

/-- The base64 text of a message. A message that cannot be written has the empty text. -/
def encodeMessage (m : Message) : List Char :=
  (Base64.encode ((Message.codec.write m).getD [])).map fun b => Char.ofNat b.toNat

def decodeLine (line : Nat) (text : List Char) : Except CorpusError Message :=
  match Base64.decode (Bytes.utf8 (String.ofList (Text.trim text))) with
  | .error reason => .error (.decode line reason)
  | .ok bytes =>
    match Message.codec.read bytes with
    | .error reason => .error (.deserialize line reason)
    | .ok m => .ok m

def decodeMessage (text : List Char) : Except CorpusError Message := decodeLine 0 text

def decodeSeed (line : Nat) (text : List Char) : Except CorpusError Nat :=
  match Text.decimal 0x10000000000000000 (Text.trim text) with
  | .error reason => .error (.invalidSeed line reason)
  | .ok seed => .ok seed

/-- The values of numbered lines, up to the first that has none. Blank lines are skipped. -/
def readLines {α : Type} (value : Nat → List Char → Except CorpusError α) :
    Nat → List (List Char) → Except CorpusError (List α)
  | _, [] => .ok []
  | i, line :: rest =>
    if (Text.trim line).isEmpty then readLines value (i + 1) rest
    else
      match value i line with
      | .error e => .error e
      | .ok x =>
        match readLines value (i + 1) rest with
        | .error e => .error e
        | .ok xs => .ok (x :: xs)

def messages (text : List Char) : Except CorpusError (List Message) :=
  readLines decodeLine 1 (Text.lines text)

def seeds (text : List Char) : Except CorpusError (List Nat) :=
  readLines decodeSeed 1 (Text.lines text)

def loadMessages (s : Storage) : Except CorpusError (List Message) := s.read.bind messages

def loadSeeds (s : Storage) : Except CorpusError (List Nat) := s.read.bind seeds

def saveMessages (ms : List Message) (s : Storage) : Except CorpusError Storage :=
  s.write (Text.unlines (ms.map encodeMessage))

def saveSeeds (seeds : List Nat) (s : Storage) : Except CorpusError Storage :=
  s.write (Text.unlines (seeds.map fun seed => (toString seed).toList))

end Corpus

def Message.encoded (m : Message) : String := String.ofList (Corpus.encodeMessage m)

end Equivocation
