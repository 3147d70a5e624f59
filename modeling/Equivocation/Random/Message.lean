import Equivocation.Message
import Equivocation.Random.Draw

namespace Equivocation

/-- The ranges that drawn messages keep to. They are a little wider than what a run with as many
replicas and views uses. -/
structure Ranges where
  replicas : Nat
  maxView : Nat := 4

namespace Ranges

variable (ranges : Ranges)

/-- The double nearest to 0.1, in units of `2 ^ -64`; likewise for the other chances. -/
def tenth : Nat := 0x1999999999999A00
def threeTenths : Nat := 0x4CCCCCCCCCCCCC00
def half : Nat := 0x8000000000000000
def sevenTenths : Nat := 0xB333333333333000
def fourFifths : Nat := 0xCCCCCCCCCCCCD000

/-- Views end one after the highest, and a bound that does not fit its width is a crash. -/
def view : Draw View :=
  if 0x10000000000000000 ≤ ranges.maxView + 2 then throw (.overflow "src/fuzz/mutator.rs:140")
  else return .ofNat (← Draw.below .double (ranges.maxView + 2))

def replica : Draw ReplicaId :=
  if 0x100000000 ≤ ranges.replicas + 2 then throw (.overflow "src/fuzz/mutator.rs:144")
  else return .ofNat (← Draw.below .single (ranges.replicas + 2))

def hash : Draw Hash := do
  if ← Draw.chance threeTenths then return Block.genesisHash
  return .ofSized (← Draw.bytes 32)

/-- The bytes are arbitrary, so that the signature never checks out. -/
def signature : Draw Signature := do
  let bytes ← Draw.bytes 64
  return ⟨← ranges.replica, .ofSized bytes⟩

def signatures : Draw (List Signature) := do
  Draw.many ranges.signature (← Draw.below .double (ranges.replicas + 1))

def command : Draw (List UInt8) := do
  let bs ← Draw.bytes (← Draw.below .double 16)
  return bs.1

def qc : Draw QuorumCertificate := do
  if ← Draw.chance threeTenths then return .genesis
  let view ← ranges.view
  let block ← hash
  return ⟨view, block, ← ranges.signatures⟩

def qc? : Draw (Option QuorumCertificate) := do
  if ← Draw.chance fourFifths then return some (← ranges.qc) else return none

def tc : Draw TimeoutCertificate := do
  let view ← ranges.view
  return ⟨view, ← ranges.signatures⟩

def sync : Draw SyncInfo := do
  let qc ← ranges.qc?
  if ← Draw.chance half then return ⟨qc, some (← ranges.tc)⟩ else return ⟨qc, none⟩

/-- The parent of a block with a certificate is most often the certified block. -/
def parent : Option QuorumCertificate → Draw Hash
  | none => hash
  | some qc => do if ← Draw.chance sevenTenths then return qc.block else hash

def block : Draw Block := do
  let justify ← ranges.qc?
  let parent ← parent justify
  let command ← command
  let view ← ranges.view
  return .ofContents ⟨parent, justify, command, view, ← ranges.replica⟩

def message : Draw Message := do
  match ← Draw.below .single 4 with
  | 0 => return .propose ⟨← ranges.block⟩
  | 1 =>
    let view ← ranges.view
    let block ← hash
    return .vote ⟨view, block, ← ranges.signature⟩
  | 2 =>
    let view ← ranges.view
    let signature ← ranges.signature
    return .timeout ⟨view, signature, ← ranges.qc⟩
  | _ =>
    let view ← ranges.view
    return .newView ⟨view, ← ranges.sync⟩

def changePart : Message → Draw Message
  | .propose p => do
    let c := p.block.toContents
    let changed : Block.Contents ←
      match ← Draw.below .single 5 with
      | 0 => pure { c with parent := ← hash }
      | 1 => pure { c with justify := ← ranges.qc? }
      | 2 => pure { c with command := ← command }
      | 3 => pure { c with view := ← ranges.view }
      | _ => pure { c with proposer := ← ranges.replica }
    return .propose ⟨.ofContents changed⟩
  | .vote v => do
    match ← Draw.below .single 3 with
    | 0 => return .vote { v with view := ← ranges.view }
    | 1 => return .vote { v with block := ← hash }
    | _ => return .vote { v with signature := ← ranges.signature }
  | .timeout t => do
    match ← Draw.below .single 3 with
    | 0 => return .timeout { t with view := ← ranges.view }
    | 1 => return .timeout { t with signature := ← ranges.signature }
    | _ => return .timeout { t with highQc := ← ranges.qc }
  | .newView n => do
    match ← Draw.below .single 2 with
    | 0 => return .newView { n with view := ← ranges.view }
    | _ => return .newView { n with sync := ← ranges.sync }

/-- Changes one part of a message; one message in ten is drawn anew as a whole. -/
def mutate (m : Message) : Draw Message := do
  if ← Draw.chance tenth then ranges.message else ranges.changePart m

end Ranges

structure MessageSource where
  ranges : Ranges
  cursor : Cursor

namespace MessageSource

def ofSeed (seed : Nat) (ranges : Ranges) : MessageSource := ⟨ranges, .ofSeed seed⟩

def draw {α : Type} (d : Ranges → Draw α) (s : MessageSource) :
    MayDiverge (Except Crash α × MessageSource) :=
  ((d s.ranges).run.run s.cursor).map fun drawn => (drawn.1, { s with cursor := drawn.2 })

def next (s : MessageSource) : MayDiverge (Except Crash Message × MessageSource) :=
  s.draw Ranges.message

def mutate (m : Message) (s : MessageSource) : MayDiverge (Except Crash Message × MessageSource) :=
  s.draw fun ranges => ranges.mutate m

end MessageSource

def Message.ofSeed (seed replicas : Nat) : MayDiverge (Except Crash Message) :=
  (MessageSource.ofSeed seed { replicas }).next.map (·.1)

end Equivocation
