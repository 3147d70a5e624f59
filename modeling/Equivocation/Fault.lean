import Equivocation.Message

namespace Equivocation

/-- A structurally impossible message, with the place that noticed it. The text is the same every
time a check fails; hashes, views and replicas go into the detail. -/
structure Fault where
  location : String
  text : String
  detail : String := ""
deriving DecidableEq

instance : ToString Fault where
  toString f :=
    if f.detail.isEmpty then s!"{f.location}: {f.text}" else s!"{f.location}: {f.text} ({f.detail})"

structure Crash where
  site : String
  text : String
deriving DecidableEq

def Crash.overflow (site : String) : Crash := ⟨site, "attempt to add with overflow"⟩

inductive Halt where
  | fault (fault : Fault)
  | crash (crash : Crash)
deriving DecidableEq

inductive Impossibility where
  | proposalInViewZero
  | uncertifiedProposal (view : View)
  | parentNotCertified (block parent certified : Hash)
  | foreignProposal (proposer sender : ReplicaId)
  | foreignVote (signer sender : ReplicaId)
  | timeoutInViewZero
  | foreignTimeout (signer sender : ReplicaId)
  | newViewInViewZero
deriving DecidableEq

namespace Impossibility

def fault : Impossibility → Fault
  | proposalInViewZero => ⟨"src/consensus/base.rs:141", "proposal for view 0", ""⟩
  | uncertifiedProposal view =>
    ⟨"src/consensus/base.rs:144", "proposal carries no quorum certificate", s!"view {view}"⟩
  | parentNotCertified block parent certified =>
    ⟨"src/consensus/base.rs:149", "block parent differs from its certificate's block",
      s!"block {block}, parent {parent}, certified {certified}"⟩
  | foreignProposal proposer sender =>
    ⟨"src/consensus/base.rs:161", "proposal was sent by a replica other than its proposer",
      s!"proposer {proposer}, sender {sender}"⟩
  | foreignVote signer sender =>
    ⟨"src/consensus/base.rs:239", "vote was sent by a replica other than its signer",
      s!"signer {signer}, sender {sender}"⟩
  | timeoutInViewZero => ⟨"src/consensus/base.rs:287", "timeout for view 0", ""⟩
  | foreignTimeout signer sender =>
    ⟨"src/consensus/base.rs:291", "timeout was sent by a replica other than its signer",
      s!"signer {signer}, sender {sender}"⟩
  | newViewInViewZero => ⟨"src/consensus/base.rs:342", "new view message for view 0", ""⟩

end Impossibility

/-- The first reason why no correct replica `origin` can have sent the message. -/
def Message.impossibility? (origin : ReplicaId) : Message → Option Impossibility
  | propose p =>
    if p.block.view = .zero then some .proposalInViewZero
    else
      match p.block.justify with
      | none => some (.uncertifiedProposal p.block.view)
      | some qc =>
        if p.block.parent ≠ qc.block then
          some (.parentNotCertified p.block.hash p.block.parent qc.block)
        else if p.block.proposer ≠ origin then some (.foreignProposal p.block.proposer origin)
        else none
  | vote v =>
    if v.signature.signer ≠ origin then some (.foreignVote v.signature.signer origin) else none
  | timeout t =>
    if t.view = .zero then some .timeoutInViewZero
    else if t.signature.signer ≠ origin then some (.foreignTimeout t.signature.signer origin)
    else none
  | newView n => if n.view = .zero then some .newViewInViewZero else none

end Equivocation
