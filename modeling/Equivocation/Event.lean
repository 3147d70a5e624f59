import Equivocation.Base64
import Equivocation.LogRecord
import Equivocation.Message

namespace Equivocation

inductive Event where
  | insertBlock (block : Block)
  | commitBlock (block : Hash) (view : View)
  | propose (proposal : Proposal)
  | vote (vote : Vote)
  | newView (leader : ReplicaId) (newView : NewView)
  | timeout (timeout : Timeout)
  | receiveProposal (origin : ReplicaId) (proposal : Proposal)
  | receiveVote (origin : ReplicaId) (vote : Vote)
  | startView (leader : Option ReplicaId) (view : View)
  | collectQc (qc : QuorumCertificate)
  | collectTc (tc : TimeoutCertificate)
deriving DecidableEq

def Hash.abbreviation (h : Hash) : String :=
  String.ofList ((Base64.abbreviation h.bytes).map fun b => Char.ofNat b.toNat)

namespace Event

def name : Event → String
  | insertBlock _ => "InsertBlock"
  | commitBlock _ _ => "CommitBlock"
  | propose _ => "Propose"
  | vote _ => "Vote"
  | newView _ _ => "NewView"
  | timeout _ => "Timeout"
  | receiveProposal _ _ => "ReceiveProposal"
  | receiveVote _ _ => "ReceiveVote"
  | startView _ _ => "StartView"
  | collectQc _ => "CollectQC"
  | collectTc _ => "CollectTC"

def particulars : Event → List String
  | insertBlock b => [b.hash.abbreviation, toString b.view]
  | commitBlock h v => [h.abbreviation, toString v]
  | propose p => [p.block.hash.abbreviation, toString p.block.view]
  | vote v => [v.block.abbreviation, toString v.view]
  | newView leader n => [toString leader, toString n.view]
  | timeout t => [toString t.view, toString t.highQc.view]
  | receiveProposal origin p =>
    [toString origin, p.block.hash.abbreviation, toString p.block.view]
  | receiveVote origin v => [toString origin, v.block.abbreviation, toString v.view]
  | startView leader v => [(leader.map toString).getD "none", toString v]
  | collectQc qc => [qc.block.abbreviation, toString qc.view]
  | collectTc tc => [toString tc.view, toString tc.signatures.length]

/-- The event as comma-separated values. Time is not simulated, so a letter stands for it. -/
def record (node : NodeId) (e : Event) : LogRecord :=
  ⟨.info, ", ".intercalate ([e.name, "T", toString node] ++ e.particulars)⟩

end Event

end Equivocation
