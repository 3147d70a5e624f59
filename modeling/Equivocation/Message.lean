import Equivocation.Block

namespace Equivocation

structure Proposal where
  block : Block
deriving DecidableEq

structure Vote where
  view : View
  block : Hash
  signature : Signature
deriving DecidableEq

structure Timeout where
  view : View
  signature : Signature
  highQc : QuorumCertificate
deriving DecidableEq

structure NewView where
  view : View
  sync : SyncInfo
deriving DecidableEq

inductive Message where
  | propose (proposal : Proposal)
  | vote (vote : Vote)
  | timeout (timeout : Timeout)
  | newView (newView : NewView)
deriving DecidableEq

namespace Message

/-- The view whose partitions govern the delivery of the message. -/
def view : Message → View
  | propose p => p.block.view
  | vote v => v.view
  | timeout t => t.view
  | newView n => n.view

def kind : Message → String
  | propose _ => "Propose"
  | vote _ => "Vote"
  | timeout _ => "Timeout"
  | newView _ => "NewView"

def viewOrDash (v : Option View) : String := (v.map toString).getD "-"

instance : ToString Message where
  toString
    | propose p =>
      s!"Propose(view {p.block.view}, block {p.block.hash}, proposer {p.block.proposer})"
    | vote v => s!"Vote(view {v.view}, block {v.block}, signer {v.signature.signer})"
    | timeout t =>
      s!"Timeout(view {t.view}, signer {t.signature.signer}, high qc view {t.highQc.view})"
    | newView n =>
      let qc := viewOrDash (n.sync.qc.map QuorumCertificate.view)
      let tc := viewOrDash (n.sync.tc.map TimeoutCertificate.view)
      s!"NewView(view {n.view}, qc view {qc}, tc view {tc})"

end Message

end Equivocation
