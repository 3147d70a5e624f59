import Equivocation.Layout.Basic
import Equivocation.Message

namespace Equivocation

def ReplicaId.layout (r : ReplicaId) : Layout := .apply "ReplicaId" [.nat r.toNat]

def NodeId.layout (n : NodeId) : Layout := .apply "NodeId" [.nat n.toNat]

def View.layout (v : View) : Layout := .apply "ViewNumber" [.nat v.toNat]

def Hash.layout (h : Hash) : Layout := .atom h.full

def SignatureBytes.layout (s : SignatureBytes) : Layout :=
  .atom (Bytes.hex (s.bytes.take 8) ++ "..")

def Signature.layout (s : Signature) : Layout :=
  .record "Signature" [("signer", s.signer.layout), ("bytes", s.bytes.layout)]

def QuorumCertificate.layout (qc : QuorumCertificate) : Layout :=
  .record "QuorumCertificate"
    [("view", qc.view.layout), ("block", qc.block.layout),
      ("signatures", .list (qc.signatures.map Signature.layout))]

def TimeoutCertificate.layout (tc : TimeoutCertificate) : Layout :=
  .record "TimeoutCertificate"
    [("view", tc.view.layout), ("signatures", .list (tc.signatures.map Signature.layout))]

def SyncInfo.layout (s : SyncInfo) : Layout :=
  .record "SyncInfo"
    [("qc", .option (s.qc.map QuorumCertificate.layout)),
      ("tc", .option (s.tc.map TimeoutCertificate.layout))]

/-- A block shows its hashes in short, its certificate by view and its command by length. -/
def Block.layout (b : Block) : Layout :=
  .record "Block"
    [("hash", .quoted b.hash.short), ("parent", .quoted b.parent.short),
      ("proposer", .nat b.proposer.toNat), ("view", .nat b.view.toNat),
      ("justify", .option (b.justify.map fun qc => .nat qc.view.toNat)),
      ("command_len", .nat b.command.length)]

def Message.layout : Message → Layout
  | .propose p => .apply "Propose" [.record "Proposal" [("block", p.block.layout)]]
  | .vote v =>
    .apply "Vote"
      [.record "Vote"
        [("view", v.view.layout), ("block", v.block.layout), ("signature", v.signature.layout)]]
  | .timeout t =>
    .apply "Timeout"
      [.record "TimeoutMsg"
        [("view", t.view.layout), ("signature", t.signature.layout),
          ("high_qc", t.highQc.layout)]]
  | .newView n =>
    .apply "NewView"
      [.record "NewView" [("view", n.view.layout), ("sync_info", n.sync.layout)]]

end Equivocation
