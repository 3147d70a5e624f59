import Equivocation.Message
import Equivocation.Wire.Codec

namespace Equivocation

open Wire

def ReplicaId.codec : Codec ReplicaId :=
  (Codec.fixed 4).map (fun n => ⟨n.1, n.2⟩) (fun r => ⟨r.toNat, r.isLt⟩)

def NodeId.codec : Codec NodeId :=
  (Codec.fixed 4).map (fun n => ⟨n.1, n.2⟩) (fun r => ⟨r.toNat, r.isLt⟩)

def View.codec : Codec View :=
  (Codec.fixed 8).map (fun n => ⟨n.1, n.2⟩) (fun v => ⟨v.toNat, v.isLt⟩)

def Hash.codec : Codec Hash :=
  (Codec.raw 32).map .ofSized (fun h => ⟨h.bytes, h.length_eq⟩)

def SignatureBytes.codec : Codec SignatureBytes :=
  (Codec.raw 64).map .ofSized (fun s => ⟨s.bytes, s.length_eq⟩)

def Signature.codec : Codec Signature :=
  (ReplicaId.codec.pair SignatureBytes.codec).map (fun p => ⟨p.1, p.2⟩)
    (fun s => (s.signer, s.bytes))

def QuorumCertificate.codec : Codec QuorumCertificate :=
  (View.codec.pair (Hash.codec.pair (Codec.list Signature.codec))).map
    (fun p => ⟨p.1, p.2.1, p.2.2⟩) (fun qc => (qc.view, qc.block, qc.signatures))

def TimeoutCertificate.codec : Codec TimeoutCertificate :=
  (View.codec.pair (Codec.list Signature.codec)).map (fun p => ⟨p.1, p.2⟩)
    (fun tc => (tc.view, tc.signatures))

def SyncInfo.codec : Codec SyncInfo :=
  ((Codec.option QuorumCertificate.codec).pair (Codec.option TimeoutCertificate.codec)).map
    (fun p => ⟨p.1, p.2⟩) (fun s => (s.qc, s.tc))

/-- The hash is not written; it is worked out again from what is read. -/
def Block.codec : Codec Block :=
  (Hash.codec.pair (ReplicaId.codec.pair (Codec.byteList.pair
    ((Codec.option QuorumCertificate.codec).pair View.codec)))).map
    (fun p => Block.ofContents ⟨p.1, p.2.2.2.1, p.2.2.1, p.2.2.2.2, p.2.1⟩)
    (fun b => (b.parent, b.proposer, b.command, b.justify, b.view))

def Proposal.codec : Codec Proposal := Block.codec.map (fun b => ⟨b⟩) (fun p => p.block)

def Vote.codec : Codec Vote :=
  (View.codec.pair (Hash.codec.pair Signature.codec)).map (fun p => ⟨p.1, p.2.1, p.2.2⟩)
    (fun v => (v.view, v.block, v.signature))

def Timeout.codec : Codec Timeout :=
  (View.codec.pair (Signature.codec.pair QuorumCertificate.codec)).map
    (fun p => ⟨p.1, p.2.1, p.2.2⟩) (fun t => (t.view, t.signature, t.highQc))

def NewView.codec : Codec NewView :=
  (View.codec.pair SyncInfo.codec).map (fun p => ⟨p.1, p.2⟩) (fun n => (n.view, n.sync))

namespace Message

def codec : Codec Message where
  encode
    | propose p => 0 :: Proposal.codec.encode p
    | vote v => 1 :: Vote.codec.encode v
    | timeout t => 2 :: Timeout.codec.encode t
    | newView n => 3 :: NewView.codec.encode n
  decode
    | [] => .error .unexpectedEnd
    | kind :: bs =>
      if kind = 0 then (Proposal.codec.decode bs).map fun (x, rest) => (propose x, rest)
      else if kind = 1 then (Vote.codec.decode bs).map fun (x, rest) => (vote x, rest)
      else if kind = 2 then (Timeout.codec.decode bs).map fun (x, rest) => (timeout x, rest)
      else if kind = 3 then (NewView.codec.decode bs).map fun (x, rest) => (newView x, rest)
      else .error (.variant kind)
  Fits
    | propose p => Proposal.codec.Fits p
    | vote v => Vote.codec.Fits v
    | timeout t => Timeout.codec.Fits t
    | newView n => NewView.codec.Fits n
  decideFits
    | propose p => Proposal.codec.decideFits p
    | vote v => Vote.codec.decideFits v
    | timeout t => Timeout.codec.decideFits t
    | newView n => NewView.codec.decideFits n

end Message

end Equivocation
