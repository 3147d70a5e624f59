import Equivocation.Collector
import Equivocation.Protocol
import Equivocation.Rules

namespace Equivocation

structure Replica where
  chain : Chain := .initial
  safety : Safety := {}
  executed : Hash := Block.genesisHash
  highQc : QuorumCertificate := .genesis
  highTc : Option TimeoutCertificate := none
  view : View := .zero
  viewTicks : Nat := 0
  lastProposed : View := .zero
  votes : VoteCollector := []
  timeouts : TimeoutCollector := []
  committed : List Hash := []
  signatures : SignatureCache := {}

inductive Replica.Remark where
  | notLeader (view : View) (sender : ReplicaId)
  | invalidProposal (view : View)
  | staleProposal (view current : View)
  | unknownAncestry (block : Hash) (view : View)
  | unknownBlock (block : Hash)
  | invalidVote (sender : ReplicaId)
  | invalidTimeout (view : View) (sender : ReplicaId)
  | invalidTc
  | invalidQc
  | entered (view : View)
  | noNextLeader (view : View)
  | notCommitted (block unknown : Hash)

def Replica.Remark.record (node : NodeId) : Replica.Remark → LogRecord
  | notLeader view sender =>
    ⟨.debug, s!"node {node}: ignoring proposal for view {view} from non-leader {sender}"⟩
  | invalidProposal view =>
    ⟨.debug, s!"node {node}: ignoring proposal for view {view} with an invalid certificate"⟩
  | staleProposal view current =>
    ⟨.debug, s!"node {node}: ignoring stale proposal for view {view} in view {current}"⟩
  | unknownAncestry block view =>
    ⟨.debug, s!"node {node}: holding back block {block} of view {view}: ancestry unknown"⟩
  | unknownBlock block => ⟨.trace, s!"node {node}: ignoring vote for unknown block {block}"⟩
  | invalidVote sender =>
    ⟨.debug, s!"node {node}: ignoring vote with an invalid signature from {sender}"⟩
  | invalidTimeout view sender =>
    ⟨.debug, s!"node {node}: ignoring invalid timeout for view {view} from {sender}"⟩
  | invalidTc => ⟨.debug, s!"node {node}: ignoring invalid timeout certificate"⟩
  | invalidQc => ⟨.debug, s!"node {node}: ignoring invalid quorum certificate"⟩
  | entered view => ⟨.trace, s!"node {node}: entered view {view}"⟩
  | noNextLeader view =>
    ⟨.trace, s!"node {node}: view {view} has no leader to send the vote to"⟩
  | notCommitted block unknown =>
    ⟨.debug, s!"node {node}: not committing {block}: ancestor {unknown} is unknown"⟩

namespace Replica

variable (seat : Seat)

def electorate : Electorate := ⟨seat.replicas, quorumSize seat.replicas.length⟩

def say (r : Remark) (t : Turn Replica) : Turn Replica := t.remark (r.record seat.node)

/-- The certificates to share: the timeout certificate only goes along if it is the newer one. -/
def sync (r : Replica) : SyncInfo :=
  { qc := some r.highQc
    tc :=
      match r.highTc with
      | none => none
      | some tc => if r.highQc.view < tc.view then some tc else none }

/-- A certificate is valid if its signers are distinct, its signatures form a quorum, and the
certified block, when it is known, is of the certificate's view. -/
def checkQc (qc : QuorumCertificate) (r : Replica) : Bool × Replica :=
  if qc.hasDistinctSigners then
    let (valid, signatures) := SignatureCache.verifyQc seat.policy qc r.signatures
    let labelled :=
      match r.chain.get? qc.block with
      | none => true
      | some b => b.view = qc.view
    (valid && labelled, { r with signatures })
  else (false, r)

def checkTc (tc : TimeoutCertificate) (r : Replica) : Bool × Replica :=
  if tc.hasDistinctSigners then
    let (valid, signatures) := SignatureCache.verifyTc seat.policy tc r.signatures
    (valid, { r with signatures })
  else (false, r)

def checkSignature (s : Signature) (hash : Hash) (r : Replica) : Bool × Replica :=
  let (valid, signatures) := SignatureCache.verify seat.policy s hash r.signatures
  (valid, { r with signatures })

def sign (hash : Hash) (r : Replica) : Signature × Replica :=
  let (s, signatures) := SignatureCache.sign seat.policy hash r.signatures
  (s, { r with signatures })

end Replica

end Equivocation
