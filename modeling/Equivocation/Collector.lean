import Equivocation.Certificate
import Equivocation.Table

namespace Equivocation

def quorumSize (n : Nat) : Nat := n - (n - 1) / 3

structure Electorate where
  replicas : List ReplicaId
  quorum : Nat

abbrev VoteCollector := Table (View × Hash) (List Signature)

/-- The signatures collected for each view, in order of arrival, with the earliest of the highest
certificates that came with them. -/
abbrev TimeoutCollector := Table View (List Signature × QuorumCertificate)

variable (electorate : Electorate)

/-- A signature counts if it is by a replica that has none in the set yet. -/
def Electorate.admits (s : Signature) (collected : List Signature) : Bool :=
  electorate.replicas.contains s.signer && !collected.any (·.signer = s.signer)

/-- Adds a valid vote. A set that reaches the quorum leaves the collector as a certificate. -/
def VoteCollector.collect (view : View) (block : Hash) (s : Signature) (votes : VoteCollector) :
    Option QuorumCertificate × VoteCollector :=
  let collected := (votes.get? (view, block)).getD []
  if electorate.admits s collected then
    let signatures := collected ++ [s]
    if electorate.quorum ≤ signatures.length then
      (some ⟨view, block, signatures⟩, votes.erase (view, block))
    else (none, votes.set (view, block) signatures)
  else (none, votes)

def VoteCollector.pruneBelow (view : View) (votes : VoteCollector) : VoteCollector :=
  votes.filter fun entry => view ≤ entry.1.1

def TimeoutCollector.collect (view : View) (s : Signature) (highQc : QuorumCertificate)
    (timeouts : TimeoutCollector) :
    Option (TimeoutCertificate × QuorumCertificate) × TimeoutCollector :=
  let (collected, highest) := (timeouts.get? view).getD ([], highQc)
  if electorate.admits s collected then
    let signatures := collected ++ [s]
    let highest := if highest.view < highQc.view then highQc else highest
    if electorate.quorum ≤ signatures.length then
      (some (⟨view, signatures⟩, highest), timeouts.erase view)
    else (none, timeouts.set view (signatures, highest))
  else (none, timeouts)

def TimeoutCollector.pruneBelow (view : View) (timeouts : TimeoutCollector) : TimeoutCollector :=
  timeouts.filter fun entry => view ≤ entry.1

end Equivocation
