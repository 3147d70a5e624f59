import Equivocation.Replica.State

namespace Equivocation

def SyncInfo.certifiedView? (s : SyncInfo) : Option View :=
  match s.tc, s.qc with
  | none, none => none
  | some tc, none => some tc.view
  | none, some qc => some qc.view
  | some tc, some qc => some (if tc.view ≤ qc.view then qc.view else tc.view)

namespace Replica

variable (seat : Seat)

def insertBlock (b : Block) (t : Turn Replica) : Turn Replica :=
  if t.state.chain.contains b.hash then t
  else
    (t.modify fun r => { r with chain := r.chain.insert b }).publish (.insertBlock b)

/-- The node is named in the command so that twins propose different blocks. -/
def nextBlock (r : Replica) : Block :=
  .ofContents
    { parent := r.highQc.block
      justify := some r.highQc
      command := Bytes.utf8 s!"node {seat.node} view {r.view}"
      view := r.view
      proposer := seat.replica }

def propose (t : Turn Replica) : Turn Replica :=
  if t.state.view ≤ t.state.lastProposed then t
  else
    let t := t.modify fun r => { r with lastProposed := r.view }
    let b := nextBlock seat t.state
    ((insertBlock b t).publish (.propose ⟨b⟩)).send .all (.propose ⟨b⟩)

/-- The leader of the view proposes, everyone else tells the leader what they know. -/
def enterView (v : View) (t : Turn Replica) : Turn Replica :=
  let t := t.modify fun r =>
    { r with
      view := v
      viewTicks := 0
      votes := r.votes.pruneBelow (v.sub 1)
      timeouts := r.timeouts.pruneBelow v }
  let t := say seat (.entered v) (t.publish (.startView (seat.leader v) v))
  match seat.leader v with
  | none => t
  | some leader =>
    if leader = seat.replica then propose seat t
    else
      let n := ⟨v, t.state.sync⟩
      (t.publish (.newView leader n)).send (.replica leader) (.newView n)

def adoptTc (tc : TimeoutCertificate) (t : Turn Replica) : Bool × Turn Replica :=
  let (valid, r) := checkTc seat tc t.state
  let t := { t with state := r }
  if valid then
    let newer :=
      match r.highTc with
      | none => true
      | some high => high.view < tc.view
    (true, if newer then t.modify fun r => { r with highTc := some tc } else t)
  else (false, say seat .invalidTc t)

def adoptQc (qc : QuorumCertificate) (t : Turn Replica) : Bool × Turn Replica :=
  let (valid, r) := checkQc seat qc t.state
  let t := { t with state := r }
  if valid then
    (true, if r.highQc.view < qc.view then t.modify fun r => { r with highQc := qc } else t)
  else (false, say seat .invalidQc t)

/-- Takes over certificates, the timeout certificate first, and enters the view after the highest
one they certify unless that is a past one. An invalid certificate ends it. -/
def advance (s : SyncInfo) (t : Turn Replica) : Turn Replica :=
  let (valid, t) := (s.tc.map (adoptTc seat · t)).getD (true, t)
  if !valid then t
  else
    let (valid, t) := (s.qc.map (adoptQc seat · t)).getD (true, t)
    if !valid then t
    else
      match s.certifiedView? with
      | none => t
      | some v => if t.state.view ≤ v then enterView seat v.next t else t

end Replica

end Equivocation
