import Equivocation.Replica.Views

namespace Equivocation.Replica

variable (rules : Rules) (seat : Seat)

def commitBlock (b : Block) (t : Turn Replica) : Turn Replica :=
  (t.modify fun r => { r with executed := b.hash, committed := r.committed ++ [b.hash] }).publish
    (.commitBlock b.hash b.view)

def executedView (r : Replica) : View := ((r.chain.get? r.executed).map (·.view)).getD .zero

/-- Commits a block and its uncommitted ancestors, oldest first; or nothing, if a block between it
and the last committed one is unknown. -/
def commit (hash : Hash) (t : Turn Replica) : Turn Replica :=
  match t.state.chain.get? hash with
  | none => say seat (.notCommitted hash hash) t
  | some b =>
    let line := t.state.chain.lineage b
    let fresh := line.takeWhile fun x => t.state.executedView < x.view
    if fresh.length = line.length then
      say seat (.notCommitted hash ((line.getLast?.map (·.parent)).getD hash)) t
    else fresh.reverse.foldl (fun t x => commitBlock x t) t

def castVote (b : Block) (t : Turn Replica) : Turn Replica :=
  let (s, r) := sign seat b.hash
    { t.state with safety := { t.state.safety with lastVote := b.view } }
  let v : Vote := ⟨b.view, b.hash, s⟩
  let t := { t with state := r }.publish (.vote v)
  match seat.leader b.view.next with
  | some leader => t.send (.replica leader) (.vote v)
  | none => say seat (.noNextLeader b.view.next) t

/-- Locks and commits what a block with known ancestry brings about, then votes for the block if
that is still possible. -/
def judge (b : Block) (t : Turn Replica) : Turn Replica :=
  let c := rules.consequence t.state.chain t.state.safety b
  let t := c.remarks.foldl (fun t r => t.remark r) t
  let t := t.modify fun r => { r with safety := c.relock r.safety }
  let t :=
    match c.commit with
    | none => t
    | some h => commit seat h t
  let r := t.state
  if r.safety.lastVote < b.view && rules.mayVote r.chain r.safety b r.view then castVote seat b t
  else t

/-- A proposal of the leader with a valid certificate brings the instance up to its view. The block
is stored, but nothing more is done with it while an ancestor is unknown. -/
def onProposal (origin : ReplicaId) (b : Block) (qc : QuorumCertificate) (t : Turn Replica) :
    Turn Replica :=
  if seat.leader b.view ≠ some origin then say seat (.notLeader b.view origin) t
  else
    let (valid, r) := checkQc seat qc t.state
    let t := { t with state := r }
    if !valid then say seat (.invalidProposal b.view) t
    else
      let t := advance seat { qc := some qc } t
      if b.view < t.state.view then say seat (.staleProposal b.view t.state.view) t
      else
        let t := insertBlock b t
        if t.state.chain.hasAncestry b then judge rules seat b t
        else say seat (.unknownAncestry b.hash b.view) t

/-- Votes of a view are collected in the next view at the latest, and for known blocks of their
view only. -/
def onVote (origin : ReplicaId) (v : Vote) (t : Turn Replica) : Turn Replica :=
  if v.view.next < t.state.view then t
  else if (t.state.chain.get? v.block).map (·.view) ≠ some v.view then
    say seat (.unknownBlock v.block) t
  else
    let (valid, r) := checkSignature seat v.signature v.block t.state
    let t := { t with state := r }
    if !valid then say seat (.invalidVote origin) t
    else
      let (qc?, votes) := VoteCollector.collect (electorate seat) v.view v.block v.signature r.votes
      let t := { t with state := { r with votes } }
      match qc? with
      | none => t
      | some qc => advance seat { qc := some qc } (t.publish (.collectQc qc))

/-- A timeout of no past view counts with a valid signature over its view and a valid certificate,
which is taken over first if it is newer. -/
def onTimeout (origin : ReplicaId) (m : Timeout) (t : Turn Replica) : Turn Replica :=
  if m.view < t.state.view then t
  else
    let (signed, r) := checkSignature seat m.signature m.view.hash t.state
    let (valid, r) := if signed then checkQc seat m.highQc r else (false, r)
    let t := { t with state := r }
    if !valid then say seat (.invalidTimeout m.view origin) t
    else
      let t :=
        if t.state.highQc.view < m.highQc.view then advance seat { qc := some m.highQc } t else t
      let (certified?, timeouts) :=
        TimeoutCollector.collect (electorate seat) m.view m.signature m.highQc t.state.timeouts
      let t := t.modify fun r => { r with timeouts }
      match certified? with
      | none => t
      | some (tc, highest) =>
        advance seat { qc := some highest, tc := some tc } (t.publish (.collectTc tc))

def announce (origin : ReplicaId) (m : Message) (t : Turn Replica) : Turn Replica :=
  match m with
  | .propose p => t.publish (.receiveProposal origin p)
  | .vote v => t.publish (.receiveVote origin v)
  | .timeout _ => t
  | .newView _ => t

def receive (origin : ReplicaId) (m : Message) (r : Replica) : Turn Replica :=
  let t := announce origin m { state := r }
  match m.impossibility? origin with
  | some i => { t with halt := some (.fault i.fault) }
  | none =>
    match m with
    | .propose p =>
      match p.block.justify with
      | none => t
      | some qc => onProposal rules seat origin p.block qc t
    | .vote v => onVote seat origin v t
    | .timeout m => onTimeout seat origin m t
    | .newView n => advance seat n.sync t

def start (r : Replica) : Turn Replica := advance seat { qc := some .genesis } { state := r }

/-- Gives up on the current view: no more votes in it, and a timeout to everyone. -/
def giveUp (t : Turn Replica) : Turn Replica :=
  let v := t.state.view
  let safety := t.state.safety
  let safety := if safety.lastVote < v then { safety with lastVote := v } else safety
  let (s, r) := sign seat v.hash { t.state with safety }
  let m : Timeout := ⟨v, s, r.highQc⟩
  ({ t with state := r }.publish (.timeout m)).send .all (.timeout m)

/-- One tick of the view timer, which starts anew when it runs out. -/
def tick (r : Replica) : Turn Replica :=
  if seat.viewTimeout ≤ r.viewTicks + 1 then giveUp seat { state := { r with viewTicks := 0 } }
  else { state := { r with viewTicks := r.viewTicks + 1 } }

end Equivocation.Replica

namespace Equivocation

def Rules.protocol (rules : Rules) : Protocol where
  State := Replica
  create _ := {}
  start := Replica.start
  receive := Replica.receive rules
  tick := Replica.tick
  view r := r.view

end Equivocation
