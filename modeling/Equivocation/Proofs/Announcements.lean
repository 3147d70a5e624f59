import Equivocation.Proofs.Dispatch
import Equivocation.Proofs.Lockstep

namespace Equivocation.Proofs.Announcements

open Replica Adoption Ancestry Turns Conduct States Timeline Handover
open Lockstep (relocked judge_eq)

section Views

def committed? : Event → Option Hash
  | .commitBlock h _ => some h
  | _ => none

def inserted? : Event → Option Block
  | .insertBlock b => some b
  | _ => none

def started? : Event → Option View
  | .startView _ v => some v
  | _ => none

/-- The message that goes with an event, and whom it is for. A vote goes to the leader of the view
after the block's, and nowhere if that view has none. -/
def letter? (seat : Seat) : Event → Option (Recipients × Message)
  | .propose p => some (.all, .propose p)
  | .vote v => (seat.leader v.view.next).map fun leader => (.replica leader, .vote v)
  | .newView leader n => some (.replica leader, .newView n)
  | .timeout m => some (.all, .timeout m)
  | _ => none

def shown (es : List Effect) : List Event := ({ state := (), effects := es } : Turn Unit).events

def mailed (es : List Effect) : List (Recipients × Message) :=
  ({ state := (), effects := es } : Turn Unit).sent

variable (es es' : List Effect) (e : Event) (whom : Recipients) (m : Message) (r : LogRecord)

@[simp] theorem shown_nil : shown [] = [] := rfl

@[simp] theorem shown_append : shown (es ++ es') = shown es ++ shown es' := List.filterMap_append

@[simp] theorem shown_publish : shown (.publish e :: es) = e :: shown es := rfl

@[simp] theorem shown_send : shown (.send whom m :: es) = shown es := rfl

@[simp] theorem shown_remark : shown (.remark r :: es) = shown es := rfl

@[simp] theorem mailed_nil : mailed [] = [] := rfl

@[simp] theorem mailed_append : mailed (es ++ es') = mailed es ++ mailed es' :=
  List.filterMap_append

@[simp] theorem mailed_publish : mailed (.publish e :: es) = mailed es := rfl

@[simp] theorem mailed_send : mailed (.send whom m :: es) = (whom, m) :: mailed es := rfl

@[simp] theorem mailed_remark : mailed (.remark r :: es) = mailed es := rfl

end Views

def DistinctHashes (c : Chain) : Prop := (c.blocks.map (·.hash)).Nodup

structure Announces (seat : Seat) (r : Replica) (es : List Effect) (r' : Replica) : Prop where
  committed : r'.committed = r.committed ++ (shown es).filterMap committed?
  stored : r'.chain.blocks = ((shown es).filterMap inserted?).reverse ++ r.chain.blocks
  view : r'.view = ((shown es).filterMap started?).getLast?.getD r.view
  mail : mailed es = (shown es).filterMap (letter? seat)
  apart : DistinctHashes r.chain → DistinctHashes r'.chain

def Announced (seat : Seat) (t t' : Turn Replica) : Prop :=
  ∃ es, t'.effects = t.effects ++ es ∧ Announces seat t.state es t'.state

def Silent : Effect → Prop
  | .remark _ => True
  | .publish (.receiveProposal _ _) => True
  | .publish (.receiveVote _ _) => True
  | .publish (.collectQc _) => True
  | .publish (.collectTc _) => True
  | _ => False

variable {rules : Rules} {seat : Seat} {input : Input} {t t' t'' : Turn Replica}
  {r r' r'' : Replica} {es es' : List Effect} {e : Effect} {b : Block} {origin : ReplicaId}
  {q : QuorumCertificate}

section Composition

theorem Announces.trans (h : Announces seat r es r') (h' : Announces seat r' es' r'') :
    Announces seat r (es ++ es') r'' where
  committed := by simp [h'.committed, h.committed]
  stored := by simp [h'.stored, h.stored]
  view := by
    rw [h'.view, h.view, shown_append, List.filterMap_append, List.getLast?_append]
    cases ((shown es').filterMap started?).getLast? <;> rfl
  mail := by simp [h'.mail, h.mail]
  apart := h'.apart ∘ h.apart

theorem Silent.nothing (hs : ∀ e ∈ es, Silent e) :
    mailed es = [] ∧ ∀ e ∈ shown es, committed? e = none ∧ inserted? e = none ∧
      started? e = none ∧ letter? seat e = none := by
  induction es with
  | nil => exact ⟨rfl, nofun⟩
  | cons e es ih =>
    obtain ⟨he, hes⟩ := List.forall_mem_cons.mp hs
    obtain ⟨hm, hn⟩ := ih hes
    cases e with
    | remark r => exact ⟨hm, hn⟩
    | send whom m => exact he.elim
    | publish e =>
      refine ⟨hm, List.forall_mem_cons.mpr ⟨?_, hn⟩⟩
      cases e with
      | receiveProposal | receiveVote | collectQc | collectTc => exact ⟨rfl, rfl, rfl, rfl⟩
      | _ => exact he.elim

theorem Announces.silent (hs : ∀ e ∈ es, Silent e) (hc : r'.committed = r.committed)
    (hb : r'.chain = r.chain) (hv : r'.view = r.view) : Announces seat r es r' := by
  obtain ⟨hm, hn⟩ := @Silent.nothing seat es hs
  have hcommitted := List.filterMap_eq_nil_iff.mpr fun e he => (hn e he).1
  have hinserted := List.filterMap_eq_nil_iff.mpr fun e he => (hn e he).2.1
  have hstarted := List.filterMap_eq_nil_iff.mpr fun e he => (hn e he).2.2.1
  have hletter := List.filterMap_eq_nil_iff.mpr fun e he => (hn e he).2.2.2
  refine ⟨?_, ?_, ?_, hm.trans hletter.symm, fun h => hb ▸ h⟩
  · rw [hcommitted, hc, List.append_nil]
  · rw [hinserted, hb]
    rfl
  · rw [hstarted, hv]
    rfl

theorem Announced.refl (t : Turn Replica) : Announced seat t t :=
  ⟨[], (List.append_nil _).symm, .silent (by simp) rfl rfl rfl⟩

theorem Announced.trans (h : Announced seat t t') (h' : Announced seat t' t'') :
    Announced seat t t'' := by
  obtain ⟨es, he, ht⟩ := h
  obtain ⟨es', he', ht'⟩ := h'
  exact ⟨es ++ es', by rw [he', he, List.append_assoc], ht.trans ht'⟩

theorem Announced.state (hc : r.committed = t.state.committed) (hb : r.chain = t.state.chain)
    (hv : r.view = t.state.view) : Announced seat t { t with state := r } :=
  ⟨[], (List.append_nil _).symm, .silent (by simp) hc hb hv⟩

theorem Announced.effects (hs : ∀ e ∈ es, Silent e) :
    Announced seat t { t with effects := t.effects ++ es } := ⟨es, rfl, .silent hs rfl rfl rfl⟩

theorem Announced.emit (he : Silent e) : Announced seat t (t.emit e) := .effects (by simpa using he)

theorem Announced.say (m : Remark) : Announced seat t (say seat m t) := .emit trivial

end Composition

section Handlers

theorem distinctHashes_insert (h : DistinctHashes r.chain) (b : Block) :
    DistinctHashes (r.chain.insert b) := by
  unfold Chain.insert
  split
  · exact h
  · rename_i hb
    refine List.nodup_cons.mpr ⟨fun hm => hb ?_, h⟩
    obtain ⟨x, hx, hxb⟩ := List.mem_map.mp hm
    exact List.find?_isSome.mpr ⟨x, hx, decide_eq_true hxb⟩

theorem announces_insert (r : Replica) (b : Block) :
    Announces seat r (insertion r.chain b) { r with chain := r.chain.insert b } := by
  have ha : DistinctHashes r.chain → DistinctHashes (r.chain.insert b) :=
    fun h => distinctHashes_insert h b
  unfold insertion
  unfold Chain.insert at ha ⊢
  split
  · exact .silent (by simp) rfl rfl rfl
  · rename_i hb
    rw [if_neg hb] at ha
    exact ⟨(List.append_nil _).symm, rfl, rfl, rfl, ha⟩

theorem Announced.insertBlock (b : Block) (t : Turn Replica) :
    Announced seat t (insertBlock b t) := by
  rw [insertBlock_eq]
  exact ⟨_, rfl, announces_insert t.state b⟩

theorem announces_settlement (r : Replica) (bs : List Block) :
    Announces seat r (settlement bs) (settle bs r) := by
  have hs : shown (settlement bs) = bs.reverse.map fun x => .commitBlock x.hash x.view := by
    unfold settlement
    induction bs.reverse with
    | nil => rfl
    | cons x xs ih => rw [List.map_cons, shown_publish, ih, List.map_cons]
  have hm : mailed (settlement bs) = [] := by
    unfold settlement
    induction bs.reverse with
    | nil => rfl
    | cons x xs ih => rw [List.map_cons, mailed_publish, ih]
  have hc : (shown (settlement bs)).filterMap committed? = bs.reverse.map (·.hash) := by
    rw [hs, List.filterMap_map]
    exact congrFun List.filterMap_eq_map _
  have hn : ∀ e ∈ shown (settlement bs),
      inserted? e = none ∧ started? e = none ∧ letter? seat e = none := by
    intro e he
    obtain ⟨x, -, rfl⟩ := List.mem_map.mp (hs ▸ he)
    exact ⟨rfl, rfl, rfl⟩
  have hi := List.filterMap_eq_nil_iff.mpr fun e he => (hn e he).1
  have hv := List.filterMap_eq_nil_iff.mpr fun e he => (hn e he).2.1
  have hl := List.filterMap_eq_nil_iff.mpr fun e he => (hn e he).2.2
  exact ⟨by rw [hc]; rfl, by rw [hi]; rfl, by rw [hv]; rfl, by rw [hm, hl], id⟩

theorem Announced.mail {whom : Recipients} {m : Message} {event : Event}
    (hc : committed? event = none) (hi : inserted? event = none) (hv : started? event = none)
    (hm : letter? seat event = some (whom, m)) :
    Announced seat t ((t.publish event).send whom m) := by
  refine ⟨[.publish event, .send whom m], List.append_assoc _ _ _, ?_, ?_, ?_, ?_, id⟩
  · simp [hc, Turn.send, Turn.publish, Turn.emit]
  · simp [hi, Turn.send, Turn.publish, Turn.emit]
  · simp [hv, Turn.send, Turn.publish, Turn.emit]
  · simp [hm]

theorem Announced.arrival (v : View) (t : Turn Replica) : Announced seat t (arrival seat v t) :=
  ⟨_, rfl, (List.append_nil _).symm, rfl, rfl, rfl, id⟩

theorem Announced.propose (t : Turn Replica) : Announced seat t (propose seat t) := by
  unfold Replica.propose
  split
  · exact .refl t
  · dsimp only
    refine .trans (.state (r := { t.state with lastProposed := t.state.view }) rfl rfl rfl) ?_
    exact (Announced.insertBlock _ _).trans (.mail rfl rfl rfl rfl)

theorem Announced.enterView (v : View) (t : Turn Replica) :
    Announced seat t (enterView seat v t) := by
  have ha := @Announced.arrival seat v t
  rw [enterView_eq]
  cases seat.leader v with
  | none => exact ha
  | some leader =>
    dsimp only
    split
    · exact ha.trans (.propose _)
    · refine ha.trans ?_
      have hm := @Announced.mail seat (Conduct.arrival seat v t) (.replica leader)
        (.newView ⟨v, (entered v t.state).sync⟩) (.newView leader ⟨v, (entered v t.state).sync⟩)
        rfl rfl rfl rfl
      simpa [Turn.send, Turn.publish, Turn.emit] using hm

theorem Announced.advance (s : SyncInfo) (t : Turn Replica) :
    Announced seat t (advance seat s t) := by
  have hspec := advance_spec seat s t
  generalize Replica.advance seat s t = t' at hspec
  cases hspec with
  | refused signatures kept timed void =>
    exact (Announced.state (r := { t.state with signatures }) rfl rfl rfl).trans (.say .invalidTc)
  | torn signatures kept voted void valid =>
    refine .trans (.state (r := { t.state with signatures, highTc := takeTc t.state.highTc s.tc })
      rfl rfl rfl) (.say .invalidQc)
  | taken signatures kept valid =>
    refine .trans (.state (r :=
      { t.state with
        signatures
        highTc := takeTc t.state.highTc s.tc
        highQc := takeQc t.state.highQc s.qc }) rfl rfl rfl) ?_
    unfold enterCertified
    split
    · exact .refl _
    · split
      · exact .enterView _ _
      · exact .refl _

theorem Announced.commit (h : Hash) (t : Turn Replica) : Announced seat t (commit seat h t) := by
  unfold Replica.commit
  split
  · exact .say _
  · dsimp only
    split
    · exact .say _
    · rw [foldl_commitBlock]
      exact ⟨_, rfl, announces_settlement t.state _⟩

/-- A vote is sent unless nobody leads the view after the block's. -/
theorem Announced.castVote (b : Block) (t : Turn Replica) :
    Announced seat t (castVote seat b t) := by
  unfold Replica.castVote
  dsimp only
  refine .trans (.state (r := (sign seat b.hash
    { t.state with safety := { t.state.safety with lastVote := b.view } }).2) rfl rfl rfl) ?_
  split
  · rename_i leader hl
    refine .mail rfl rfl rfl ?_
    simp [letter?, hl]
  · rename_i hl
    refine ⟨_, List.append_assoc _ _ _, (List.append_nil _).symm, rfl, rfl, ?_, id⟩
    simp [letter?, hl]

theorem Announced.judge (b : Block) (t : Turn Replica) :
    Announced seat t (judge rules seat b t) := by
  have hr : Announced seat t (relocked (rules.consequence t.state.chain t.state.safety b) t) :=
    ⟨_, rfl, .silent (by simp [Silent]) rfl rfl rfl⟩
  have hc : Announced seat t ((rules.consequence t.state.chain t.state.safety b).commit.elim
      (relocked (rules.consequence t.state.chain t.state.safety b) t)
      (Replica.commit seat · (relocked (rules.consequence t.state.chain t.state.safety b) t))) := by
    cases (rules.consequence t.state.chain t.state.safety b).commit with
    | none => exact hr
    | some h => exact hr.trans (.commit h _)
  rw [judge_eq rfl rfl]
  split
  · exact hc.trans (.castVote b _)
  · exact hc

theorem Announced.onProposal : Announced seat t (onProposal rules seat origin b q t) := by
  unfold Replica.onProposal
  split
  · exact .say _
  · obtain ⟨signatures, -, hs⟩ := checkQc_state seat q t.state
    generalize checkQc seat q t.state = checked at hs
    obtain ⟨valid, r⟩ := checked
    obtain rfl := hs
    refine .trans (.state (r := { t.state with signatures }) rfl rfl rfl) ?_
    cases valid with
    | false => exact .say _
    | true =>
      refine (Announced.advance { qc := some q } _).trans ?_
      simp only [Bool.not_true, Bool.false_eq_true, if_false]
      split
      · exact .say _
      · refine (Announced.insertBlock b _).trans ?_
        split
        · exact .judge b _
        · exact .say _

theorem Announced.onVote {v : Vote} : Announced seat t (onVote seat origin v t) := by
  unfold Replica.onVote
  split
  · exact .refl t
  · split
    · exact .say _
    · obtain ⟨signatures, -, hs⟩ := checkSignature_state seat v.signature v.block t.state
      generalize checkSignature seat v.signature v.block t.state = checked at hs
      obtain ⟨valid, r⟩ := checked
      obtain rfl := hs
      refine .trans (.state (r := { t.state with signatures }) rfl rfl rfl) ?_
      cases valid with
      | false => exact .say _
      | true =>
        simp only [Bool.not_true, Bool.false_eq_true, if_false]
        generalize VoteCollector.collect (electorate seat) v.view v.block v.signature
          t.state.votes = collected
        obtain ⟨qc?, votes⟩ := collected
        refine .trans (.state (r := { t.state with signatures, votes }) rfl rfl rfl) ?_
        cases qc? with
        | none => exact .refl _
        | some qc =>
          exact (Announced.emit (e := .publish (.collectQc qc)) trivial).trans (.advance _ _)

theorem Announced.onTimeout {m : Timeout} : Announced seat t (onTimeout seat origin m t) := by
  unfold Replica.onTimeout
  split
  · exact .refl t
  · obtain ⟨signatures, -, hs⟩ := checkTimeout_state seat m t.state
    dsimp only
    generalize (if (checkSignature seat m.signature m.view.hash t.state).1 then
        checkQc seat m.highQc (checkSignature seat m.signature m.view.hash t.state).2
      else (false, (checkSignature seat m.signature m.view.hash t.state).2)) = checked at hs
    obtain ⟨valid, r⟩ := checked
    obtain rfl := hs
    refine .trans (.state (r := { t.state with signatures }) rfl rfl rfl) ?_
    cases valid with
    | false => exact .say _
    | true =>
      simp only [Bool.not_true, Bool.false_eq_true, if_false]
      generalize ht : (if t.state.highQc.view < m.highQc.view then
        Replica.advance seat { qc := some m.highQc } { t with state := { t.state with signatures } }
        else { t with state := { t.state with signatures } }) = t₁
      have hn : Announced seat { t with state := { t.state with signatures } } t₁ := by
        rw [← ht]
        split
        · exact .advance _ _
        · exact .refl _
      refine hn.trans ?_
      generalize TimeoutCollector.collect (electorate seat) m.view m.signature m.highQc
        t₁.state.timeouts = collected
      obtain ⟨certified?, timeouts⟩ := collected
      refine .trans (.state (r := { t₁.state with timeouts }) rfl rfl rfl) ?_
      cases certified? with
      | none => exact .refl _
      | some x =>
        exact (Announced.emit (e := .publish (.collectTc x.1)) trivial).trans (.advance _ _)

theorem Announced.giveUp (t : Turn Replica) : Announced seat t (giveUp seat t) := by
  unfold Replica.giveUp
  dsimp only
  generalize (if t.state.safety.lastVote < t.state.view then _ else _) = safety
  exact .trans (.state (r := (sign seat t.state.view.hash { t.state with safety }).2) rfl rfl rfl)
    (.mail rfl rfl rfl rfl)

theorem Announced.announce (m : Message) (t : Turn Replica) :
    Announced seat t (announce origin m t) := by
  cases m with
  | propose p => exact .emit trivial
  | vote v => exact .emit trivial
  | timeout m => exact .refl t
  | newView n => exact .refl t

theorem announced_receive (origin : ReplicaId) (m : Message) (r : Replica) :
    Announced seat { state := r } (receive rules seat origin m r) := by
  have ha := @Announced.announce seat origin m { state := r }
  unfold receive
  cases m.impossibility? origin with
  | some i => exact ha
  | none =>
    refine ha.trans ?_
    cases m with
    | propose p =>
      dsimp only
      split
      · exact .refl _
      · exact .onProposal
    | vote v => exact .onVote
    | timeout m => exact .onTimeout
    | newView n => exact .advance _ _

theorem announced_tick (r : Replica) : Announced seat { state := r } (tick seat r) := by
  unfold tick
  split
  · have hreset : Announced seat { state := r } { state := { r with viewTicks := 0 } } :=
      .state rfl rfl rfl
    exact hreset.trans (.giveUp _)
  · exact .state rfl rfl rfl

theorem announces_react (input : Input) (r : Replica) :
    Announces seat r (input.react rules seat r).effects (input.react rules seat r).state := by
  have ht : Announced seat { state := r } (input.react rules seat r) := by
    cases input with
    | start => exact .advance { qc := some .genesis } { state := r }
    | message origin m => exact announced_receive origin m r
    | tick => exact announced_tick r
  obtain ⟨es, he, ht⟩ := ht
  rw [he]
  exact ht

end Handlers

section Histories

/-- All that there is to say about an instance can be read off its events: its commits in order,
its blocks apart from the initial one, its view, and the messages it sent. -/
structure TruthfulEvents (seat : Seat) (t : Turn Replica) : Prop where
  committed : t.state.committed = t.events.filterMap committed?
  stored : t.state.chain.blocks = (t.events.filterMap inserted?).reverse ++ [.genesis]
  once : ((.genesis :: t.events.filterMap inserted?).map (·.hash)).Nodup
  view : t.state.view = (t.events.filterMap started?).getLast?.getD .zero
  mail : t.sent = t.events.filterMap (letter? seat)

theorem announces_chronicle (inputs : List Input) :
    Announces seat {} (chronicle rules seat inputs).effects
      (chronicle rules seat inputs).state := by
  induction inputs using List.reverseRecOn with
  | nil => exact .silent (by simp [chronicle]) rfl rfl rfl
  | append_singleton inputs input ih =>
    rw [chronicle_concat]
    exact ih.trans (announces_react input _)

theorem truthfulEvents_chronicle (rules : Rules) (seat : Seat) (inputs : List Input) :
    TruthfulEvents seat (chronicle rules seat inputs) := by
  have ht := @announces_chronicle rules seat inputs
  have hstored : (chronicle rules seat inputs).state.chain.blocks =
      ((chronicle rules seat inputs).events.filterMap inserted?).reverse ++ [.genesis] := ht.stored
  refine ⟨ht.committed, hstored, ?_, ht.view, ht.mail⟩
  have ha : (Chain.blocks _).map (·.hash) |>.Nodup := ht.apart (List.nodup_singleton _)
  rw [hstored] at ha
  rw [← List.nodup_reverse, ← List.map_reverse, List.reverse_cons]
  exact ha

end Histories

section Runs

variable {i : Instance rules.protocol} {run run' : Run rules.protocol} {scheme : Scheme}
  {s : Scenario} {config : RunConfig} {k : Nat}

def Logged (i : Instance rules.protocol) : Prop :=
  i.commits ++ i.unread.filterMap committed? = (i.state : Replica).committed

def Lived (input : Input) (i : Instance rules.protocol) : Prop :=
  ∃ inputs, i.state = (chronicle rules i.seat (input :: inputs)).state

structure StartedAndLogged (rules : Rules) (i : Instance rules.protocol) : Prop where
  lived : Lived .start i
  logged : Logged i

theorem lived_first (hs : i.state = ({} : Replica)) (input : Input) :
    Lived input (tookTurn i (input.react rules i.seat i.state)) := by
  refine ⟨[], ?_⟩
  exact (congrArg (fun r => (input.react rules i.seat r).state) hs).trans
    (congrArg Turn.state (chronicle_concat [] input)).symm

theorem Lived.tookTurn {first : Input} (h : Lived first i) (input : Input) :
    Lived first (tookTurn i (input.react rules i.seat i.state)) := by
  obtain ⟨inputs, hs⟩ := h
  refine ⟨inputs ++ [input], ?_⟩
  rw [← List.cons_append]
  exact (congrArg (fun r => (input.react rules i.seat r).state) hs).trans
    (congrArg Turn.state (chronicle_concat _ input)).symm

theorem Logged.tookTurn (h : Logged i) (input : Input) :
    Logged (tookTurn i (input.react rules i.seat i.state)) := by
  have ht := @announces_react rules i.seat input i.state
  change i.commits ++ (i.unread ++ shown _).filterMap committed? = _
  rw [List.filterMap_append, ← List.append_assoc, h]
  exact ht.committed.symm

theorem StartedAndLogged.tookTurn (h : StartedAndLogged rules i) (input : Input) :
    StartedAndLogged rules (tookTurn i (input.react rules i.seat i.state)) :=
  ⟨h.lived.tookTurn input, h.logged.tookTurn input⟩

theorem StartedAndLogged.hear (h : StartedAndLogged rules i) (d : Delivery) :
    StartedAndLogged rules (hear i d) := by
  unfold Handover.hear
  split
  · exact h.tookTurn (.message d.origin d.message)
  · exact h

theorem StartedAndLogged.hears (h : StartedAndLogged rules i) (ds : List Delivery) :
    StartedAndLogged rules (ds.foldl Handover.hear i) := by
  induction ds generalizing i with
  | nil => exact h
  | cons d ds ih => exact ih (h.hear d)

theorem StartedAndLogged.read (h : StartedAndLogged rules i) : StartedAndLogged rules i.read := by
  refine ⟨h.lived, ?_⟩
  change (i.commits ++ i.unread.filterMap committed?) ++ [] = _
  rw [List.append_nil]
  exact h.logged

theorem opened_fresh (hi : i ∈ (opened scheme s config rules.protocol).instances) :
    i.state = ({} : Replica) ∧ Logged i := by
  obtain ⟨n, -, rfl⟩ := List.mem_map.mp hi
  exact ⟨rfl, rfl⟩

theorem startedAndLogged_started (hv : config.validate s = .ok ())
    (h : started scheme s config rules.protocol = .ok run) :
    ∀ i ∈ run.instances, StartedAndLogged rules i := by
  have hn : (opened scheme s config rules.protocol).nodes.Nodup := by
    have hw := Dispatch.nodup_assigned hv
    rwa [show (opened scheme s config rules.protocol).nodes = (wiring s config).nodes.map (·.1) from
      List.map_map]
  have hi := acts_instances hn hn h
  intro j hj
  rw [hi] at hj
  obtain ⟨i, him, rfl⟩ := List.mem_map.mp hj
  have hin : i.seat.node ∈ (opened scheme s config rules.protocol).nodes :=
    List.mem_map_of_mem him
  rw [if_pos hin]
  obtain ⟨hs, hl⟩ := opened_fresh him
  have hturn : rules.protocol.start i.seat i.state = Input.start.react rules i.seat i.state := by
    simp only [Rules.protocol, Input.react]
  rw [hturn]
  exact ⟨lived_first hs .start, hl.tookTurn .start⟩

theorem startedAndLogged_tick (hn : run.nodes.Nodup)
    (h : Run.tick config (wiring s config) run = .ok run')
    (hk : ∀ i ∈ run.instances, StartedAndLogged rules i) :
    ∀ i ∈ run'.instances, StartedAndLogged rules i := by
  intro j hj
  rw [tick_instances hn h] at hj
  obtain ⟨i, him, rfl⟩ := List.mem_map.mp hj
  exact (((hk i him).hears _).tookTurn .tick).read

theorem startedAndLogged_performed (hv : config.validate s = .ok ())
    (h : performed scheme s config rules.protocol k = some run) :
    ∀ i ∈ run.instances, StartedAndLogged rules i := by
  induction k generalizing run with
  | zero => exact startedAndLogged_started hv (performed_zero.mp h)
  | succ k ih =>
    obtain ⟨before, hb, -, ht⟩ := performed_succ.mp h
    have hn := (performed_frame hb).1 ▸ Dispatch.nodup_assigned hv
    exact startedAndLogged_tick hn ht (ih hb)

end Runs

/-- Events tell the truth about an instance, whatever it is fed and in whatever order; so the
commit logs of a run are what its instances have committed. -/
theorem events_truthful (rules : Rules) :
    (∀ seat inputs, TruthfulEvents seat (chronicle rules seat inputs)) ∧
      ∀ (scheme : Scheme) (s : Scenario) (config : RunConfig) (result : RunResult),
        (runProtocol scheme s config rules.protocol).result = .ok result →
          ∃ last, performed scheme s config rules.protocol result.ticks = some last ∧
            result.commitLog =
              last.instances.map (fun i => (i.seat.node, (i.state : Replica).committed)) ∧
            ∀ i ∈ last.instances, ∃ inputs,
              i.state = (chronicle rules i.seat (.start :: inputs)).state := by
  refine ⟨truthfulEvents_chronicle rules, fun scheme s config result h => ?_⟩
  obtain ⟨hv, last, hl, -, hr, -⟩ := runProtocol_ok h
  have hk := startedAndLogged_performed hv hl
  refine ⟨last, hl, ?_, fun i hi => (hk i hi).lived⟩
  rw [hr]
  refine List.map_map.trans (List.map_congr_left fun i hi => ?_)
  exact congrArg (i.seat.node, ·) (hk i hi).logged

end Equivocation.Proofs.Announcements
