import Equivocation.Proofs.Turns
import Mathlib.Data.List.Induction

namespace Equivocation.Proofs.Conduct

open Relation Replica Adoption Turns

def cast? : Effect → Option Vote
  | .publish (.vote v) => some v
  | _ => none

def posted? : Effect → Option Vote
  | .send _ (.vote v) => some v
  | _ => none

def resigned? : Effect → Option Timeout
  | .send _ (.timeout m) => some m
  | _ => none

def offered? : Effect → Option Block
  | .send _ (.propose p) => some p.block
  | _ => none

@[simp] theorem cast?_vote (v : Vote) : cast? (.publish (.vote v)) = some v := rfl

@[simp] theorem cast?_timeout (m : Timeout) : cast? (.publish (.timeout m)) = none := rfl

@[simp] theorem cast?_send (whom : Recipients) (m : Message) : cast? (.send whom m) = none := rfl

@[simp] theorem posted?_publish (e : Event) : posted? (.publish e) = none := rfl

@[simp] theorem resigned?_publish (e : Event) : resigned? (.publish e) = none := rfl

@[simp] theorem resigned?_timeout (whom : Recipients) (m : Timeout) :
    resigned? (.send whom (.timeout m)) = some m := rfl

@[simp] theorem offered?_publish (e : Event) : offered? (.publish e) = none := rfl

@[simp] theorem offered?_propose (whom : Recipients) (p : Proposal) :
    offered? (.send whom (.propose p)) = some p.block := rfl

def chronicle (rules : Rules) (seat : Seat) (inputs : List Input) : Turn Replica :=
  inputs.foldl
    (fun t input =>
      let t' := input.react rules seat t.state
      { state := t'.state, effects := t.effects ++ t'.effects })
    { state := {} }

def Free : Effect → Prop
  | .send _ (.newView _) => True
  | .send _ _ => False
  | .publish (.vote _) => False
  | _ => True

structure Aside (t t' : Turn Replica) : Prop where
  voted : t'.state.safety.lastVote = t.state.safety.lastVote
  proposed : t'.state.lastProposed = t.state.lastProposed
  view : t.state.view ≤ t'.state.view
  free : ∃ es, t'.effects = t.effects ++ es ∧ ∀ e ∈ es, Free e

inductive BindingStep (seat : Seat) (input : Input) (t t' : Turn Replica) : Prop
  | aside (idle : Aside t t')
  | propose {b : Block} {es : List Effect} (led : seat.leader t.state.view = some seat.replica)
      (first : t.state.lastProposed < t.state.view) (own : b.view = t.state.view)
      (recorded : t'.state.lastProposed = b.view)
      (voted : t'.state.safety.lastVote = t.state.safety.lastVote)
      (view : t'.state.view = t.state.view) (free : ∀ e ∈ es, Free e)
      (shown : t'.effects = t.effects ++ (es ++ [.send .all (.propose ⟨b⟩)]))
  | vote {b : Block} {s : Signature} {e : Effect}
      (offered : input = .message b.proposer (.propose ⟨b⟩))
      (led : seat.leader b.view = some b.proposer) (first : t.state.safety.lastVote < b.view)
      (recorded : t'.state.safety.lastVote = b.view)
      (proposed : t'.state.lastProposed = t.state.lastProposed)
      (view : t'.state.view = t.state.view)
      (mail : Free e ∨ ∃ l, e = .send (.replica l) (.vote ⟨b.view, b.hash, s⟩))
      (shown : t'.effects = t.effects ++ [.publish (.vote ⟨b.view, b.hash, s⟩), e])
  | giveUp {m : Timeout} (voted : t.state.safety.lastVote ≤ t'.state.safety.lastVote)
      (recorded : m.view ≤ t'.state.safety.lastVote)
      (proposed : t'.state.lastProposed = t.state.lastProposed)
      (view : t'.state.view = t.state.view)
      (shown : t'.effects = t.effects ++ [.publish (.timeout m), .send .all (.timeout m)])

abbrev BindingSteps (seat : Seat) (input : Input) : Turn Replica → Turn Replica → Prop :=
  ReflTransGen (BindingStep seat input)

variable {rules : Rules} {seat : Seat} {input : Input} {t t' t'' : Turn Replica} {s : SyncInfo}
  {b : Block} {origin : ReplicaId} {e : Effect} {es : List Effect}

theorem Aside.refl (t : Turn Replica) : Aside t t :=
  ⟨rfl, rfl, Nat.le_refl _, [], (List.append_nil _).symm, by simp⟩

theorem Aside.trans (h : Aside t t') (h' : Aside t' t'') : Aside t t'' := by
  obtain ⟨es, he, hf⟩ := h.free
  obtain ⟨es', he', hf'⟩ := h'.free
  refine ⟨h'.voted.trans h.voted, h'.proposed.trans h.proposed, Nat.le_trans h.view h'.view,
    es ++ es', by rw [he', he, List.append_assoc], fun e hm => ?_⟩
  exact (List.mem_append.mp hm).elim (hf e) (hf' e)

theorem Aside.emit (he : Free e) : Aside t (t.emit e) :=
  ⟨rfl, rfl, Nat.le_refl _, [e], rfl, by simpa using he⟩

theorem Aside.say (m : Remark) : Aside t (say seat m t) := .emit trivial

theorem Aside.effects (hf : ∀ e ∈ es, Free e) : Aside t { t with effects := t.effects ++ es } :=
  ⟨rfl, rfl, Nat.le_refl _, es, rfl, hf⟩

theorem Aside.state {r : Replica} (hv : r.safety.lastVote = t.state.safety.lastVote)
    (hp : r.lastProposed = t.state.lastProposed) (hw : t.state.view ≤ r.view) :
    Aside t { t with state := r } := ⟨hv, hp, hw, [], (List.append_nil _).symm, by simp⟩

theorem Aside.modify {f : Replica → Replica}
    (hv : (f t.state).safety.lastVote = t.state.safety.lastVote)
    (hp : (f t.state).lastProposed = t.state.lastProposed) (hw : t.state.view ≤ (f t.state).view) :
    Aside t (t.modify f) := .state hv hp hw

theorem free_insertion (c : Chain) (b : Block) : ∀ e ∈ insertion c b, Free e := by
  unfold insertion
  split
  · simp
  · intro e he
    rw [List.mem_singleton.mp he]
    trivial

theorem Aside.insertBlock (b : Block) (t : Turn Replica) : Aside t (insertBlock b t) := by
  rw [insertBlock_eq]
  exact (Aside.effects (free_insertion t.state.chain b)).trans (.state rfl rfl (Nat.le_refl _))

def arrival (seat : Seat) (v : View) (t : Turn Replica) : Turn Replica :=
  { t with
    state := entered v t.state
    effects := t.effects ++
      [.publish (.startView (seat.leader v) v), .remark ((Remark.entered v).record seat.node)] }

theorem enterView_eq (v : View) (t : Turn Replica) :
    enterView seat v t =
      match seat.leader v with
      | none => arrival seat v t
      | some leader =>
        if leader = seat.replica then propose seat (arrival seat v t)
        else
          { arrival seat v t with
            effects := (arrival seat v t).effects ++
              [.publish (.newView leader ⟨v, (entered v t.state).sync⟩),
                .send (.replica leader) (.newView ⟨v, (entered v t.state).sync⟩)] } := by
  have ha : say seat (.entered v) ((t.modify (entered v)).publish
      (.startView (seat.leader v) v)) = arrival seat v t := by
    simp [arrival, say, Turn.modify, Turn.publish, Turn.remark, Turn.emit]
  have he : enterView seat v t =
      match seat.leader v with
      | none =>
        say seat (.entered v) ((t.modify (entered v)).publish (.startView (seat.leader v) v))
      | some leader =>
        if leader = seat.replica then propose seat (say seat (.entered v)
          ((t.modify (entered v)).publish (.startView (seat.leader v) v)))
        else
          ((say seat (.entered v) ((t.modify (entered v)).publish
            (.startView (seat.leader v) v))).publish
              (.newView leader ⟨v, (entered v t.state).sync⟩)).send
            (.replica leader) (.newView ⟨v, (entered v t.state).sync⟩) := rfl
  rw [he, ha]
  simp [Turn.publish, Turn.send, Turn.emit]

theorem propose_eq (hf : t.state.lastProposed < t.state.view) :
    propose seat t =
      { t with
        state :=
          { t.state with
            lastProposed := t.state.view
            chain := t.state.chain.insert (nextBlock seat t.state) }
        effects := t.effects ++ (insertion t.state.chain (nextBlock seat t.state) ++
          [.publish (.propose ⟨nextBlock seat t.state⟩)] ++
            [.send .all (.propose ⟨nextBlock seat t.state⟩)]) } := by
  unfold propose
  rw [if_neg (show ¬ t.state.view ≤ t.state.lastProposed from Nat.not_le_of_lt hf)]
  dsimp only
  rw [insertBlock_eq]
  simp only [Turn.send, Turn.publish, Turn.emit, List.append_assoc]
  rfl

theorem propose_of_past (hf : ¬ t.state.lastProposed < t.state.view) : propose seat t = t :=
  if_pos (show t.state.view ≤ t.state.lastProposed from Nat.le_of_not_lt hf)

theorem propose_bindingSteps (hl : seat.leader t.state.view = some seat.replica) :
    BindingSteps seat input t (propose seat t) := by
  by_cases hf : t.state.lastProposed < t.state.view
  · have hfree : ∀ e ∈ insertion t.state.chain (nextBlock seat t.state) ++
        [.publish (.propose ⟨nextBlock seat t.state⟩)], Free e := fun e he =>
      (List.mem_append.mp he).elim (free_insertion _ _ e) fun he => by
        rw [List.mem_singleton.mp he]
        trivial
    rw [propose_eq hf]
    exact .single (.propose hl hf rfl rfl rfl rfl hfree rfl)
  · rw [propose_of_past hf]

theorem enterView_bindingSteps {v : View} (hv : t.state.view ≤ v) :
    BindingSteps seat input t (enterView seat v t) := by
  have ha : Aside t (arrival seat v t) := ⟨rfl, rfl, hv, _, rfl, by simp [Free]⟩
  rw [enterView_eq]
  cases hl : seat.leader v with
  | none => exact .single (.aside ha)
  | some leader =>
    dsimp only
    split
    · rename_i he
      exact .head (.aside ha) (propose_bindingSteps (t := arrival seat v t) (he ▸ hl))
    · exact .single (.aside (ha.trans (.effects (by simp [Free]))))

theorem advance_bindingSteps (s : SyncInfo) (t : Turn Replica) :
    BindingSteps seat input t (advance seat s t) := by
  have hspec := advance_spec seat s t
  generalize advance seat s t = t' at hspec
  cases hspec with
  | refused signatures kept timed void =>
    exact .single (.aside ((Aside.modify rfl rfl (Nat.le_refl _)).trans (.say .invalidTc)))
  | torn signatures kept voted void valid =>
    exact .single (.aside ((Aside.modify rfl rfl (Nat.le_refl _)).trans (.say .invalidQc)))
  | taken signatures kept valid =>
    refine .head (.aside (.modify (f := fun r =>
      { r with signatures, highTc := takeTc r.highTc s.tc, highQc := takeQc r.highQc s.qc })
      rfl rfl (Nat.le_refl _))) ?_
    unfold enterCertified
    split
    · exact .refl
    · split
      · rename_i v _ hv
        exact enterView_bindingSteps (Nat.le_trans hv (View.le_next v))
      · exact .refl

theorem Aside.commit (h : Hash) (t : Turn Replica) : Aside t (commit seat h t) := by
  unfold Replica.commit
  split
  · exact .say _
  · dsimp only
    split
    · exact .say _
    · rw [foldl_commitBlock]
      refine ⟨rfl, rfl, Nat.le_refl _, _, rfl, fun e he => ?_⟩
      obtain ⟨x, rfl⟩ := mem_settlement he
      trivial

theorem castVote_bindingStep (hi : input = .message b.proposer (.propose ⟨b⟩))
    (hl : seat.leader b.view = some b.proposer) (hf : t.state.safety.lastVote < b.view) :
    BindingStep seat input t (castVote seat b t) := by
  have hm : ∀ (r : Replica) (v : Vote) (e : Effect), v.view = b.view → v.block = b.hash →
      r.safety.lastVote = b.view → r.lastProposed = t.state.lastProposed →
      r.view = t.state.view → (Free e ∨ ∃ l, e = .send (.replica l) (.vote v)) →
      BindingStep seat input t (({ t with state := r }.publish (.vote v)).emit e) := by
    intro r v e hv hb hr hp hw he
    obtain ⟨v, h, s⟩ := v
    obtain rfl := hv
    obtain rfl := hb
    refine .vote hi hl hf hr hp hw he ?_
    simp [Turn.publish, Turn.emit]
  unfold castVote
  dsimp only
  split
  · rename_i leader _
    exact hm _ _ _ rfl rfl rfl rfl rfl (.inr ⟨leader, rfl⟩)
  · exact hm _ _ _ rfl rfl rfl rfl rfl (.inl trivial)

theorem lastVote_relock (c : Rules.Consequence) (s : Safety) :
    (c.relock s).lastVote = s.lastVote := by
  unfold Rules.Consequence.relock
  split
  · rfl
  · rfl

theorem judge_bindingSteps (hi : input = .message b.proposer (.propose ⟨b⟩))
    (hl : seat.leader b.view = some b.proposer) :
    BindingSteps seat input t (judge rules seat b t) := by
  unfold judge
  dsimp only
  rw [foldl_remark]
  have hr : Aside t { t with
      effects := t.effects ++
        (rules.consequence t.state.chain t.state.safety b).remarks.map .remark } :=
    .effects (by simp [Free])
  refine .head (.aside hr) ?_
  refine .head (.aside (.modify (f := fun r => { r with
    safety := (rules.consequence t.state.chain t.state.safety b).relock r.safety })
    (lastVote_relock _ _) rfl (Nat.le_refl _))) ?_
  generalize Turn.modify _ _ = t₁
  have hv : ∀ t : Turn Replica, BindingSteps seat input t
      (if t.state.safety.lastVote < b.view &&
        rules.mayVote t.state.chain t.state.safety b t.state.view then castVote seat b t
        else t) := by
    intro t
    split
    · rename_i h
      exact .single (castVote_bindingStep hi hl (of_decide_eq_true (Bool.and_eq_true_iff.mp h).1))
    · exact .refl
  cases (rules.consequence t.state.chain t.state.safety b).commit with
  | none => exact hv t₁
  | some h => exact .head (.aside (.commit h t₁)) (hv _)

theorem onProposal_bindingSteps {qc : QuorumCertificate} (ho : b.proposer = origin)
    (hi : input = .message origin (.propose ⟨b⟩)) :
    BindingSteps seat input t (onProposal rules seat origin b qc t) := by
  subst ho
  unfold onProposal
  split
  · exact .single (.aside (.say _))
  · rename_i hl
    obtain ⟨signatures, -, hs⟩ := checkQc_state seat qc t.state
    generalize checkQc seat qc t.state = checked at hs
    obtain ⟨valid, r⟩ := checked
    obtain rfl := hs
    refine .head (.aside (.state (r := { t.state with signatures }) rfl rfl (Nat.le_refl _))) ?_
    cases valid with
    | false => exact .single (.aside (.say _))
    | true =>
      refine (advance_bindingSteps { qc := some qc } _).trans ?_
      simp only [Bool.not_true, Bool.false_eq_true, if_false]
      generalize advance seat { qc := some qc } _ = t₁
      split
      · exact .single (.aside (.say _))
      · refine .head (.aside (.insertBlock b t₁)) ?_
        split
        · exact judge_bindingSteps hi (Decidable.not_not.mp hl)
        · exact .single (.aside (.say _))

theorem onVote_bindingSteps {v : Vote} : BindingSteps seat input t (onVote seat origin v t) := by
  unfold onVote
  split
  · exact .refl
  · split
    · exact .single (.aside (.say _))
    · obtain ⟨signatures, -, hs⟩ := checkSignature_state seat v.signature v.block t.state
      generalize checkSignature seat v.signature v.block t.state = checked at hs
      obtain ⟨valid, r⟩ := checked
      obtain rfl := hs
      refine .head (.aside (.state (r := { t.state with signatures }) rfl rfl (Nat.le_refl _))) ?_
      cases valid with
      | false => exact .single (.aside (.say _))
      | true =>
        simp only [Bool.not_true, Bool.false_eq_true, if_false]
        generalize VoteCollector.collect (electorate seat) v.view v.block v.signature
          t.state.votes = collected
        obtain ⟨qc?, votes⟩ := collected
        refine .head (.aside (.state (r := { t.state with signatures, votes }) rfl rfl
          (Nat.le_refl _))) ?_
        cases qc? with
        | none => exact .refl
        | some qc =>
          exact .head (.aside (.emit (e := .publish (.collectQc qc)) trivial))
            (advance_bindingSteps _ _)

theorem onTimeout_bindingSteps {m : Timeout} :
    BindingSteps seat input t (onTimeout seat origin m t) := by
  obtain ⟨signatures, -, hs⟩ := checkTimeout_state seat m t.state
  unfold onTimeout
  split
  · exact .refl
  · dsimp only
    generalize (if (checkSignature seat m.signature m.view.hash t.state).1 then
        checkQc seat m.highQc (checkSignature seat m.signature m.view.hash t.state).2
      else (false, (checkSignature seat m.signature m.view.hash t.state).2)) = checked at hs
    obtain ⟨valid, r⟩ := checked
    obtain rfl := hs
    refine .head (.aside (.state (r := { t.state with signatures }) rfl rfl (Nat.le_refl _))) ?_
    cases valid with
    | false => exact .single (.aside (.say _))
    | true =>
      simp only [Bool.not_true, Bool.false_eq_true, if_false]
      generalize ht : (if t.state.highQc.view < m.highQc.view then
        advance seat { qc := some m.highQc } { t with state := { t.state with signatures } }
        else { t with state := { t.state with signatures } }) = t₁
      have hn : BindingSteps seat input { t with state := { t.state with signatures } } t₁ := by
        rw [← ht]
        split
        · exact advance_bindingSteps _ _
        · exact .refl
      refine hn.trans ?_
      generalize TimeoutCollector.collect (electorate seat) m.view m.signature m.highQc
        t₁.state.timeouts = collected
      obtain ⟨certified?, timeouts⟩ := collected
      refine .head (.aside (.modify (f := fun r => { r with timeouts }) rfl rfl
        (Nat.le_refl _))) ?_
      cases certified? with
      | none => exact .refl
      | some x =>
        exact .head (.aside (.emit (e := .publish (.collectTc x.1)) trivial))
          (advance_bindingSteps _ _)

theorem Aside.announce (m : Message) (t : Turn Replica) : Aside t (announce origin m t) := by
  cases m with
  | propose p => exact .emit trivial
  | vote v => exact .emit trivial
  | timeout m => exact .refl t
  | newView n => exact .refl t

theorem proposer_of_possible (hp : (Message.propose ⟨b⟩).impossibility? origin = none) :
    b.proposer = origin := by
  unfold Message.impossibility? at hp
  dsimp only at hp
  split at hp
  · cases hp
  · split at hp
    · cases hp
    · split at hp
      · cases hp
      · split at hp
        · cases hp
        · rename_i h
          exact Decidable.not_not.mp h

theorem receive_bindingSteps (origin : ReplicaId) (m : Message) (r : Replica) :
    BindingSteps seat (.message origin m) { state := r } (receive rules seat origin m r) := by
  have ha := @Aside.announce origin m { state := r }
  unfold receive
  cases hm : m.impossibility? origin with
  | some i => exact .single (.aside ⟨ha.voted, ha.proposed, ha.view, ha.free⟩)
  | none =>
    refine .head (.aside ha) ?_
    cases m with
    | propose p =>
      dsimp only
      split
      · exact .refl
      · exact onProposal_bindingSteps (proposer_of_possible hm) rfl
    | vote v => exact onVote_bindingSteps
    | timeout m => exact onTimeout_bindingSteps
    | newView n => exact advance_bindingSteps _ _

theorem giveUp_bindingStep (t : Turn Replica) : BindingStep seat input t (giveUp seat t) := by
  refine .giveUp ?_ ?_ rfl rfl (m := ⟨t.state.view, (sign seat t.state.view.hash t.state).1,
    t.state.highQc⟩) ?_
  · change t.state.safety.lastVote ≤ Safety.lastVote (ite _ _ _)
    split
    · rename_i h
      exact Nat.le_of_lt h
    · exact Nat.le_refl _
  · change t.state.view ≤ Safety.lastVote (ite _ _ _)
    split
    · exact Nat.le_refl _
    · rename_i h
      exact Nat.le_of_not_lt h
  · change _ ++ [_] ++ [_] = _
    rw [List.append_assoc]
    rfl

theorem tick_bindingSteps (r : Replica) : BindingSteps seat input { state := r } (tick seat r) := by
  unfold tick
  split
  · refine .head (.aside (.state (r := { r with viewTicks := 0 }) rfl rfl (Nat.le_refl _))) ?_
    exact .single (giveUp_bindingStep _)
  · exact .single (.aside (.state rfl rfl (Nat.le_refl _)))

theorem react_bindingSteps (r : Replica) :
    BindingSteps seat input { state := r } (input.react rules seat r) := by
  cases input with
  | start => exact advance_bindingSteps { qc := some .genesis } { state := r }
  | message origin m => exact receive_bindingSteps origin m r
  | tick => exact tick_bindingSteps r

/-- What must not come after what: no vote after one of the same or a later view, nor after a
timeout of the same or a later view, and no proposal after one of the same or a later view. -/
structure MayPrecede (e e' : Effect) : Prop where
  votes : ∀ v w, cast? e = some v → cast? e' = some w → v.view < w.view
  timeouts : ∀ m w, resigned? e = some m → cast? e' = some w ∨ posted? e' = some w →
    m.view < w.view
  proposals : ∀ b c, offered? e = some b → offered? e' = some c → b.view < c.view

structure BoundInOrder (seat : Seat) (inputs : List Input) (r : Replica) (es : List Effect) :
    Prop where
  ordered : es.Pairwise MayPrecede
  voted : ∀ e ∈ es, ∀ v, cast? e = some v → v.view ≤ r.safety.lastVote
  resigned : ∀ e ∈ es, ∀ m, resigned? e = some m → m.view ≤ r.safety.lastVote
  proposed : ∀ e ∈ es, ∀ b, offered? e = some b → b.view ≤ r.lastProposed
  led : ∀ e ∈ es, ∀ b, offered? e = some b → seat.leader b.view = some seat.replica
  offered : ∀ e ∈ es, ∀ v, cast? e = some v → ∃ b : Block,
    .message b.proposer (.propose ⟨b⟩) ∈ inputs ∧ b.view = v.view ∧ b.hash = v.block ∧
      seat.leader b.view = some b.proposer
  posted : (es.filterMap posted?).Sublist (es.filterMap cast?)

variable {inputs : List Input} {r r' : Replica} {es' : List Effect}

theorem Free.silent (hf : Free e) :
    cast? e = none ∧ posted? e = none ∧ resigned? e = none ∧ offered? e = none := by
  cases e with
  | publish event =>
    cases event with
    | vote v => exact hf.elim
    | _ => exact ⟨rfl, rfl, rfl, rfl⟩
  | send whom m =>
    cases m with
    | newView n => exact ⟨rfl, rfl, rfl, rfl⟩
    | _ => exact hf.elim
  | remark record => exact ⟨rfl, rfl, rfl, rfl⟩

theorem boundInOrder_of_free (hf : ∀ e ∈ es, Free e) : BoundInOrder seat inputs r es := by
  have hn := fun e he => (hf e he).silent
  have hc : ∀ e ∈ es, cast? e = none := fun e he => (hn e he).1
  have hs : ∀ e ∈ es, posted? e = none := fun e he => (hn e he).2.1
  have hr : ∀ e ∈ es, resigned? e = none := fun e he => (hn e he).2.2.1
  have hb : ∀ e ∈ es, offered? e = none := fun e he => (hn e he).2.2.2
  refine ⟨List.pairwise_of_forall_mem_list fun e he e' he' => ⟨?_, ?_, ?_⟩, ?_, ?_, ?_, ?_, ?_, ?_⟩
  · simp [hc e he]
  · simp [hr e he]
  · simp [hb e he]
  · exact fun e he v h => by simp [hc e he] at h
  · exact fun e he m h => by simp [hr e he] at h
  · exact fun e he b h => by simp [hb e he] at h
  · exact fun e he b h => by simp [hb e he] at h
  · exact fun e he v h => by simp [hc e he] at h
  · rw [List.filterMap_eq_nil_iff.mpr hs]
    exact List.nil_sublist _

/-- New actions come after the earlier ones if they are ahead of where the instance stood. -/
theorem BoundInOrder.append (h : BoundInOrder seat inputs r es)
    (h' : BoundInOrder seat inputs r' es')
    (hv : r.safety.lastVote ≤ r'.safety.lastVote) (hp : r.lastProposed ≤ r'.lastProposed)
    (hvotes : ∀ e ∈ es', ∀ w, cast? e = some w ∨ posted? e = some w → r.safety.lastVote < w.view)
    (hoffers : ∀ e ∈ es', ∀ b, offered? e = some b → r.lastProposed < b.view) :
    BoundInOrder seat inputs r' (es ++ es') := by
  refine ⟨List.pairwise_append.mpr ⟨h.ordered, h'.ordered, fun e he e' he' => ⟨?_, ?_, ?_⟩⟩,
    ?_, ?_, ?_, ?_, ?_, ?_⟩
  · exact fun v w hc hc' => Nat.lt_of_le_of_lt (h.voted e he v hc) (hvotes e' he' w (.inl hc'))
  · exact fun m w hc hc' => Nat.lt_of_le_of_lt (h.resigned e he m hc) (hvotes e' he' w hc')
  · exact fun b c hc hc' => Nat.lt_of_le_of_lt (h.proposed e he b hc) (hoffers e' he' c hc')
  · exact fun e he v hc => (List.mem_append.mp he).elim
      (fun he => Nat.le_trans (h.voted e he v hc) hv) fun he => h'.voted e he v hc
  · exact fun e he m hc => (List.mem_append.mp he).elim
      (fun he => Nat.le_trans (h.resigned e he m hc) hv) fun he => h'.resigned e he m hc
  · exact fun e he b hc => (List.mem_append.mp he).elim
      (fun he => Nat.le_trans (h.proposed e he b hc) hp) fun he => h'.proposed e he b hc
  · exact fun e he => (List.mem_append.mp he).elim (h.led e) (h'.led e)
  · exact fun e he => (List.mem_append.mp he).elim (h.offered e) (h'.offered e)
  · rw [List.filterMap_append, List.filterMap_append]
    exact h.posted.append h'.posted

theorem boundInOrder_of_offer (hb : b.view ≤ r.lastProposed)
    (hl : seat.leader b.view = some seat.replica) :
    BoundInOrder seat inputs r [.send .all (.propose ⟨b⟩)] where
  ordered := List.pairwise_singleton _ _
  voted := by simp
  resigned := by simp [resigned?]
  proposed := by simpa using hb
  led := by simpa using hl
  offered := by simp
  posted := List.Sublist.refl []

theorem boundInOrder_of_resignation {m : Timeout} (hm : m.view ≤ r.safety.lastVote) :
    BoundInOrder seat inputs r [.publish (.timeout m), .send .all (.timeout m)] where
  ordered := List.pairwise_pair.mpr ⟨by simp, by simp, by simp⟩
  voted := by simp
  resigned := by simpa using hm
  proposed := by simp [offered?]
  led := by simp [offered?]
  offered := by simp
  posted := List.Sublist.refl []

theorem boundInOrder_of_vote {v : Vote} (hv : v.view ≤ r.safety.lastVote)
    (ho : ∃ b : Block, .message b.proposer (.propose ⟨b⟩) ∈ inputs ∧ b.view = v.view ∧
      b.hash = v.block ∧ seat.leader b.view = some b.proposer)
    (he : Free e ∨ ∃ l, e = .send (.replica l) (.vote v)) :
    BoundInOrder seat inputs r [.publish (.vote v), e] := by
  have hn : cast? e = none ∧ resigned? e = none ∧ offered? e = none := by
    obtain he | ⟨l, rfl⟩ := he
    · exact ⟨he.silent.1, he.silent.2.2⟩
    · exact ⟨rfl, rfl, rfl⟩
  obtain ⟨hc, hr, hb⟩ := hn
  refine ⟨List.pairwise_pair.mpr ⟨?_, ?_, ?_⟩, ?_, ?_, ?_, ?_, ?_, ?_⟩
  · simp [hc]
  · simp
  · simp
  · simpa [hc] using hv
  · simp [hr]
  · simp [hb]
  · simp [hb]
  · simpa [hc] using ho
  · obtain he | ⟨l, rfl⟩ := he
    · rw [List.filterMap_cons_none (posted?_publish _), List.filterMap_cons_none he.silent.2.1]
      exact List.nil_sublist _
    · exact List.Sublist.refl [v]

theorem bindingStep_boundInOrder {past : List Effect} (hs : BindingStep seat input t t')
    (hi : input ∈ inputs) (h : BoundInOrder seat inputs t.state (past ++ t.effects)) :
    BoundInOrder seat inputs t'.state (past ++ t'.effects) := by
  cases hs with
  | aside idle =>
    obtain ⟨es, he, hf⟩ := idle.free
    have hn := fun e he => (hf e he).silent
    rw [he, ← List.append_assoc]
    refine h.append (boundInOrder_of_free hf) (Nat.le_of_eq (congrArg _ idle.voted.symm))
      (Nat.le_of_eq (congrArg _ idle.proposed.symm)) ?_ ?_
    · exact fun e he w hw => by simp [hn e he] at hw
    · exact fun e he b hb => by simp [hn e he] at hb
  | @propose b es led first own recorded voted view free shown =>
    have hn := fun e he => (free e he).silent
    have hp : t.state.lastProposed < b.view := own ▸ first
    rw [shown, ← List.append_assoc, ← List.append_assoc]
    have ha := h.append (boundInOrder_of_free (r := t.state) free) (Nat.le_refl _) (Nat.le_refl _)
      (fun e he w hw => by simp [hn e he] at hw) (fun e he b hb => by simp [hn e he] at hb)
    refine ha.append (boundInOrder_of_offer (Nat.le_of_eq (congrArg _ recorded.symm)) (own ▸ led))
      (Nat.le_of_eq (congrArg _ voted.symm)) (Nat.le_of_lt (recorded ▸ hp)) ?_ ?_
    · simp [posted?]
    · simpa using hp
  | @vote b s e offered led first recorded proposed view mail shown =>
    rw [shown, ← List.append_assoc]
    refine h.append (boundInOrder_of_vote (Nat.le_of_eq (congrArg _ recorded.symm))
      ⟨b, offered ▸ hi, rfl, rfl, led⟩ mail) (Nat.le_of_lt (recorded ▸ first))
      (Nat.le_of_eq (congrArg _ proposed.symm)) ?_ ?_
    · obtain he | ⟨l, rfl⟩ := mail
      · simpa [he.silent] using first
      · simpa [posted?] using first
    · obtain he | ⟨l, rfl⟩ := mail
      · simp [he.silent]
      · simp [offered?]
  | @giveUp m voted recorded proposed view shown =>
    rw [shown, ← List.append_assoc]
    refine h.append (boundInOrder_of_resignation recorded) voted
      (Nat.le_of_eq (congrArg _ proposed.symm)) ?_ ?_
    · simp [posted?]
    · simp [offered?]

theorem bindingSteps_boundInOrder {past : List Effect} (hs : BindingSteps seat input t t')
    (hi : input ∈ inputs) (h : BoundInOrder seat inputs t.state (past ++ t.effects)) :
    BoundInOrder seat inputs t'.state (past ++ t'.effects) := by
  induction hs with
  | refl => exact h
  | tail _ hs ih => exact bindingStep_boundInOrder hs hi ih

theorem chronicle_concat (inputs : List Input) (input : Input) :
    chronicle rules seat (inputs ++ [input]) =
      { state := (input.react rules seat (chronicle rules seat inputs).state).state
        effects := (chronicle rules seat inputs).effects ++
          (input.react rules seat (chronicle rules seat inputs).state).effects } := by
  simp [chronicle]

theorem BoundInOrder.mono {seen : List Input} (h : BoundInOrder seat seen r es)
    (hs : seen ⊆ inputs) :
    BoundInOrder seat inputs r es :=
  { h with
    offered := fun e he v hc =>
      have ⟨b, hb, hr⟩ := h.offered e he v hc
      ⟨b, hs hb, hr⟩ }

theorem chronicle_boundInOrder (rules : Rules) (seat : Seat) (inputs : List Input) :
    BoundInOrder seat inputs (chronicle rules seat inputs).state
      (chronicle rules seat inputs).effects := by
  induction inputs using List.reverseRecOn with
  | nil => exact boundInOrder_of_free (by simp [chronicle])
  | append_singleton inputs input ih =>
    have hs := @react_bindingSteps rules seat input (chronicle rules seat inputs).state
    rw [chronicle_concat]
    refine bindingSteps_boundInOrder hs (by simp) ?_
    rw [List.append_nil]
    exact ih.mono (List.subset_append_left _ _)

/-- An instance does not equivocate, whatever it is fed and in whatever order: the views it votes
in strictly ascend, also past every view it has given up on before; the views it proposes in
strictly ascend and are led by its own replica; and each of its votes is for a block that it got
from the leader of the block's view. It sends no votes but those it casts, each at most once. -/
theorem never_equivocates (rules : Rules) (seat : Seat) (inputs : List Input) :
    let es := (chronicle rules seat inputs).effects
    (es.filterMap cast?).Pairwise (fun v w => v.view < w.view) ∧
      (es.filterMap posted?).Sublist (es.filterMap cast?) ∧
      es.Pairwise (fun e e' => ∀ m v, resigned? e = some m →
        cast? e' = some v ∨ posted? e' = some v → m.view < v.view) ∧
      (es.filterMap offered?).Pairwise (fun b c => b.view < c.view) ∧
      (∀ b ∈ es.filterMap offered?, seat.leader b.view = some seat.replica) ∧
      ∀ v ∈ es.filterMap cast?, ∃ b : Block, .message b.proposer (.propose ⟨b⟩) ∈ inputs ∧
        b.view = v.view ∧ b.hash = v.block ∧ seat.leader b.view = some b.proposer := by
  have h := chronicle_boundInOrder rules seat inputs
  refine ⟨?_, h.posted, h.ordered.imp fun h => h.timeouts, ?_, ?_, ?_⟩
  · exact h.ordered.filterMap _ fun e e' h v hv w hw => h.votes v w hv hw
  · exact h.ordered.filterMap _ fun e e' h b hb c hc => h.proposals b c hb hc
  · intro b hb
    obtain ⟨e, he, hb⟩ := List.mem_filterMap.mp hb
    exact h.led e he b hb
  · intro v hv
    obtain ⟨e, he, hv⟩ := List.mem_filterMap.mp hv
    exact h.offered e he v hv

end Equivocation.Proofs.Conduct
