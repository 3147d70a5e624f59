import Equivocation.Proofs.Lockstep

namespace Equivocation.Proofs.Handling

open Relation Replica Validity Adoption Ancestry Turns Conduct
open Lockstep (relocked judge_eq)

def Incidental (seat : Seat) : Effect → Prop
  | .publish (.vote _) => False
  | .publish (.commitBlock _ _) => False
  | .publish (.insertBlock _) => False
  | .publish _ => True
  | .send _ (.vote _) => False
  | .send _ _ => True
  | .remark r => ∀ b u, r ≠ (Remark.notCommitted b u).record seat.node

/-- What an instance can do in one go before it judges a block. What depends on an earlier check
refers to the state `before` the turn. -/
inductive Preparation (seat : Seat) (before : Replica) (input : Input) :
    Turn Replica → Turn Replica → Prop
  | emit {t} {e : Effect} (plain : Incidental seat e) : Preparation seat before input t (t.emit e)
  | halt {t} (h : Halt) : Preparation seat before input t { t with halt := some h }
  | count {t} (signatures : SignatureCache)
      (kept : Truthful seat.policy t.state.signatures → Truthful seat.policy signatures)
      (votes : VoteCollector) (timeouts : TimeoutCollector) (viewTicks : Nat) :
    Preparation seat before input t
      { t with state := { t.state with signatures, votes, timeouts, viewTicks } }
  | holdTc {t} {tc : TimeoutCertificate}
      (valid : Truthful seat.policy before.signatures → ValidTc seat.policy tc) :
    Preparation seat before input t { t with state := { t.state with highTc := some tc } }
  | holdQc {t} {q : QuorumCertificate} (newer : t.state.highQc.view < q.view)
      (valid : Truthful seat.policy before.signatures → ValidQc seat.policy t.state.chain q) :
    Preparation seat before input t { t with state := { t.state with highQc := q } }
  | enter {t} (v : View) :
    Preparation seat before input t { t with state := entered v.next t.state }
  | propose {t} (started : t.state.view ≠ .zero) :
    Preparation seat before input t
      (insertBlock (nextBlock seat t.state)
        { t with state := { t.state with lastProposed := t.state.view } })
  | store {t} {origin : ReplicaId} {b : Block} {q : QuorumCertificate}
      (offered : input = .message origin (.propose ⟨b⟩))
      (possible : (Message.propose ⟨b⟩).impossibility? origin = none)
      (carried : b.justify = some q) (checked : (checkQc seat q before).1 = true) :
    Preparation seat before input t (insertBlock b t)
  | giveUp {t} : Preparation seat before input t (giveUp seat t)

abbrev Preparations (seat : Seat) (before : Replica) (input : Input) :
    Turn Replica → Turn Replica → Prop :=
  ReflTransGen (Preparation seat before input)

structure Eligible (seat : Seat) (before : Replica) (input : Input) (origin : ReplicaId) (b : Block)
    (r : Replica) : Prop where
  offered : input = .message origin (.propose ⟨b⟩)
  possible : (Message.propose ⟨b⟩).impossibility? origin = none
  led : seat.leader b.view = some origin
  certified : ∃ q, b.justify = some q ∧ (checkQc seat q before).1 = true
  current : r.view ≤ b.view
  ancestry : r.chain.hasAncestry b = true

inductive TurnOutcome (rules : Rules) (seat : Seat) (before : Replica) (input : Input)
    (t : Turn Replica) : Turn Replica → Prop
  | passed {t'} (calls : Preparations seat before input t t')
      (ineligible : ∀ origin b, ¬ Eligible seat before input origin b t'.state) :
    TurnOutcome rules seat before input t t'
  | judged {t'} {origin : ReplicaId} {b : Block} (calls : Preparations seat before input t t')
      (eligible : Eligible seat before input origin b t'.state)
      (stored : t'.state.chain.contains b.hash = true) :
    TurnOutcome rules seat before input t (judge rules seat b t')

variable {rules : Rules} {seat : Seat} {before r : Replica} {input : Input} {t t' : Turn Replica}
  {s : SyncInfo} {b : Block} {origin : ReplicaId} {q : QuorumCertificate}

/-- What is said about a commit that is skipped is not said about anything else. -/
theorem record_ne_notCommitted {m : Remark} (hm : ∀ b u, m ≠ .notCommitted b u) (n : NodeId)
    (b u : Hash) : m.record n ≠ (Remark.notCommitted b u).record n := by
  intro h
  obtain ⟨hl, ht⟩ := LogRecord.mk.inj h
  have ht := congrArg String.toList ht
  have hs : ∀ s : String, toString s = s := fun _ => rfl
  cases m <;> simp [String.toList_append, hs] at hl ht hm

theorem say_preparations {m : Remark} (hm : ∀ b u, m ≠ .notCommitted b u) :
    Preparations seat before input t (say seat m t) :=
  .single (.emit fun b u => record_ne_notCommitted hm seat.node b u)

theorem publish_preparations {e : Event} (he : Incidental seat (.publish e)) :
    Preparations seat before input t (t.publish e) := .single (.emit he)

theorem send_preparations {whom : Recipients} {m : Message} (hm : Incidental seat (.send whom m)) :
    Preparations seat before input t (t.send whom m) := .single (.emit hm)

theorem cache_preparations (signatures : SignatureCache)
    (hk : Truthful seat.policy t.state.signatures → Truthful seat.policy signatures) :
    Preparations seat before input t { t with state := { t.state with signatures } } :=
  .single (.count signatures hk _ _ _)

theorem newer_of_takeQc (held : QuorumCertificate) (q? : Option QuorumCertificate) :
    takeQc held q? = held ∨ ∃ q, q? = some q ∧ takeQc held q? = q ∧ held.view < q.view := by
  unfold takeQc
  split
  · exact .inl rfl
  · split
    · rename_i h
      exact .inr ⟨_, rfl, rfl, h⟩
    · exact .inl rfl

theorem takeTc_preparations {tc? : Option TimeoutCertificate}
    (hv : Truthful seat.policy before.signatures → ∀ tc, tc? = some tc → ValidTc seat.policy tc) :
    Preparations seat before input t
      { t with state := { t.state with highTc := takeTc t.state.highTc tc? } } := by
  obtain he | ⟨tc, ht, he, -⟩ := takeTc_cases t.state.highTc tc?
  · rw [he]
  · rw [he]
    exact .single (.holdTc fun h => hv h tc ht)

theorem takeQc_preparations {q? : Option QuorumCertificate}
    (hv : Truthful seat.policy before.signatures →
      ∀ q, q? = some q → ValidQc seat.policy t.state.chain q) :
    Preparations seat before input t
      { t with state := { t.state with highQc := takeQc t.state.highQc q? } } := by
  obtain he | ⟨q, hq, he, hn⟩ := newer_of_takeQc t.state.highQc q?
  · rw [he]
  · rw [he]
    exact .single (.holdQc hn fun h => hv h q hq)

theorem hold_preparations
    (hv : Truthful seat.policy before.signatures → Valid seat.policy t.state.chain s) :
    Preparations seat before input t
      { t with
        state :=
          { t.state with
            highTc := takeTc t.state.highTc s.tc
            highQc := takeQc t.state.highQc s.qc } } := by
  refine (takeTc_preparations fun h => (hv h).1).trans ?_
  exact takeQc_preparations (t := { t with state := { t.state with highTc := _ } })
    fun h => (hv h).2

theorem propose_preparations (hv : t.state.view ≠ .zero) :
    Preparations seat before input t (propose seat t) := by
  unfold propose
  split
  · exact .refl
  · refine .head (.propose hv) ?_
    exact (publish_preparations (e := .propose _) trivial).trans (send_preparations trivial)

theorem enterView_preparations (v : View) :
    Preparations seat before input t (enterView seat v.next t) := by
  unfold enterView
  refine .head (.enter v) ?_
  refine (publish_preparations (e := .startView (seat.leader v.next) v.next) trivial).trans ?_
  refine (say_preparations (m := .entered v.next) fun _ _ h => by cases h).trans ?_
  split
  · exact .refl
  · rename_i leader _
    split
    · exact propose_preparations (View.next_ne_zero v)
    · refine ReflTransGen.trans ?_ (send_preparations (m := .newView _) trivial)
      exact publish_preparations (e := .newView leader _) trivial

theorem enterCertified_preparations (s : SyncInfo) :
    Preparations seat before input t (enterCertified seat s t) := by
  unfold enterCertified
  split
  · exact .refl
  · split
    · exact enterView_preparations _
    · exact .refl

theorem advance_preparations
    (ht : Truthful seat.policy before.signatures → Truthful seat.policy t.state.signatures) :
    Preparations seat before input t (advance seat s t) := by
  have hspec := advance_spec seat s t
  generalize advance seat s t = t' at hspec
  cases hspec with
  | refused signatures kept timed void =>
    exact (cache_preparations signatures kept).trans (say_preparations fun _ _ h => by cases h)
  | torn signatures kept voted void valid =>
    refine (cache_preparations signatures kept).trans ?_
    refine (takeTc_preparations fun h => valid (ht h)).trans
      (say_preparations fun _ _ h => by cases h)
  | taken signatures kept valid =>
    refine (cache_preparations signatures kept).trans ?_
    refine (hold_preparations (t := { t with state := { t.state with signatures } })
      fun h => valid (ht h)).trans ?_
    exact enterCertified_preparations s

theorem Eligible.checked (h : Eligible seat before input origin b r) (hj : b.justify = some q) :
    (checkQc seat q before).1 = true := by
  obtain ⟨q', hj', hc⟩ := h.certified
  rwa [← Option.some.inj (hj.symm.trans hj')] at hc

theorem TurnOutcome.after {first : Turn Replica} (h : TurnOutcome rules seat before input t t')
    (hc : Preparations seat before input first t) :
    TurnOutcome rules seat before input first t' := by
  cases h with
  | passed calls ineligible => exact .passed (hc.trans calls) ineligible
  | judged calls eligible stored => exact .judged (hc.trans calls) eligible stored

theorem passed_of_offered (hi : input = .message origin (.propose ⟨b⟩))
    (hc : Preparations seat before input t t')
    (hn : ¬ Eligible seat before input origin b t'.state) :
    TurnOutcome rules seat before input t t' := by
  refine .passed hc fun o c h => ?_
  cases hi.symm.trans h.offered
  exact hn h

theorem contains_insert (c : Chain) (b : Block) : (c.insert b).contains b.hash = true := by
  unfold Chain.insert
  split
  · assumption
  · simp [Chain.contains, Chain.get?]

theorem onProposal_turnOutcome (hi : input = .message origin (.propose ⟨b⟩))
    (hp : (Message.propose ⟨b⟩).impossibility? origin = none) (hj : b.justify = some q)
    (hb : t.state = before) :
    TurnOutcome rules seat before input t (onProposal rules seat origin b q t) := by
  subst hb
  unfold onProposal
  split
  · rename_i hl
    exact passed_of_offered hi (say_preparations fun _ _ h => by cases h) fun h => hl h.led
  · rename_i hl
    have hstore := fun t' => @Preparation.store seat t.state input t' origin b q hi hp hj
    have hchecked := fun r (h : Eligible seat t.state input origin b r) => h.checked hj
    have heligible : ∀ r, (checkQc seat q t.state).1 = true → r.view ≤ b.view →
        r.chain.hasAncestry b = true → Eligible seat t.state input origin b r :=
      fun r hc => Eligible.mk hi hp (Decidable.not_not.mp hl) ⟨q, hj, hc⟩
    obtain ⟨signatures, hk, hs⟩ := checkQc_state seat q t.state
    generalize checkQc seat q t.state = checked at hs hstore hchecked heligible
    obtain ⟨valid, r⟩ := checked
    obtain rfl := hs
    have hc := @cache_preparations seat t.state input t signatures hk
    cases valid with
    | false =>
      exact passed_of_offered hi (hc.trans (say_preparations fun _ _ h => by cases h))
        fun h => Bool.false_ne_true (hchecked _ h)
    | true =>
      simp only [Bool.not_true, Bool.false_eq_true, if_false]
      have ha := hc.trans (@advance_preparations seat t.state input _ { qc := some q } hk)
      generalize advance seat { qc := some q } _ = t' at ha ⊢
      split
      · rename_i hstale
        exact passed_of_offered hi (ha.trans (say_preparations fun _ _ h => by cases h))
          fun h => Nat.not_le_of_lt hstale h.current
      · rename_i hcur
        have ha := ha.tail (hstore t' rfl)
        split
        · rename_i hanc
          refine .judged ha (heligible _ rfl ?_ hanc) ?_
          · rw [insertBlock_eq]
            exact Nat.le_of_not_lt hcur
          · rw [insertBlock_eq]
            exact contains_insert _ _
        · rename_i hanc
          exact passed_of_offered hi (ha.trans (say_preparations fun _ _ h => by cases h))
            fun h => hanc h.ancestry

theorem onVote_preparations {v : Vote} (hb : t.state = before) :
    Preparations seat before input t (onVote seat origin v t) := by
  subst hb
  unfold onVote
  split
  · exact .refl
  · split
    · exact say_preparations fun _ _ h => by cases h
    · obtain ⟨signatures, hv, hs⟩ := checkSignature_state seat v.signature v.block t.state
      generalize checkSignature seat v.signature v.block t.state = checked at hv hs
      obtain ⟨valid, r⟩ := checked
      obtain rfl := hs
      have hc := @cache_preparations seat t.state input t signatures fun h => (hv h).1
      cases valid with
      | false => exact hc.trans (say_preparations fun _ _ h => by cases h)
      | true =>
        simp only [Bool.not_true, Bool.false_eq_true, if_false]
        generalize VoteCollector.collect (electorate seat) v.view v.block v.signature
          t.state.votes = collected
        obtain ⟨qc?, votes⟩ := collected
        have hc : Preparations seat t.state input t
            { t with state := { t.state with signatures, votes } } :=
          .single (.count signatures (fun h => (hv h).1) votes _ _)
        cases qc? with
        | none => exact hc
        | some qc =>
          refine hc.trans ((publish_preparations (e := .collectQc qc) trivial).trans ?_)
          exact advance_preparations fun h => (hv h).1

theorem onTimeout_preparations {m : Timeout} (hb : t.state = before) :
    Preparations seat before input t (onTimeout seat origin m t) := by
  subst hb
  obtain ⟨signatures, hk, hs⟩ := checkTimeout_state seat m t.state
  unfold onTimeout
  split
  · exact .refl
  · dsimp only
    generalize (if (checkSignature seat m.signature m.view.hash t.state).1 then
        checkQc seat m.highQc (checkSignature seat m.signature m.view.hash t.state).2
      else (false, (checkSignature seat m.signature m.view.hash t.state).2)) = checked at hs
    obtain ⟨valid, r⟩ := checked
    obtain rfl := hs
    have hc := @cache_preparations seat t.state input t signatures hk
    cases valid with
    | false => exact hc.trans (say_preparations fun _ _ h => by cases h)
    | true =>
      simp only [Bool.not_true, Bool.false_eq_true, if_false]
      generalize ht : (if t.state.highQc.view < m.highQc.view then
        advance seat { qc := some m.highQc } { t with state := { t.state with signatures } }
        else { t with state := { t.state with signatures } }) = t₁
      have hc : Preparations seat t.state input t t₁ ∧
          (Truthful seat.policy t.state.signatures → Truthful seat.policy t₁.state.signatures) := by
        rw [← ht]
        split
        · exact ⟨hc.trans (advance_preparations hk), truthful_advance ∘ hk⟩
        · exact ⟨hc, hk⟩
      generalize TimeoutCollector.collect (electorate seat) m.view m.signature m.highQc
        t₁.state.timeouts = collected
      obtain ⟨certified?, timeouts⟩ := collected
      have hm :=
        hc.1.tail (.count t₁.state.signatures id t₁.state.votes timeouts t₁.state.viewTicks)
      cases certified? with
      | none => exact hm
      | some x =>
        refine hm.trans ((publish_preparations (e := .collectTc x.1) trivial).trans ?_)
        exact advance_preparations hc.2

theorem announce_preparations (origin : ReplicaId) (m : Message) :
    Preparations seat before input t (announce origin m t) := by
  cases m with
  | propose p => exact publish_preparations (e := .receiveProposal origin p) trivial
  | vote v => exact publish_preparations (e := .receiveVote origin v) trivial
  | timeout m => exact .refl
  | newView n => exact .refl

theorem tick_preparations {r : Replica} :
    Preparations seat r input { state := r } (Replica.tick seat r) := by
  have hc : ∀ ticks,
    Preparations seat r input { state := r } { state := { r with viewTicks := ticks } } :=
    fun ticks => .single (.count r.signatures id r.votes r.timeouts ticks)
  unfold Replica.tick
  split
  · exact (hc 0).tail .giveUp
  · exact hc _

theorem receive_turnOutcome (rules : Rules) (seat : Seat) (origin : ReplicaId) (m : Message)
    (r : Replica) :
    TurnOutcome rules seat r (.message origin m) { state := r }
      (receive rules seat origin m r) := by
  have ha := @announce_preparations seat r (.message origin m) { state := r } origin m
  have hs := @announce_state { state := r } origin m
  unfold receive
  cases hm : m.impossibility? origin with
  | some i =>
    refine .passed (ha.tail (.halt _)) fun o b h => ?_
    cases h.offered
    cases hm.symm.trans h.possible
  | none =>
    cases m with
    | propose p =>
      dsimp only
      split
      · rename_i hj
        refine .passed ha fun o b h => ?_
        cases h.offered
        obtain ⟨q, hq, -⟩ := h.certified
        cases hj.symm.trans hq
      · rename_i q hj
        exact (onProposal_turnOutcome rfl hm hj hs).after ha
    | vote v => exact .passed (ha.trans (onVote_preparations hs)) fun o b h => by cases h.offered
    | timeout m =>
      exact .passed (ha.trans (onTimeout_preparations hs)) fun o b h => by cases h.offered
    | newView n =>
      exact .passed (ha.trans (advance_preparations id)) fun o b h => by cases h.offered

theorem react_turnOutcome (rules : Rules) (seat : Seat) (input : Input) (r : Replica) :
    TurnOutcome rules seat r input { state := r } (input.react rules seat r) := by
  cases input with
  | start =>
    exact .passed (advance_preparations (s := { qc := some .genesis }) id)
      fun o b h => by cases h.offered
  | message origin m => exact receive_turnOutcome rules seat origin m r
  | tick => exact .passed tick_preparations fun o b h => by cases h.offered

theorem commit_state (h : Hash) (t : Turn Replica) :
    (commit seat h t).state = t.state ∨
      ∃ x, t.state.chain.get? h = some x ∧
        (commit seat h t).state = settle (fresh t.state x) t.state := by
  unfold commit
  split
  · exact .inl rfl
  · rename_i x hx
    dsimp only
    split
    · exact .inl rfl
    · rw [foldl_commitBlock]
      exact .inr ⟨x, hx, rfl⟩

theorem head?_fresh {x y : Block} (hy : (fresh r x).head? = some y) : y = x := by
  unfold fresh Chain.lineage at hy
  cases hs : r.chain.size with
  | zero =>
    rw [hs, Chain.follow] at hy
    exact List.mem_singleton.mp ((List.takeWhile_sublist _).subset (List.mem_of_mem_head? hy))
  | succ n =>
    rw [hs, Chain.follow, List.takeWhile_cons] at hy
    split at hy
    · exact (Option.some.inj hy).symm
    · cases hy

/-- Judging a block neither stores anything nor takes over certificates. -/
structure Frame (seat : Seat) (r r' : Replica) : Prop where
  chain : r'.chain = r.chain
  highQc : r'.highQc = r.highQc
  highTc : r'.highTc = r.highTc
  view : r'.view = r.view
  executed : r'.executed = r.executed ∨ r.chain.contains r'.executed = true
  truthful : (∀ h, seat.policy.keys.verify (seat.policy.keys.sign h) h = true) →
    Truthful seat.policy r.signatures → Truthful seat.policy r'.signatures

theorem Frame.trans {r r' r'' : Replica} (h : Frame seat r r') (h' : Frame seat r' r'') :
    Frame seat r r'' where
  chain := h'.chain.trans h.chain
  highQc := h'.highQc.trans h.highQc
  highTc := h'.highTc.trans h.highTc
  view := h'.view.trans h.view
  executed := by
    obtain he | he := h'.executed
    · rw [he]
      exact h.executed
    · rw [h.chain] at he
      exact .inr he
  truthful hown ht := h'.truthful hown (h.truthful hown ht)

theorem commit_framed (h : Hash) (t : Turn Replica) :
    Frame seat t.state (commit seat h t).state := by
  obtain he | ⟨x, hx, he⟩ := @commit_state seat h t
  · rw [he]
    exact ⟨rfl, rfl, rfl, rfl, .inl rfl, fun _ h => h⟩
  · rw [he]
    refine ⟨rfl, rfl, rfl, rfl, ?_, fun _ h => h⟩
    unfold settle
    cases hf : (fresh t.state x).head? with
    | none => exact .inl rfl
    | some y =>
      obtain rfl := head?_fresh hf
      right
      dsimp only [Option.map_some, Option.getD_some]
      rw [hash_of_get? hx]
      simp [Chain.contains, hx]

theorem castVote_framed (b : Block) (t : Turn Replica) :
    Frame seat t.state (castVote seat b t).state := by
  unfold castVote
  dsimp only
  split
  · exact ⟨rfl, rfl, rfl, rfl, .inl rfl, fun hown h => truthful_sign h (hown _)⟩
  · exact ⟨rfl, rfl, rfl, rfl, .inl rfl, fun hown h => truthful_sign h (hown _)⟩

theorem judge_framed (b : Block) (t : Turn Replica) :
    Frame seat t.state (judge rules seat b t).state := by
  rw [judge_eq rfl rfl]
  generalize rules.consequence t.state.chain t.state.safety b = c
  have hr : Frame seat t.state (relocked c t).state :=
    ⟨rfl, rfl, rfl, rfl, .inl rfl, fun _ h => h⟩
  have hs : Frame seat t.state
      (c.commit.elim (relocked c t) (commit seat · (relocked c t))).state := by
    cases c.commit with
    | none => exact hr
    | some h => exact hr.trans (commit_framed h _)
  split
  · exact hs.trans (castVote_framed b _)
  · exact hs

section Invariants

variable {P : Replica → Prop}
  (hcall : ∀ before input t t', Preparation seat before input t t' → P before → P t.state →
    P t'.state)
  (hjudge : ∀ r r', Frame seat r r' → P r → P r')
include hcall

theorem preparations_invariant (hc : Preparations seat before input t t') (hb : P before)
    (hp : P t.state) :
    P t'.state := by
  induction hc with
  | refl => exact hp
  | tail _ hc ih => exact hcall _ _ _ _ hc hb ih

include hjudge

theorem react_invariant (rules : Rules) (input : Input) (hp : P r) :
    P (input.react rules seat r).state := by
  have ho := react_turnOutcome rules seat input r
  generalize input.react rules seat r = t at ho
  cases ho with
  | passed calls ineligible => exact preparations_invariant hcall calls hp hp
  | judged calls eligible stored =>
    exact hjudge _ _ (judge_framed _ _) (preparations_invariant hcall calls hp hp)

/-- What calls preserve, and what does not depend on judging blocks, holds at any time. -/
theorem chronicle_invariant (hinit : P {}) (rules : Rules) (inputs : List Input) :
    P (chronicle rules seat inputs).state := by
  induction inputs using List.reverseRecOn with
  | nil => exact hinit
  | append_singleton inputs input ih =>
    rw [chronicle_concat]
    exact react_invariant hcall hjudge rules input ih

end Invariants

end Equivocation.Proofs.Handling
