import Equivocation.Replica.Handlers
import Equivocation.Proofs.Adoption

namespace Equivocation.Proofs.Turns

open Relation Replica Validity Adoption

inductive Input where
  | start
  | message (origin : ReplicaId) (m : Message)
  | tick

def enclosed : Message → List QuorumCertificate
  | .propose p => p.block.justify.toList
  | .vote _ => []
  | .timeout m => [m.highQc]
  | .newView n => n.sync.qc.toList

namespace Input

def hand : Input → List SyncInfo
  | start => [{ qc := some .genesis }]
  | message _ (.propose p) => [{ qc := p.block.justify }]
  | message _ (.vote _) => []
  | message _ (.timeout m) => [{ qc := some m.highQc }]
  | message _ (.newView n) => [n.sync]
  | tick => []

def react (rules : Rules) (seat : Seat) : Input → Replica → Turn Replica
  | start => Replica.start seat
  | message origin m => Replica.receive rules seat origin m
  | tick => Replica.tick seat

theorem mem_enclosed {origin : ReplicaId} {m : Message} {s : SyncInfo} {q : QuorumCertificate}
    (hs : s ∈ (message origin m).hand) (hq : s.qc = some q) : q ∈ enclosed m := by
  cases m with
  | propose p =>
    rw [List.mem_singleton.mp hs] at hq
    exact Option.mem_toList.mpr hq
  | vote v => cases hs
  | timeout m =>
    rw [List.mem_singleton.mp hs] at hq
    exact List.mem_singleton.mpr (Option.some.inj hq).symm
  | newView n =>
    rw [List.mem_singleton.mp hs] at hq
    exact Option.mem_toList.mpr hq

end Input

/-- Effects that no other instance gets to see and that bind to nothing. -/
def Idle : Effect → Prop
  | .send _ _ => False
  | .publish (.vote _) => False
  | .publish (.commitBlock _ _) => False
  | .publish (.collectQc _) => False
  | _ => True

def fresh (r : Replica) (b : Block) : List Block :=
  (r.chain.lineage b).takeWhile fun x => r.executedView < x.view

/-- Commits blocks, the last of the list first. -/
def settle (bs : List Block) (r : Replica) : Replica :=
  { r with
    executed := (bs.head?.map (·.hash)).getD r.executed
    committed := r.committed ++ bs.reverse.map (·.hash) }

def settlement (bs : List Block) : List Effect :=
  bs.reverse.map fun x => .publish (.commitBlock x.hash x.view)

theorem mem_settlement {bs : List Block} {e : Effect} (he : e ∈ settlement bs) :
    ∃ x : Block, e = .publish (.commitBlock x.hash x.view) := by
  obtain ⟨x, -, rfl⟩ := List.mem_map.mp he
  exact ⟨x, rfl⟩

section Collecting

variable (seat : Seat) (v : Vote) (m : Timeout) (r : Replica)

def countVote : Replica :=
  { r with votes := (VoteCollector.collect (electorate seat) v.view v.block v.signature r.votes).2 }

def voteCertificate : List SyncInfo :=
  (VoteCollector.collect (electorate seat) v.view v.block v.signature r.votes).1.toList.map
    fun qc => { qc := some qc }

def countTimeout : Replica :=
  { r with
    timeouts :=
      (TimeoutCollector.collect (electorate seat) m.view m.signature m.highQc r.timeouts).2 }

def timeoutCertificate : List SyncInfo :=
  (TimeoutCollector.collect (electorate seat) m.view m.signature m.highQc r.timeouts).1.toList.map
    fun x => { qc := some x.2, tc := some x.1 }

variable {seat v m r} {s : SyncInfo}

theorem mem_voteCertificate (hs : s ∈ voteCertificate seat v r) :
    ∃ q, s = { qc := some q } ∧
      (VoteCollector.collect (electorate seat) v.view v.block v.signature r.votes).1 = some q := by
  obtain ⟨q, hq, rfl⟩ := List.mem_map.mp hs
  exact ⟨q, rfl, Option.mem_toList.mp hq⟩

theorem mem_timeoutCertificate (hs : s ∈ timeoutCertificate seat m r) :
    ∃ x : TimeoutCertificate × QuorumCertificate, s = { qc := some x.2, tc := some x.1 } ∧
      (TimeoutCollector.collect (electorate seat) m.view m.signature m.highQc
        r.timeouts).1 = some x := by
  obtain ⟨x, hx, rfl⟩ := List.mem_map.mp hs
  exact ⟨x, rfl, Option.mem_toList.mp hx⟩

end Collecting

/-- What an instance can do in one go, given the certificates at hand: the new state, the effects
and what is at hand afterwards. Every handler is a sequence of these. What depends on an earlier
check refers to the state `before` the turn. -/
inductive Act (rules : Rules) (seat : Seat) (before : Replica) (input : Input) :
    Replica → List SyncInfo → Replica → List Effect → List SyncInfo → Prop
  | quiet {r H} (signatures : SignatureCache)
      (kept : Truthful seat.policy r.signatures → Truthful seat.policy signatures)
      {es : List Effect} (idle : ∀ e ∈ es, Idle e) :
    Act rules seat before input r H { r with signatures } es H
  | tear {r H} {s : SyncInfo} {tc : TimeoutCertificate} {q : QuorumCertificate} (held : s ∈ H)
      (timed : s.tc = some tc) (voted : s.qc = some q)
      (newer : ∀ high, r.highTc = some high → high.view < tc.view)
      (void : ¬ ValidQc seat.policy r.chain q) :
    Act rules seat before input r H { r with highTc := some tc }
      [.remark (Remark.invalidQc.record seat.node)] H
  | adopt {r H} {s : SyncInfo} {v : View} (held : s ∈ H) (certified : s.certifiedView? = some v)
      (past : v < r.view)
      (valid : Truthful seat.policy before.signatures → Valid seat.policy r.chain s) :
    Act rules seat before input r H
      { r with highTc := takeTc r.highTc s.tc, highQc := takeQc r.highQc s.qc } [] H
  | climb {r H} {s : SyncInfo} {v : View} (held : s ∈ H) (certified : s.certifiedView? = some v)
      (ahead : r.view ≤ v)
      (valid : Truthful seat.policy before.signatures → Valid seat.policy r.chain s) :
    Act rules seat before input r H
      (entered v.next
        { r with highTc := takeTc r.highTc s.tc, highQc := takeQc r.highQc s.qc }) [] H
  | propose {r H} (started : r.view ≠ .zero) (led : seat.leader r.view = some seat.replica) :
    Act rules seat before input r H
      { r with lastProposed := r.view, chain := r.chain.insert (nextBlock seat r) }
      [.send .all (.propose ⟨nextBlock seat r⟩)] H
  | greet {r H} (leader : ReplicaId) (started : r.view ≠ .zero) :
    Act rules seat before input r H r [.send (.replica leader) (.newView ⟨r.view, r.sync⟩)] H
  | store {r H} {origin : ReplicaId} {b : Block} {q : QuorumCertificate}
      (offered : input = .message origin (.propose ⟨b⟩)) (led : seat.leader b.view = some origin)
      (current : r.view ≤ b.view) (carried : b.justify = some q)
      (labelled : Labelled before.chain q)
      (attested : Truthful seat.policy before.signatures → Attested seat.policy q)
      (adopted : Attested seat.policy q → q.view.next ≤ r.view ∧ q.view ≤ r.highQc.view)
      (grown : ∀ h p, r.chain.get? h = some p → before.chain.get? h = some p ∨ p.view = r.view) :
    Act rules seat before input r H { r with chain := r.chain.insert b } [] H
  | relock {r H} {origin : ReplicaId} {b one two : Block}
      (offered : input = .message origin (.propose ⟨b⟩))
      (certifies : r.chain.justified? b = some one)
      (recertifies : r.chain.justified? one = some two)
      (newer : r.safety.lockedView r.chain < two.view) :
    Act rules seat before input r H { r with safety := { r.safety with locked := two.hash } } [] H
  | commit {r H} {origin : ReplicaId} {b one two three : Block}
      (offered : input = .message origin (.propose ⟨b⟩))
      (ancestry : r.chain.hasAncestry b = true)
      (certifies : r.chain.justified? b = some one)
      (recertifies : r.chain.justified? one = some two)
      (completes : rules.completes one two three = true)
      (stored : r.chain.justified? two = some three)
      (complete : (fresh r three).length ≠ (r.chain.lineage three).length) :
    Act rules seat before input r H (settle (fresh r three) r) (settlement (fresh r three)) H
  | vote {r H} {origin : ReplicaId} {b : Block}
      (offered : input = .message origin (.propose ⟨b⟩))
      (ancestry : r.chain.hasAncestry b = true)
      (first : r.safety.lastVote < b.view)
      (allowed : rules.mayVote r.chain r.safety b r.view = true)
      (covered : ∀ one two, r.chain.justified? b = some one → r.chain.justified? one = some two →
        two.view ≤ r.safety.lockedView r.chain)
      (informed : ∀ q, b.justify = some q → Attested seat.policy q → q.view ≤ r.highQc.view)
      {es : List Effect}
      (mail : ∀ e ∈ es, Idle e ∨ ∃ leader,
        e = .send (.replica leader) (.vote ⟨b.view, b.hash, seat.policy.keys.sign b.hash⟩)) :
    Act rules seat before input r H
      { r with
        signatures := (SignatureCache.sign seat.policy b.hash r.signatures).2
        safety := { r.safety with lastVote := b.view } }
      (.publish (.vote ⟨b.view, b.hash, seat.policy.keys.sign b.hash⟩) :: es) H
  | collectVote {r H} {origin : ReplicaId} {v : Vote} (offered : input = .message origin (.vote v))
      (known : (r.chain.get? v.block).map (·.view) = some v.view)
      (signed : Truthful seat.policy before.signatures →
        seat.policy.keys.verify v.signature v.block = true) :
    Act rules seat before input r H (countVote seat v r) [] (H ++ voteCertificate seat v r)
  | certify {r H} {q : QuorumCertificate} (held : { qc := some q } ∈ H) :
    Act rules seat before input r H r [.publish (.collectQc q)] H
  | collectTimeout {r H} {origin : ReplicaId} {m : Timeout}
      (offered : input = .message origin (.timeout m)) :
    Act rules seat before input r H (countTimeout seat m r) [] (H ++ timeoutCertificate seat m r)
  | count {r H} (ticks : Nat) : Act rules seat before input r H { r with viewTicks := ticks } [] H
  | giveUp {r H} (started : r.view ≠ .zero) :
    Act rules seat before input r H
      { r with
        signatures := (SignatureCache.sign seat.policy r.view.hash r.signatures).2
        safety :=
          if r.safety.lastVote < r.view then { r.safety with lastVote := r.view } else r.safety }
      [.send .all (.timeout ⟨r.view, seat.policy.keys.sign r.view.hash, r.highQc⟩)] H

section Ballots

variable {v w : Vote} {es : List Effect}
  (mail : ∀ e ∈ es, Idle e ∨ ∃ leader, e = .send (.replica leader) (.vote v))
include mail

theorem vote_of_ballot (hm : .publish (.vote w) ∈ .publish (.vote v) :: es) : w = v := by
  rcases List.mem_cons.mp hm with hm | hm
  · cases hm
    rfl
  · rcases mail _ hm with hm | ⟨leader, hm⟩
    · exact hm.elim
    · cases hm

theorem message_of_ballot {whom : Recipients} {m : Message}
    (hm : .send whom m ∈ .publish (.vote v) :: es) : m = .vote v := by
  rcases List.mem_cons.mp hm with hm | hm
  · cases hm
  · rcases mail _ hm with hm | ⟨leader, hm⟩
    · exact hm.elim
    · cases hm
      rfl

end Ballots

structure Stage where
  turn : Turn Replica
  hand : List SyncInfo

inductive Move (rules : Rules) (seat : Seat) (before : Replica) (input : Input) :
    Stage → Stage → Prop
  | act {t : Turn Replica} {H H' : List SyncInfo} {r : Replica} {es : List Effect} :
    Act rules seat before input t.state H r es H' →
      Move rules seat before input ⟨t, H⟩ ⟨{ t with state := r, effects := t.effects ++ es }, H'⟩

abbrev Moves (rules : Rules) (seat : Seat) (before : Replica) (input : Input) :
    Stage → Stage → Prop :=
  ReflTransGen (Move rules seat before input)

variable {rules : Rules} {seat : Seat} {before : Replica} {input : Input} {t : Turn Replica}
  {H : List SyncInfo}

theorem halt_eq {st st' : Stage} (h : Moves rules seat before input st st') :
    st'.turn.halt = st.turn.halt := by
  induction h with
  | refl => rfl
  | tail _ hm ih => cases hm; exact ih

theorem silent_moves {r : Replica} {H' : List SyncInfo}
    (ha : Act rules seat before input t.state H r [] H') :
    Moves rules seat before input ⟨t, H⟩ ⟨{ t with state := r }, H'⟩ := by
  have hm := Move.act ha
  rw [List.append_nil] at hm
  exact .single hm

theorem emit_moves {e : Effect} (he : Idle e) :
    Moves rules seat before input ⟨t, H⟩ ⟨t.emit e, H⟩ :=
  .single (.act (.quiet t.state.signatures id (by simpa using he)))

theorem say_moves (m : Remark) : Moves rules seat before input ⟨t, H⟩ ⟨say seat m t, H⟩ :=
  emit_moves trivial

theorem cache_moves (signatures : SignatureCache)
    (hk : Truthful seat.policy t.state.signatures → Truthful seat.policy signatures) :
    Moves rules seat before input ⟨t, H⟩
      ⟨{ t with state := { t.state with signatures } }, H⟩ :=
  silent_moves (.quiet signatures hk (by simp))

theorem idle_insertion (c : Chain) (b : Block) : ∀ e ∈ insertion c b, Idle e := by
  unfold insertion
  split
  · simp
  · simp [Idle]

theorem quiet_moves {es : List Effect} (he : ∀ e ∈ es, Idle e) :
    Moves rules seat before input ⟨t, H⟩ ⟨{ t with effects := t.effects ++ es }, H⟩ :=
  .single (.act (.quiet t.state.signatures id he))

theorem propose_moves (hv : t.state.view ≠ .zero)
    (hl : seat.leader t.state.view = some seat.replica) :
    Moves rules seat before input ⟨t, H⟩ ⟨propose seat t, H⟩ := by
  unfold propose
  split
  · exact .refl
  · dsimp only
    rw [insertBlock_eq]
    refine (quiet_moves (idle_insertion t.state.chain (nextBlock seat t.state))).trans ?_
    refine (emit_moves (e := .publish (.propose ⟨nextBlock seat t.state⟩)) trivial).trans ?_
    exact .single (.act (.propose hv hl))

theorem enterView_moves {s : SyncInfo} {v : View} (hs : s ∈ H) (hv : s.certifiedView? = some v)
    (hr : t.state.view ≤ v)
    (hvalid : Truthful seat.policy before.signatures → Valid seat.policy t.state.chain s) :
    Moves rules seat before input ⟨t, H⟩
      ⟨enterView seat v.next (t.modify fun r =>
        { r with highTc := takeTc r.highTc s.tc, highQc := takeQc r.highQc s.qc }), H⟩ := by
  have hz := View.next_ne_zero v
  unfold enterView
  refine (silent_moves (.climb hs hv hr hvalid)).trans ?_
  refine (emit_moves (e := .publish (.startView (seat.leader v.next) v.next)) trivial).trans ?_
  refine (say_moves (.entered v.next)).trans ?_
  split
  · exact .refl
  · rename_i leader hl
    split
    · rename_i he
      exact propose_moves hz (he ▸ hl)
    · refine ReflTransGen.trans ?_ (.single (.act (.greet leader hz)))
      exact emit_moves (e := .publish (.newView leader _)) trivial

/-- A certificate is kept without entering a view only if it is of a past view. -/
theorem enterCertified_moves {s : SyncInfo} (hs : s ∈ H)
    (hvalid : Truthful seat.policy before.signatures → Valid seat.policy t.state.chain s) :
    Moves rules seat before input ⟨t, H⟩
      ⟨enterCertified seat s (t.modify fun r =>
        { r with highTc := takeTc r.highTc s.tc, highQc := takeQc r.highQc s.qc }), H⟩ := by
  unfold enterCertified
  cases hv : s.certifiedView? with
  | none =>
    obtain ⟨ht, hq⟩ := eq_none_of_certifiedView? hv
    rw [ht, hq]
    exact .refl
  | some v =>
    dsimp only
    split
    · rename_i hr
      exact enterView_moves hs hv hr hvalid
    · rename_i hr
      exact silent_moves (.adopt hs hv (Nat.lt_of_not_le hr) hvalid)

theorem tear_moves {s : SyncInfo} {q : QuorumCertificate} (hs : s ∈ H) (hq : s.qc = some q)
    (hvoid : ¬ ValidQc seat.policy t.state.chain q) :
    Moves rules seat before input ⟨t, H⟩
      ⟨say seat .invalidQc (t.modify fun r => { r with highTc := takeTc r.highTc s.tc }), H⟩ := by
  rcases takeTc_cases t.state.highTc s.tc with he | ⟨tc, ht, he, hn⟩
  · rw [show (t.modify fun r => { r with highTc := takeTc r.highTc s.tc }) = t by
      dsimp only [Turn.modify]
      rw [he]]
    exact say_moves .invalidQc
  · rw [show (t.modify fun r => { r with highTc := takeTc r.highTc s.tc }) =
      t.modify fun r => { r with highTc := some tc } by
      dsimp only [Turn.modify]
      rw [he]]
    exact .single (.act (.tear hs ht hq hn hvoid))

theorem advance_moves {s : SyncInfo} (hs : s ∈ H)
    (ht : Truthful seat.policy before.signatures → Truthful seat.policy t.state.signatures) :
    Moves rules seat before input ⟨t, H⟩ ⟨advance seat s t, H⟩ := by
  have hspec := advance_spec seat s t
  generalize advance seat s t = t' at hspec
  cases hspec with
  | refused signatures kept timed void =>
    exact (cache_moves signatures kept).trans (say_moves .invalidTc)
  | torn signatures kept voted void valid =>
    exact (cache_moves signatures kept).trans (tear_moves hs voted void)
  | taken signatures kept valid =>
    exact (cache_moves signatures kept).trans (enterCertified_moves hs fun h => valid (ht h))

theorem foldl_commitBlock (bs : List Block) (t : Turn Replica) :
    bs.reverse.foldl (fun t x => commitBlock x t) t =
      { t with state := settle bs t.state, effects := t.effects ++ settlement bs } := by
  induction bs with
  | nil => simp [settle, settlement]
  | cons b bs ih =>
    rw [List.reverse_cons, List.foldl_append, ih]
    simp [commitBlock, settle, settlement, Turn.modify, Turn.publish, Turn.emit]

theorem get?_of_justified? {c : Chain} {b p : Block} (hp : c.justified? b = some p) :
    c.get? p.hash = some p := by
  obtain ⟨q, -, hq⟩ := Option.bind_eq_some_iff.mp hp
  rw [Ancestry.hash_of_get? hq]
  exact hq

theorem commit_moves {origin : ReplicaId} {b one two three : Block}
    (hi : input = .message origin (.propose ⟨b⟩))
    (ha : t.state.chain.hasAncestry b = true)
    (h₁ : t.state.chain.justified? b = some one)
    (h₂ : t.state.chain.justified? one = some two)
    (hc : rules.completes one two three = true)
    (h₃ : t.state.chain.justified? two = some three) :
    Moves rules seat before input ⟨t, H⟩ ⟨commit seat three.hash t, H⟩ := by
  unfold commit
  rw [get?_of_justified? h₃]
  dsimp only
  by_cases hl : (fresh t.state three).length = (t.state.chain.lineage three).length
  · rw [if_pos (show ((t.state.chain.lineage three).takeWhile
      fun x => t.state.executedView < x.view).length = _ from hl)]
    exact say_moves _
  · rw [if_neg (show ¬ ((t.state.chain.lineage three).takeWhile
      fun x => t.state.executedView < x.view).length = _ from hl), foldl_commitBlock]
    exact .single (.act (.commit hi ha h₁ h₂ hc h₃ hl))

theorem castVote_moves {origin : ReplicaId} {b : Block}
    (hi : input = .message origin (.propose ⟨b⟩))
    (ha : t.state.chain.hasAncestry b = true)
    (hf : t.state.safety.lastVote < b.view)
    (hv : rules.mayVote t.state.chain t.state.safety b t.state.view = true)
    (hc : ∀ one two, t.state.chain.justified? b = some one →
      t.state.chain.justified? one = some two → two.view ≤ t.state.safety.lockedView t.state.chain)
    (hq : ∀ q, b.justify = some q → Attested seat.policy q → q.view ≤ t.state.highQc.view) :
    Moves rules seat before input ⟨t, H⟩ ⟨castVote seat b t, H⟩ := by
  have hm : ∀ es : List Effect, (∀ e ∈ es, Idle e ∨ ∃ leader,
      e = .send (.replica leader) (.vote ⟨b.view, b.hash, seat.policy.keys.sign b.hash⟩)) →
      Moves rules seat before input ⟨t, H⟩
        ⟨{ t with
            state := (sign seat b.hash
              { t.state with safety := { t.state.safety with lastVote := b.view } }).2
            effects := t.effects ++
              [.publish (.vote ⟨b.view, b.hash, seat.policy.keys.sign b.hash⟩)] ++ es }, H⟩ := by
    intro es he
    rw [List.append_assoc]
    exact .single (.act (.vote hi ha hf hv hc hq he))
  unfold castVote
  dsimp only
  split
  · rename_i leader _
    exact hm [_] fun e he => .inr ⟨leader, List.mem_singleton.mp he⟩
  · exact hm [_] fun e he => .inl (by rw [List.mem_singleton.mp he]; trivial)

theorem consequence_lock {c : Chain} {s : Safety} {b two : Block}
    (h : (rules.consequence c s b).lock = some two) :
    ∃ one, c.justified? b = some one ∧ c.justified? one = some two ∧
      s.lockedView c < two.view := by
  unfold Rules.consequence at h
  split at h
  · cases h
  · rename_i one h₁
    split at h
    · cases h
    · rename_i two' h₂
      dsimp only at h
      split at h
      · rename_i hl
        cases h
        exact ⟨one, h₁, h₂, hl⟩
      · cases h

theorem consequence_commit {c : Chain} {s : Safety} {b : Block} {h : Hash}
    (hc : (rules.consequence c s b).commit = some h) :
    ∃ one two three, c.justified? b = some one ∧ c.justified? one = some two ∧
      c.justified? two = some three ∧ rules.completes one two three = true ∧ three.hash = h := by
  unfold Rules.consequence at hc
  split at hc
  · cases hc
  · rename_i one h₁
    split at hc
    · cases hc
    · rename_i two h₂
      dsimp only at hc
      split at hc
      · cases hc
      · rename_i three h₃
        split at hc
        · rename_i hl
          exact ⟨one, two, three, h₁, h₂, h₃, hl, by simpa using hc⟩
        · cases hc

theorem lockedView_of_stored {c : Chain} {s : Safety} {b : Block}
    (hb : c.get? s.locked = some b) : s.lockedView c = b.view := by
  simp [Safety.lockedView, hb]

/-- The lock is taken before the vote: afterwards it is not below the block that the certificate of
the certificate certifies. -/
theorem relock_covers {c : Chain} {s : Safety} {b one two : Block}
    (h₁ : c.justified? b = some one) (h₂ : c.justified? one = some two) :
    two.view ≤ ((rules.consequence c s b).relock s).lockedView c := by
  by_cases hl : s.lockedView c < two.view
  · have hc : (rules.consequence c s b).lock = some two := by
      simp [Rules.consequence, h₁, h₂, hl]
    rw [lockedView_of_stored (b := two)]
    · exact Nat.le_refl _
    · simp only [Rules.Consequence.relock, hc]
      exact get?_of_justified? h₂
  · have hc : (rules.consequence c s b).lock = none := by
      simp [Rules.consequence, h₁, h₂, hl]
    simp only [Rules.Consequence.relock, hc]
    exact Nat.le_of_not_lt hl

theorem foldl_remark (rs : List LogRecord) (t : Turn Replica) :
    rs.foldl (fun t r => t.remark r) t = { t with effects := t.effects ++ rs.map .remark } := by
  induction rs generalizing t with
  | nil => simp
  | cons r rs ih =>
    rw [List.foldl_cons, ih]
    simp [Turn.remark, Turn.emit]

theorem relock_moves {origin : ReplicaId} {b : Block}
    (hi : input = .message origin (.propose ⟨b⟩)) :
    Moves rules seat before input ⟨t, H⟩
      ⟨t.modify fun r =>
        { r with
          safety := (rules.consequence t.state.chain t.state.safety b).relock r.safety }, H⟩ := by
  unfold Rules.Consequence.relock
  split
  · exact .refl
  · rename_i two hl
    obtain ⟨one, h₁, h₂, hv⟩ := consequence_lock hl
    exact silent_moves (.relock hi h₁ h₂ hv)

theorem commit_frame (h : Hash) (t : Turn Replica) :
    (commit seat h t).state.chain = t.state.chain ∧
      (commit seat h t).state.safety = t.state.safety ∧
      (commit seat h t).state.highQc = t.state.highQc := by
  unfold commit
  split
  · exact ⟨rfl, rfl, rfl⟩
  · dsimp only
    split
    · exact ⟨rfl, rfl, rfl⟩
    · rw [foldl_commitBlock]
      exact ⟨rfl, rfl, rfl⟩

theorem castVote_if_moves {origin : ReplicaId} {b : Block}
    (hi : input = .message origin (.propose ⟨b⟩))
    (ha : t.state.chain.hasAncestry b = true)
    (hc : ∀ one two, t.state.chain.justified? b = some one →
      t.state.chain.justified? one = some two → two.view ≤ t.state.safety.lockedView t.state.chain)
    (hq : ∀ q, b.justify = some q → Attested seat.policy q → q.view ≤ t.state.highQc.view) :
    Moves rules seat before input ⟨t, H⟩
      ⟨if t.state.safety.lastVote < b.view &&
          rules.mayVote t.state.chain t.state.safety b t.state.view then castVote seat b t
        else t, H⟩ := by
  split
  · rename_i hv
    obtain ⟨hf, hv⟩ := Bool.and_eq_true_iff.mp hv
    exact castVote_moves hi ha (of_decide_eq_true hf) hv hc hq
  · exact .refl

theorem judge_moves {origin : ReplicaId} {b : Block}
    (hi : input = .message origin (.propose ⟨b⟩))
    (ha : t.state.chain.hasAncestry b = true)
    (hq : ∀ q, b.justify = some q → Attested seat.policy q → q.view ≤ t.state.highQc.view) :
    Moves rules seat before input ⟨t, H⟩ ⟨judge rules seat b t, H⟩ := by
  have hc := fun one two => @relock_covers rules t.state.chain t.state.safety b one two
  unfold judge
  dsimp only
  rw [foldl_remark]
  refine (@quiet_moves rules seat before input t H
    ((rules.consequence t.state.chain t.state.safety b).remarks.map .remark)
    (by simp [Idle])).trans ?_
  refine (relock_moves (b := b) hi).trans ?_
  generalize ht : Turn.modify (fun r : Replica => { r with
    safety := (rules.consequence t.state.chain t.state.safety b).relock r.safety })
    { t with effects := _ } = t₁
  have hc₁ : t₁.state.chain = t.state.chain := by rw [← ht]; rfl
  have hq₁ : t₁.state.highQc = t.state.highQc := by rw [← ht]; rfl
  have hs₁ : t₁.state.safety =
      (rules.consequence t.state.chain t.state.safety b).relock t.state.safety := by rw [← ht]; rfl
  rw [← hs₁] at hc
  cases hd : (rules.consequence t.state.chain t.state.safety b).commit with
  | none =>
    rw [← hc₁] at ha hc
    rw [← hq₁] at hq
    exact castVote_if_moves hi ha hc hq
  | some h =>
    obtain ⟨one, two, three, h₁, h₂, h₃, hl, rfl⟩ := consequence_commit hd
    obtain ⟨hf₁, hf₂, hf₃⟩ := @commit_frame seat three.hash t₁
    rw [← hc₁] at ha hc h₁ h₂ h₃
    refine (commit_moves hi ha h₁ h₂ hl h₃).trans ?_
    rw [← hf₁] at ha hc
    rw [← hf₂] at hc
    rw [← hq₁, ← hf₃] at hq
    exact castVote_if_moves hi ha hc hq

theorem onProposal_moves {origin : ReplicaId} {b : Block} {qc : QuorumCertificate}
    (hi : input = .message origin (.propose ⟨b⟩)) (hj : b.justify = some qc)
    (hq : { qc := some qc } ∈ H) (hb : t.state = before) :
    Moves rules seat before input ⟨t, H⟩ ⟨onProposal rules seat origin b qc t, H⟩ := by
  subst hb
  unfold onProposal
  split
  · exact say_moves _
  · rename_i hled
    have hlabel := @labelled_of_checkQc seat qc t.state
    have hattest := @attested_of_checkQc seat qc t.state
    obtain ⟨signatures, hk, hs⟩ := checkQc_state seat qc t.state
    generalize checkQc seat qc t.state = checked at hlabel hattest hs
    obtain ⟨valid, r⟩ := checked
    obtain rfl := hs
    refine (cache_moves signatures hk).trans ?_
    cases valid with
    | false => exact say_moves _
    | true =>
      simp only [Bool.not_true, Bool.false_eq_true, if_false]
      refine (advance_moves hq hk).trans ?_
      obtain ⟨hon, hgrown⟩ := advance_certified seat qc
        { t with state := { t.state with signatures } }
      generalize advance seat { qc := some qc } _ = t' at hon hgrown
      have hon := fun h => hon ⟨h, hlabel rfl⟩
      split
      · exact say_moves _
      · rename_i hcur
        rw [insertBlock_eq]
        refine (quiet_moves (idle_insertion t'.state.chain b)).trans ?_
        refine (@silent_moves rules seat t.state input
          { t' with effects := t'.effects ++ insertion t'.state.chain b } H _ _
          (.store hi (Decidable.not_not.mp hled) (Nat.le_of_not_lt hcur) hj
            (hlabel rfl) (fun h => hattest h rfl) hon hgrown)).trans ?_
        split
        · rename_i ha
          exact judge_moves hi ha fun q hq h =>
            Option.some.inj (hj.symm.trans hq) ▸ (hon (Option.some.inj (hj.symm.trans hq) ▸ h)).2
        · exact say_moves _

theorem checkSignature_state (seat : Seat) (s : Signature) (h : Hash) (r : Replica) :
    ∃ signatures, (Truthful seat.policy r.signatures → Truthful seat.policy signatures ∧
        (checkSignature seat s h r).1 = seat.policy.keys.verify s h) ∧
      (checkSignature seat s h r).2 = { r with signatures } :=
  ⟨_, fun ht => ⟨(verify_eq ht).2, (verify_eq ht).1⟩, rfl⟩

theorem onVote_moves {origin : ReplicaId} {v : Vote} (hi : input = .message origin (.vote v))
    (hb : t.state = before) :
    ∃ H', Moves rules seat before input ⟨t, H⟩ ⟨onVote seat origin v t, H'⟩ := by
  subst hb
  unfold onVote
  split
  · exact ⟨H, .refl⟩
  · split
    · exact ⟨H, say_moves _⟩
    · rename_i hk
      have hk := Decidable.not_not.mp hk
      obtain ⟨signatures, hv, hs⟩ := checkSignature_state seat v.signature v.block t.state
      generalize checkSignature seat v.signature v.block t.state = checked at hv hs
      obtain ⟨valid, r⟩ := checked
      obtain rfl := hs
      have hm : Moves rules seat t.state input ⟨t, H⟩
        ⟨{ t with state := { t.state with signatures } }, H⟩ :=
        cache_moves signatures fun h => (hv h).1
      cases valid with
      | false => exact ⟨H, hm.trans (say_moves _)⟩
      | true =>
        have hc := hm.trans (silent_moves (.collectVote hi hk fun h => (hv h).2.symm))
        unfold countVote voteCertificate at hc
        simp only [Bool.not_true, Bool.false_eq_true, if_false]
        generalize VoteCollector.collect (electorate seat) v.view v.block v.signature
          t.state.votes = collected at hc
        obtain ⟨qc?, votes⟩ := collected
        cases qc? with
        | none => exact ⟨_, hc⟩
        | some qc =>
          have hq : { qc := some qc } ∈
            H ++ (some qc).toList.map fun qc => ({ qc := some qc } : SyncInfo) := by simp
          exact ⟨_, hc.trans (ReflTransGen.trans (.single (.act (.certify hq)))
            (advance_moves hq fun h => (hv h).1))⟩

theorem checkTimeout_state (seat : Seat) (m : Timeout) (r : Replica) :
    ∃ signatures, (Truthful seat.policy r.signatures → Truthful seat.policy signatures) ∧
      (if (checkSignature seat m.signature m.view.hash r).1 then
        checkQc seat m.highQc (checkSignature seat m.signature m.view.hash r).2
      else (false, (checkSignature seat m.signature m.view.hash r).2)).2 =
        { r with signatures } := by
  obtain ⟨first, hv, hs⟩ := checkSignature_state seat m.signature m.view.hash r
  split
  · obtain ⟨signatures, hk, hs'⟩ := checkQc_state seat m.highQc
      (checkSignature seat m.signature m.view.hash r).2
    rw [hs] at hk hs'
    exact ⟨signatures, fun h => hk (hv h).1, hs ▸ hs'⟩
  · exact ⟨first, fun h => (hv h).1, hs⟩

theorem onTimeout_moves {origin : ReplicaId} {m : Timeout}
    (hi : input = .message origin (.timeout m)) (hq : { qc := some m.highQc } ∈ H)
    (hb : t.state = before) :
    ∃ H', Moves rules seat before input ⟨t, H⟩ ⟨onTimeout seat origin m t, H'⟩ := by
  subst hb
  obtain ⟨signatures, hk, hs⟩ := checkTimeout_state seat m t.state
  unfold onTimeout
  split
  · exact ⟨H, .refl⟩
  · dsimp only
    generalize (if (checkSignature seat m.signature m.view.hash t.state).1 then
        checkQc seat m.highQc (checkSignature seat m.signature m.view.hash t.state).2
      else (false, (checkSignature seat m.signature m.view.hash t.state).2)) = checked at hs
    obtain ⟨valid, r⟩ := checked
    obtain rfl := hs
    have hm : Moves rules seat t.state input ⟨t, H⟩
      ⟨{ t with state := { t.state with signatures } }, H⟩ := cache_moves signatures hk
    cases valid with
    | false => exact ⟨H, hm.trans (say_moves _)⟩
    | true =>
      simp only [Bool.not_true, Bool.false_eq_true, if_false]
      generalize ht : (if t.state.highQc.view < m.highQc.view then
        advance seat { qc := some m.highQc } { t with state := { t.state with signatures } }
        else { t with state := { t.state with signatures } }) = t₁
      have hm : Moves rules seat t.state input ⟨t, H⟩ ⟨t₁, H⟩ ∧
          (Truthful seat.policy t.state.signatures → Truthful seat.policy t₁.state.signatures) := by
        rw [← ht]
        split
        · exact ⟨hm.trans (advance_moves hq hk), truthful_advance ∘ hk⟩
        · exact ⟨hm, hk⟩
      have hc := hm.1.trans (silent_moves (.collectTimeout hi))
      unfold countTimeout timeoutCertificate at hc
      generalize TimeoutCollector.collect (electorate seat) m.view m.signature m.highQc
        t₁.state.timeouts = collected at hc
      obtain ⟨certified?, timeouts⟩ := collected
      cases certified? with
      | none => exact ⟨_, hc⟩
      | some x =>
        refine ⟨_, hc.trans ((emit_moves (e := .publish (.collectTc x.1)) trivial).trans
          (advance_moves ?_ hm.2))⟩
        simp

theorem announce_moves (origin : ReplicaId) (m : Message) :
    Moves rules seat before input ⟨t, H⟩ ⟨announce origin m t, H⟩ := by
  cases m with
  | propose p => exact emit_moves (e := .publish (.receiveProposal origin p)) trivial
  | vote v => exact emit_moves (e := .publish (.receiveVote origin v)) trivial
  | timeout m => exact .refl
  | newView n => exact .refl

theorem announce_state (origin : ReplicaId) (m : Message) :
    (announce origin m t).state = t.state := by
  cases m <;> rfl

theorem receive_moves {origin : ReplicaId} {m : Message} (r : Replica)
    (hm : m.impossibility? origin = none) :
    ∃ H', Moves rules seat r (.message origin m) ⟨{ state := r }, (Input.message origin m).hand⟩
      ⟨receive rules seat origin m r, H'⟩ := by
  have ha := @announce_moves rules seat r (.message origin m) { state := r }
    (Input.message origin m).hand origin m
  have hs := @announce_state { state := r } origin m
  unfold receive
  rw [hm]
  cases m with
  | propose p =>
    dsimp only
    split
    · exact ⟨_, ha⟩
    · rename_i qc hj
      refine ⟨_, ha.trans (onProposal_moves rfl hj ?_ hs)⟩
      rw [← hj]
      exact List.mem_singleton.mpr rfl
  | vote v =>
    obtain ⟨H', h⟩ := onVote_moves rfl hs
    exact ⟨H', ha.trans h⟩
  | timeout m =>
    obtain ⟨H', h⟩ := onTimeout_moves rfl (List.mem_singleton.mpr rfl) hs
    exact ⟨H', ha.trans h⟩
  | newView n => exact ⟨_, ha.trans (advance_moves (List.mem_singleton.mpr rfl) id)⟩

theorem tick_moves {r : Replica} (hr : r.view ≠ .zero) :
    Moves rules seat r .tick ⟨{ state := r }, []⟩ ⟨Replica.tick seat r, []⟩ := by
  unfold Replica.tick
  split
  · refine .head (.act (.count 0)) ?_
    refine (emit_moves (e := .publish (.timeout
      ⟨r.view, seat.policy.keys.sign r.view.hash, r.highQc⟩)) trivial).trans ?_
    exact .single (.act (.giveUp hr))
  · exact .single (.act (.count _))

/-- Every turn that is not halted is a sequence of acts. -/
theorem react_moves (r : Replica)
    (hm : ∀ origin m, input = .message origin m → m.impossibility? origin = none)
    (hr : input = .tick → r.view ≠ .zero) :
    ∃ H', Moves rules seat r input ⟨{ state := r }, input.hand⟩ ⟨input.react rules seat r, H'⟩ := by
  cases input with
  | start => exact ⟨_, advance_moves (s := { qc := some .genesis }) List.mem_cons_self id⟩
  | message origin m => exact receive_moves r (hm origin m rfl)
  | tick => exact ⟨_, tick_moves (hr rfl)⟩

end Equivocation.Proofs.Turns
