import Equivocation.Proofs.Quorums
import Equivocation.Proofs.Timeline
import Mathlib.Data.List.Forall2

namespace Equivocation.Proofs.Capacity

open Replica Validity Adoption Turns Timeline States
open Conduct (enterView_eq propose_eq arrival)
open Lockstep (relocked judge_eq)

def refit (n : Nat) (seat : Seat) : Seat :=
  { seat with policy := { seat.policy with capacity := n } }

def resized (config : RunConfig) (n : Nat) : RunConfig := { config with cacheCapacity := n }

def recache (c : SignatureCache) (r : Replica) : Replica := { r with signatures := c }

def swap (c : SignatureCache) (t : Turn Replica) : Turn Replica :=
  { t with state := recache c t.state }

/-- Two states that differ at most in what is cached, and nothing that is cached is wrong. -/
inductive StatePaired (seat : Seat) (r : Replica) : Replica → Prop
  | mk {c : SignatureCache} (held : Truthful seat.policy r.signatures)
    (other : Truthful seat.policy c) : StatePaired seat r (recache c r)

inductive TurnPaired (seat : Seat) (t : Turn Replica) : Turn Replica → Prop
  | mk {c : SignatureCache} (held : Truthful seat.policy t.state.signatures)
    (other : Truthful seat.policy c) : TurnPaired seat t (swap c t)

def Blind (f : Turn Replica → Turn Replica) : Prop := ∀ c t, f (swap c t) = swap c (f t)

def Oblivious (n : Nat) (turn : Seat → Replica → Turn Replica) : Prop :=
  ∀ seat : Seat, (∀ hash, seat.policy.keys.verify (seat.policy.keys.sign hash) hash = true) →
    ∀ r r', StatePaired seat r r' → TurnPaired seat (turn seat r) (turn (refit n seat) r')

variable {rules : Rules} {seat : Seat} {n : Nat} {r r' : Replica} {t t' : Turn Replica}
  {b : Block} {q : QuorumCertificate} {origin : ReplicaId}
  {f : Turn Replica → Turn Replica}

section Blindness

theorem blind_propose (seat : Seat) : Blind (propose seat) := by
  intro c t
  by_cases hp : t.state.view ≤ t.state.lastProposed
  · unfold propose
    exact (if_pos hp).trans (congrArg (swap c) (if_pos hp).symm)
  · have hf : t.state.lastProposed < t.state.view := Nat.lt_of_not_le hp
    rw [propose_eq hf, propose_eq (t := swap c t) hf]
    rfl

theorem blind_enterView (seat : Seat) (v : View) : Blind (enterView seat v) := by
  intro c t
  rw [enterView_eq, enterView_eq]
  cases seat.leader v with
  | none => rfl
  | some leader =>
    dsimp only
    split
    · exact blind_propose seat c (arrival seat v t)
    · rfl

theorem blind_enterCertified (seat : Seat) (s : SyncInfo) : Blind (enterCertified seat s) := by
  intro c t
  unfold enterCertified
  cases s.certifiedView? with
  | none => rfl
  | some v =>
    dsimp only
    by_cases hv : t.state.view ≤ v
    · exact (if_pos hv).trans ((blind_enterView seat v.next c t).trans
        (congrArg (swap c) (if_pos hv).symm))
    · exact (if_neg hv).trans (congrArg (swap c) (if_neg hv).symm)

theorem blind_insertBlock (b : Block) : Blind (insertBlock b) := by
  intro c t
  rw [insertBlock_eq, insertBlock_eq]
  rfl

theorem blind_commit (seat : Seat) (h : Hash) : Blind (commit seat h) := by
  intro c t
  have hc : (swap c t).state.chain = t.state.chain := rfl
  unfold commit
  rw [hc]
  cases t.state.chain.get? h with
  | none => rfl
  | some b =>
    refine Eq.trans ?_ (apply_ite (swap c) _ _ _).symm
    refine ite_congr rfl (fun _ => rfl) fun _ => ?_
    rw [foldl_commitBlock, foldl_commitBlock]
    rfl

theorem StatePaired.modify {g : Replica → Replica} (hg : ∀ c r, g (recache c r) = recache c (g r))
    (h : StatePaired seat r r') : StatePaired seat (g r) (g r') := by
  obtain ⟨held, other⟩ := h
  have hs : (g r).signatures = r.signatures := congrArg (·.signatures) (hg r.signatures r)
  rw [hg]
  exact .mk (hs ▸ held) other

theorem StatePaired.view (h : StatePaired seat r r') : r'.view = r.view := by
  obtain ⟨-, -⟩ := h
  rfl

theorem TurnPaired.blind (hf : Blind f) (h : TurnPaired seat t t') :
    TurnPaired seat (f t) (f t') := by
  obtain ⟨held, other⟩ := h
  have hs : (f t).state.signatures = t.state.signatures :=
    congrArg (·.state.signatures) (hf t.state.signatures t)
  rw [hf]
  exact .mk (hs ▸ held) other

theorem StatePaired.turn (h : StatePaired seat r r') (t : Turn Replica) :
    TurnPaired seat { t with state := r } { t with state := r' } := by
  obtain ⟨held, other⟩ := h
  exact .mk (t := { t with state := r }) held other

theorem TurnPaired.halt (h : TurnPaired seat t t') : t'.halt = t.halt := by
  obtain ⟨-, -⟩ := h
  rfl

theorem TurnPaired.state (h : TurnPaired seat t t') : StatePaired seat t.state t'.state := by
  obtain ⟨held, other⟩ := h
  exact .mk held other

end Blindness

section Checks

theorem checkQc_iff (ht : Truthful seat.policy r.signatures) :
    (checkQc seat q r).1 = true ↔ ValidQc seat.policy r.chain q :=
  ⟨fun h => ⟨attested_of_checkQc ht h, labelled_of_checkQc h⟩, checkQc_of_valid⟩

theorem checkQc_statePaired (n : Nat) (q : QuorumCertificate) (h : StatePaired seat r r') :
    (checkQc (refit n seat) q r').1 = (checkQc seat q r).1 ∧
      StatePaired seat (checkQc seat q r).2 (checkQc (refit n seat) q r').2 := by
  obtain @⟨c, held, other⟩ := h
  refine ⟨Bool.eq_iff_iff.mpr ((checkQc_iff other).trans (checkQc_iff held).symm), ?_⟩
  obtain ⟨s, hk, hs⟩ := checkQc_state seat q r
  obtain ⟨s', hk', hs'⟩ := checkQc_state (refit n seat) q (recache c r)
  rw [hs, hs']
  exact .mk (r := { r with signatures := s }) (hk held) (hk' other)

theorem checkSignature_statePaired (n : Nat) (s : Signature) (hash : Hash)
    (h : StatePaired seat r r') :
    (checkSignature (refit n seat) s hash r').1 = (checkSignature seat s hash r).1 ∧
      StatePaired seat (checkSignature seat s hash r).2
        (checkSignature (refit n seat) s hash r').2 := by
  obtain @⟨c, held, other⟩ := h
  obtain ⟨x, hk, hx⟩ := checkSignature_state seat s hash r
  obtain ⟨x', hk', hx'⟩ := checkSignature_state (refit n seat) s hash (recache c r)
  refine ⟨(hk' other).2.trans (hk held).2.symm, ?_⟩
  rw [hx, hx']
  exact .mk (r := { r with signatures := x }) (hk held).1 (hk' other).1

/-- Own signatures are cached, if there is room, without a check. -/
theorem sign_statePaired (n : Nat) (hash : Hash)
    (hown : seat.policy.keys.verify (seat.policy.keys.sign hash) hash = true)
    (h : StatePaired seat r r') :
    (sign (refit n seat) hash r').1 = (sign seat hash r).1 ∧
      StatePaired seat (sign seat hash r).2 (sign (refit n seat) hash r').2 := by
  obtain @⟨c, held, other⟩ := h
  have hs := truthful_sign held hown
  have hs' := @truthful_sign (refit n seat).policy c hash other hown
  exact ⟨rfl, .mk (r := (sign seat hash r).2) hs hs'⟩

theorem advance_turnPaired (n : Nat) (s : SyncInfo) (h : TurnPaired seat t t') :
    TurnPaired seat (advance seat s t) (advance (refit n seat) s t') := by
  obtain @⟨c, held, other⟩ := h
  have hspec := advance_spec seat s t
  have hspec' := advance_spec (refit n seat) s (swap c t)
  generalize advance seat s t = u at hspec ⊢
  generalize advance (refit n seat) s (swap c t) = u' at hspec' ⊢
  -- What is valid does not depend on the cache, so the outcome is the same.
  cases hspec with
  | refused x kept timed void =>
    cases hspec' with
    | refused x' kept' timed' void' =>
      exact .mk (t := say seat .invalidTc (t.modify (recache x))) (kept held) (kept' other)
    | torn x' kept' voted' void' valid' => exact absurd (valid' other _ timed) void
    | taken x' kept' valid' => exact absurd ((valid' other).1 _ timed) void
  | torn x kept voted void valid =>
    cases hspec' with
    | refused x' kept' timed' void' => exact absurd (valid held _ timed') void'
    | torn x' kept' voted' void' valid' =>
      exact .mk (t := say seat .invalidQc
        (t.modify fun r => { r with signatures := x, highTc := takeTc r.highTc s.tc }))
        (kept held) (kept' other)
    | taken x' kept' valid' => exact absurd ((valid' other).2 _ voted) void
  | taken x kept valid =>
    cases hspec' with
    | refused x' kept' timed' void' => exact absurd ((valid held).1 _ timed') void'
    | torn x' kept' voted' void' valid' => exact absurd ((valid held).2 _ voted') void'
    | taken x' kept' valid' =>
      refine TurnPaired.blind (blind_enterCertified seat s) ?_
      exact .mk (t := t.modify fun r =>
        { r with signatures := x, highTc := takeTc r.highTc s.tc, highQc := takeQc r.highQc s.qc })
        (kept held) (kept' other)

end Checks

section Handlers

theorem turnPaired_ite {p : Prop} [Decidable p] {u u' : Turn Replica}
    (ht : p → TurnPaired seat t t') (hu : ¬ p → TurnPaired seat u u') :
    TurnPaired seat (if p then t else u) (if p then t' else u') := by
  split
  · rename_i h
    exact ht h
  · rename_i h
    exact hu h

theorem TurnPaired.emit (h : TurnPaired seat t t') (e : Effect) :
    TurnPaired seat (t.emit e) (t'.emit e) :=
  h.blind fun _ _ => rfl

theorem say_turnPaired (m : Remark) (h : TurnPaired seat t t') :
    TurnPaired seat (say seat m t) (say seat m t') :=
  h.emit _

theorem onVote_turnPaired (n : Nat) (v : Vote) (h : TurnPaired seat t t') :
    TurnPaired seat (onVote seat origin v t) (onVote (refit n seat) origin v t') := by
  obtain ⟨hv, hm⟩ := checkSignature_statePaired n v.signature v.block h.state
  obtain @⟨c, held, other⟩ := h
  unfold onVote
  refine turnPaired_ite (fun _ => .mk held other) fun _ => ?_
  refine turnPaired_ite (fun _ => say_turnPaired _ (.mk held other)) fun _ => ?_
  generalize checkSignature seat v.signature v.block t.state = x at hv hm ⊢
  generalize checkSignature (refit n seat) v.signature v.block (swap c t).state = x' at hv hm ⊢
  obtain ⟨valid, r⟩ := x
  obtain ⟨valid', r'⟩ := x'
  obtain rfl : valid' = valid := hv
  obtain ⟨held, other⟩ := hm
  refine turnPaired_ite (fun _ => say_turnPaired _ (.mk (t := { t with state := r }) held other))
    fun _ => ?_
  have helectorate : electorate (refit n seat) = electorate seat := rfl
  dsimp only
  rw [helectorate]
  generalize VoteCollector.collect (electorate seat) v.view v.block v.signature r.votes = collected
  obtain ⟨qc?, votes⟩ := collected
  have hm := TurnPaired.mk (t := { t with state := { r with votes } }) held other
  cases qc? with
  | none => exact hm
  | some qc => exact advance_turnPaired n _ (hm.emit (.publish (.collectQc qc)))

theorem checkTimeout_statePaired (n : Nat) (m : Timeout) (h : StatePaired seat r r') :
    ∃ valid s s', StatePaired seat s s' ∧
      (if (checkSignature seat m.signature m.view.hash r).1 then
        checkQc seat m.highQc (checkSignature seat m.signature m.view.hash r).2
      else (false, (checkSignature seat m.signature m.view.hash r).2)) = (valid, s) ∧
      (if (checkSignature (refit n seat) m.signature m.view.hash r').1 then
        checkQc (refit n seat) m.highQc
          (checkSignature (refit n seat) m.signature m.view.hash r').2
      else (false, (checkSignature (refit n seat) m.signature m.view.hash r').2)) =
        (valid, s') := by
  obtain ⟨hv, hm⟩ := checkSignature_statePaired n m.signature m.view.hash h
  obtain ⟨hv', hm'⟩ := checkQc_statePaired n m.highQc hm
  rw [hv]
  split
  · exact ⟨_, _, _, hm', rfl, Prod.ext hv' rfl⟩
  · exact ⟨_, _, _, hm, rfl, rfl⟩

theorem onTimeout_turnPaired (n : Nat) (m : Timeout) (h : TurnPaired seat t t') :
    TurnPaired seat (onTimeout seat origin m t) (onTimeout (refit n seat) origin m t') := by
  obtain ⟨valid, r, r', hm, he, he'⟩ := checkTimeout_statePaired n m h.state
  obtain @⟨c, held, other⟩ := h
  unfold onTimeout
  refine turnPaired_ite (fun _ => .mk held other) fun _ => ?_
  dsimp only
  rw [he, he']
  have ha := hm.turn t
  cases valid with
  | false => exact say_turnPaired _ ha
  | true =>
    simp only [Bool.not_true, Bool.false_eq_true, if_false]
    have hadv : TurnPaired seat
        (if r.highQc.view < m.highQc.view then
          advance seat { qc := some m.highQc } { t with state := r }
        else { t with state := r })
        (if r'.highQc.view < m.highQc.view then
          advance (refit n seat) { qc := some m.highQc } { swap c t with state := r' }
        else { swap c t with state := r' }) := by
      obtain ⟨held, other⟩ := hm
      exact turnPaired_ite (fun _ => advance_turnPaired n _ ha) fun _ => ha
    generalize (if r.highQc.view < m.highQc.view then _ else _) = u at hadv ⊢
    generalize (if r'.highQc.view < m.highQc.view then _ else _) = u' at hadv ⊢
    obtain @⟨d, held, other⟩ := hadv
    have helectorate : electorate (refit n seat) = electorate seat := rfl
    have htimeouts : (swap d u).state.timeouts = u.state.timeouts := rfl
    rw [helectorate, htimeouts]
    generalize TimeoutCollector.collect (electorate seat) m.view m.signature m.highQc
      u.state.timeouts = collected
    obtain ⟨certified?, timeouts⟩ := collected
    have hm := TurnPaired.mk (t := u.modify fun r => { r with timeouts }) held other
    cases certified? with
    | none => exact hm
    | some certified =>
      exact advance_turnPaired n _ (hm.emit (.publish (.collectTc certified.1)))

theorem relocked_turnPaired (c : Rules.Consequence) (h : TurnPaired seat t t') :
    TurnPaired seat (relocked c t) (relocked c t') :=
  h.blind fun _ _ => rfl

variable (hown : ∀ hash, seat.policy.keys.verify (seat.policy.keys.sign hash) hash = true)
include hown

theorem castVote_turnPaired (n : Nat) (b : Block) (h : TurnPaired seat t t') :
    TurnPaired seat (castVote seat b t) (castVote (refit n seat) b t') := by
  have hm := h.state.modify
    (g := fun r => { r with safety := { r.safety with lastVote := b.view } }) fun _ _ => rfl
  obtain ⟨hs, hm⟩ := sign_statePaired n b.hash (hown _) hm
  obtain ⟨held, other⟩ := h
  have hleader : (refit n seat).leader b.view.next = seat.leader b.view.next := rfl
  unfold castVote
  dsimp only
  rw [hs, hleader]
  have hvoted := fun s => (hm.turn t).emit (.publish (.vote ⟨b.view, b.hash, s⟩))
  cases seat.leader b.view.next with
  | none => exact say_turnPaired _ (hvoted _)
  | some leader => exact (hvoted _).emit _

theorem judge_turnPaired (rules : Rules) (n : Nat) (b : Block) (h : TurnPaired seat t t') :
    TurnPaired seat (judge rules seat b t) (judge rules (refit n seat) b t') := by
  have hc : rules.consequence t'.state.chain t'.state.safety b =
      rules.consequence t.state.chain t.state.safety b := by
    obtain ⟨held, other⟩ := h
    rfl
  rw [judge_eq rfl rfl, judge_eq hc rfl]
  generalize rules.consequence t.state.chain t.state.safety b = c
  have hsettled : TurnPaired seat (c.commit.elim (relocked c t) (commit seat · (relocked c t)))
      (c.commit.elim (relocked c t') (commit (refit n seat) · (relocked c t'))) := by
    cases c.commit with
    | none => exact relocked_turnPaired c h
    | some hash => exact (relocked_turnPaired c h).blind (blind_commit seat hash)
  generalize c.commit.elim (relocked c t) (commit seat · (relocked c t)) = u at hsettled ⊢
  generalize c.commit.elim (relocked c t') (commit (refit n seat) · (relocked c t')) = u'
    at hsettled ⊢
  have hcast := castVote_turnPaired hown n b hsettled
  obtain ⟨held, other⟩ := hsettled
  exact turnPaired_ite (fun _ => hcast) fun _ => .mk held other

theorem onProposal_turnPaired (n : Nat) (b : Block) (q : QuorumCertificate)
    (h : TurnPaired seat t t') :
    TurnPaired seat (onProposal rules seat origin b q t)
      (onProposal rules (refit n seat) origin b q t') := by
  obtain ⟨hv, hm⟩ := checkQc_statePaired n q h.state
  obtain @⟨c, held, other⟩ := h
  unfold onProposal
  refine turnPaired_ite (fun _ => say_turnPaired _ (.mk held other)) fun _ => ?_
  generalize checkQc seat q t.state = x at hv hm ⊢
  generalize checkQc (refit n seat) q (swap c t).state = x' at hv hm ⊢
  obtain ⟨valid, r⟩ := x
  obtain ⟨valid', r'⟩ := x'
  obtain rfl : valid' = valid := hv
  have hr : TurnPaired seat { t with state := r } { swap c t with state := r' } := hm.turn t
  refine turnPaired_ite (fun _ => say_turnPaired _ hr) fun _ => ?_
  have hadv := advance_turnPaired n { qc := some q } hr
  generalize advance seat { qc := some q } { t with state := r } = u at hadv ⊢
  generalize advance (refit n seat) { qc := some q } { swap c t with state := r' } = u' at hadv ⊢
  have hstored := hadv.blind (blind_insertBlock b)
  have hjudged := judge_turnPaired hown rules n b hstored
  obtain @⟨d, held, other⟩ := hadv
  refine turnPaired_ite (fun _ => say_turnPaired _ (.mk held other)) fun _ => ?_
  have hknown : (insertBlock b (swap d u)).state.chain = (insertBlock b u).state.chain :=
    congrArg (·.state.chain) (blind_insertBlock b _ u)
  dsimp only
  rw [hknown]
  exact turnPaired_ite (fun _ => hjudged) fun _ => say_turnPaired _ hstored

theorem receive_turnPaired (n : Nat) (origin : ReplicaId) (m : Message)
    (h : StatePaired seat r r') :
    TurnPaired seat (receive rules seat origin m r) (receive rules (refit n seat) origin m r') := by
  have hblind : Blind (announce origin m) := fun _ _ => by cases m <;> rfl
  have hannounced := TurnPaired.blind hblind (h.turn { state := r })
  unfold receive
  cases m.impossibility? origin with
  | some i => exact hannounced.blind (f := fun t => { t with halt := _ }) fun _ _ => rfl
  | none =>
    cases m with
    | propose p =>
      dsimp only
      cases p.block.justify with
      | none => exact hannounced
      | some qc => exact onProposal_turnPaired hown n p.block qc hannounced
    | vote v => exact onVote_turnPaired n v hannounced
    | timeout m => exact onTimeout_turnPaired n m hannounced
    | newView nv => exact advance_turnPaired n nv.sync hannounced

omit hown in
theorem start_turnPaired (n : Nat) (h : StatePaired seat r r') :
    TurnPaired seat (start seat r) (start (refit n seat) r') :=
  advance_turnPaired n _ (h.turn { state := r })

theorem giveUp_turnPaired (n : Nat) (h : TurnPaired seat t t') :
    TurnPaired seat (giveUp seat t) (giveUp (refit n seat) t') := by
  obtain @⟨c, held, other⟩ := h
  have hs := truthful_sign held (hown t.state.view.hash)
  have hs' := @truthful_sign (refit n seat).policy c t.state.view.hash other (hown _)
  exact .mk (t := giveUp seat t) hs hs'

theorem tick_turnPaired (n : Nat) (h : StatePaired seat r r') :
    TurnPaired seat (tick seat r) (tick (refit n seat) r') := by
  obtain ⟨held, other⟩ := h
  unfold tick
  refine turnPaired_ite (fun _ => ?_) fun _ => ?_
  · exact giveUp_turnPaired hown n (.mk (t := { state := { r with viewTicks := 0 } }) held other)
  · exact .mk (t := { state := { r with viewTicks := r.viewTicks + 1 } }) held other

end Handlers

section Runs

/-- Two instances in the same seat but for the room in their caches, which are at most what they
differ in. They check signatures as all others do, and have the key to their own. -/
structure Paired (rules : Rules) (n : Nat) (check : Signature → Hash → Bool)
    (i i' : Instance rules.protocol) : Prop where
  seat : i'.seat = refit n i.seat
  state : StatePaired i.seat i.state i'.state
  commits : i'.commits = i.commits
  unread : i'.unread = i.unread
  checks : ∀ s hash, i.seat.policy.keys.verify s hash = check s hash
  own : ∀ hash, i.seat.policy.keys.verify (i.seat.policy.keys.sign hash) hash = true

structure RunPaired (rules : Rules) (n : Nat) (check : Signature → Hash → Bool)
    (run run' : Run rules.protocol) : Prop where
  instances : List.Forall₂ (Paired rules n check) run.instances run'.instances
  network : run'.network = run.network
  ticks : run'.ticks = run.ticks
  received : run'.received = run.received
  records : run'.records = run.records

inductive StepPaired (rules : Rules) (n : Nat) (check : Signature → Hash → Bool) :
    Run.Step rules.protocol → Run.Step rules.protocol → Prop
  | ok {run run' : Run rules.protocol} (h : RunPaired rules n check run run') :
    StepPaired rules n check (.ok run) (.ok run')
  | error {run run' : Run rules.protocol} (e : RunError) (h : RunPaired rules n check run run') :
    StepPaired rules n check (.error (e, run)) (.error (e, run'))

variable {check : Signature → Hash → Bool} {run run' : Run rules.protocol}
  {i i' : Instance rules.protocol} {is is' : List (Instance rules.protocol)}

theorem StatePaired.congr {seat' : Seat}
    (hk : ∀ s hash, seat.policy.keys.verify s hash = seat'.policy.keys.verify s hash)
    (h : StatePaired seat r r') : StatePaired seat' r r' := by
  obtain ⟨held, other⟩ := h
  exact .mk (fun hash s hs => hk s hash ▸ held hash s hs)
    fun hash s hs => hk s hash ▸ other hash s hs

theorem Paired.node (h : Paired rules n check i i') : i'.seat.node = i.seat.node := by
  rw [h.seat]
  rfl

theorem map_paired {α : Type} {f : Instance rules.protocol → α}
    (hf : ∀ i i', Paired rules n check i i' → f i' = f i)
    (h : List.Forall₂ (Paired rules n check) is is') : is'.map f = is.map f := by
  induction h with
  | nil => rfl
  | cons hi _ ih => rw [List.map_cons, List.map_cons, hf _ _ hi, ih]

theorem find?_paired (h : List.Forall₂ (Paired rules n check) is is') (x : NodeId) :
    Option.Rel (Paired rules n check) (is.find? (·.seat.node = x))
      (is'.find? (·.seat.node = x)) := by
  induction h with
  | nil => exact .none
  | @cons i i' _ _ hi _ ih =>
    rw [List.find?_cons, List.find?_cons, hi.node]
    cases decide (i.seat.node = x) with
    | true => exact .some hi
    | false => exact ih

theorem moved_paired (h : RunPaired rules n check run run') (hi : Paired rules n check i i')
    (x : NodeId) {u u' : Turn Replica} (hu : TurnPaired i.seat u u') :
    RunPaired rules n check (moved run x i u) (moved run' x i' u') := by
  have hm := hu.state
  obtain ⟨held, other⟩ := hu
  refine ⟨?_, ?_, h.ticks, h.received, ?_⟩
  · refine List.forall₂_map_left_iff.mpr (List.forall₂_map_right_iff.mpr ?_)
    refine h.instances.imp fun j j' hj => ?_
    rw [hj.node]
    split
    · refine ⟨hj.seat, hm.congr fun s hash => ?_, hj.commits, ?_, hj.checks, hj.own⟩
      · exact (hi.checks s hash).trans (hj.checks s hash).symm
      · exact congrArg (· ++ u.events) hj.unread
    · exact hj
  · dsimp only [moved]
    rw [h.network, hi.seat]
    rfl
  · exact congrArg (· ++ u.remarks) h.records

theorem act_paired (h : RunPaired rules n check run run') (x : NodeId)
    {turn : Seat → Replica → Turn Replica} (ht : Oblivious n turn) :
    StepPaired rules n check (run.act x turn) (run'.act x turn) := by
  have hf := find?_paired h.instances x
  unfold Run.act
  generalize run.instances.find? (·.seat.node = x) = i? at hf ⊢
  generalize run'.instances.find? (·.seat.node = x) = i?' at hf ⊢
  cases hf with
  | none => exact .ok h
  | @some i i' hi =>
    have hu := ht i.seat hi.own i.state i'.state hi.state
    have hnext := moved_paired h hi x hu
    unfold moved at hnext
    dsimp only
    rw [hi.seat] at hnext ⊢
    rw [hu.halt]
    cases (turn i.seat i.state).halt with
    | none => exact .ok hnext
    | some halt => exact .error _ hnext

theorem deliver_paired (h : RunPaired rules n check run run') (d : Delivery) :
    StepPaired rules n check (Run.deliver d run) (Run.deliver d run') := by
  unfold Run.deliver
  dsimp only
  have hturn : Oblivious n fun seat r => rules.protocol.receive seat d.origin d.message r :=
    fun _ hown _ _ h => receive_turnPaired hown n d.origin d.message h
  refine act_paired ?_ d.receiver hturn
  exact ⟨h.instances, h.network, h.ticks, congrArg (· ++ _) h.received,
    congrArg (· ++ _) h.records⟩

theorem sequence_paired {α : Type} {step : α → Run rules.protocol → Run.Step rules.protocol}
    (hstep : ∀ x run run', RunPaired rules n check run run' →
      StepPaired rules n check (step x run) (step x run'))
    (xs : List α) (h : RunPaired rules n check run run') :
    StepPaired rules n check (Run.sequence step xs run) (Run.sequence step xs run') := by
  induction xs generalizing run run' with
  | nil => exact .ok h
  | cons x xs ih =>
    rw [Run.sequence, Run.sequence]
    have hx := hstep x run run' h
    revert hx
    generalize step x run = r, step x run' = r'
    intro hx
    cases hx with
    | ok h => exact ih h
    | error e h => exact .error e h

theorem acts_paired {turn : Seat → Replica → Turn Replica} (ht : Oblivious n turn)
    (xs : List NodeId) (h : RunPaired rules n check run run') :
    StepPaired rules n check (Run.sequence (fun x => Run.act x turn) xs run)
      (Run.sequence (fun x => Run.act x turn) xs run') :=
  sequence_paired (fun x _ _ h => act_paired h x ht) xs h

theorem nodes_paired (h : RunPaired rules n check run run') : run'.nodes = run.nodes :=
  map_paired (fun _ _ => Paired.node) h.instances

theorem readEvents_paired (config : RunConfig) (h : RunPaired rules n check run run') :
    RunPaired rules n check (run.readEvents config) (run'.readEvents (resized config n)) := by
  refine ⟨?_, h.network, h.ticks, h.received, ?_⟩
  · refine List.forall₂_map_left_iff.mpr (List.forall₂_map_right_iff.mpr ?_)
    refine h.instances.imp fun i i' hi => ⟨hi.seat, hi.state, ?_, rfl, hi.checks, hi.own⟩
    unfold Instance.read
    dsimp only
    rw [hi.commits, hi.unread]
  · have hunread : run'.instances.flatMap (fun i => i.unread.map (Event.record i.seat.node)) =
        run.instances.flatMap fun i => i.unread.map (Event.record i.seat.node) := by
      refine congrArg List.flatten (map_paired (fun i i' hi => ?_) h.instances)
      rw [hi.node, hi.unread]
    unfold Run.readEvents
    dsimp only
    rw [h.records, hunread]
    rfl

theorem finished_paired (w : Wiring) (h : RunPaired rules n check run run') :
    run'.finished w = run.finished w := by
  have hm := map_paired (f := fun i => decide (w.scenario.lastView < rules.protocol.view i.state))
    (fun i i' hi => congrArg (fun v => decide (w.scenario.lastView < v)) hi.state.view) h.instances
  have ha := congrArg (List.all · id) hm
  rwa [List.all_map, List.all_map] at ha

theorem tick_paired (config : RunConfig) (w : Wiring) (h : RunPaired rules n check run run') :
    StepPaired rules n check (Run.tick config w run) (Run.tick (resized config n) w run') := by
  have h₀ : RunPaired rules n check
      { run with
        network := (Network.nextBatch w run.network).2
        records := run.records ++ (Network.nextBatch w run.network).1.remarks }
      { run' with
        network := (Network.nextBatch w run'.network).2
        records := run'.records ++ (Network.nextBatch w run'.network).1.remarks } := by
    rw [h.network, h.records]
    exact ⟨h.instances, rfl, h.ticks, h.received, rfl⟩
  unfold Run.tick
  dsimp only
  rw [h.network] at h₀ ⊢
  have h₁ := sequence_paired (fun d _ _ h => deliver_paired h d)
    (Network.nextBatch w run.network).1.deliveries h₀
  revert h₁
  generalize Run.sequence _ _ _ = r, Run.sequence _ _ _ = r'
  intro h₁
  cases h₁ with
  | error e h => exact .error e h
  | @ok run₁ run₁' h₁ =>
    dsimp only
    rw [nodes_paired h₁]
    have htick : Oblivious n rules.protocol.tick := fun _ hown _ _ h => tick_turnPaired hown n h
    have h₂ := acts_paired htick run₁.nodes h₁
    revert h₂
    generalize Run.sequence _ _ _ = r, Run.sequence _ _ _ = r'
    intro h₂
    cases h₂ with
    | error e h => exact .error e h
    | ok h₂ =>
      have h₃ := readEvents_paired config h₂
      refine .ok ⟨h₃.instances, h₃.network, ?_, h₃.received, h₃.records⟩
      exact congrArg (· + 1) h₃.ticks

theorem loop_paired (config : RunConfig) (w : Wiring) (budget : Nat)
    (h : RunPaired rules n check run run') :
    StepPaired rules n check (Run.loop config w budget run)
      (Run.loop (resized config n) w budget run') := by
  induction budget generalizing run run' with
  | zero => exact .ok h
  | succ budget ih =>
    have hd : (resized config n).deadlinePassed = config.deadlinePassed := rfl
    rw [Run.loop, Run.loop, finished_paired w h, h.ticks, hd]
    split
    · exact .error _ h
    · split
      · exact .ok h
      · have ht := tick_paired config w h
        revert ht
        generalize Run.tick _ _ run = r, Run.tick _ _ run' = r'
        intro ht
        cases ht with
        | error e h => exact .error e h
        | ok h => exact ih h

theorem complete_paired (config : RunConfig) (w : Wiring) (h : RunPaired rules n check run run') :
    StepPaired rules n check (run.complete config w) (run'.complete (resized config n) w) := by
  unfold Run.complete
  rw [nodes_paired h]
  have hstart : Oblivious n rules.protocol.start := by
    dsimp only [Rules.protocol]
    exact fun _ _ _ _ h => start_turnPaired n h
  have hs := acts_paired hstart run.nodes h
  revert hs
  generalize Run.sequence _ _ _ = r, Run.sequence _ _ _ = r'
  intro hs
  cases hs with
  | error e h => exact .error e h
  | ok h => exact loop_paired config w config.ticks h

theorem outcome_paired (config : RunConfig) (w : Wiring) {r r' : Run.Step rules.protocol}
    (h : StepPaired rules n check r r') :
    Run.outcome (resized config n) w r' = Run.outcome config w r := by
  cases h with
  | error e h =>
    unfold Run.outcome
    dsimp only
    rw [h.received, h.records]
  | @ok run run' h =>
    have h := readEvents_paired config h
    have hlog : (run'.readEvents (resized config n)).commitLog =
        (run.readEvents config).commitLog :=
      map_paired (fun i i' hi => by rw [hi.node, hi.commits]) h.instances
    unfold Run.outcome
    dsimp only
    rw [hlog, h.network, h.ticks, h.received, h.records]
    rfl

variable (scheme : Scheme) (s : Scenario) (config : RunConfig)

theorem protocol_builtIn {name : String} {p : Protocol} (h : Registry.builtIn.get? name = some p) :
    ∃ rules : Rules, p = rules.protocol := by
  have hb : Registry.builtIn = [(Rules.chained.name, Rules.chained.protocol),
      (Rules.simple.name, Rules.simple.protocol)] := rfl
  rw [hb, Table.get?_cons, Table.get?_cons] at h
  split at h
  · exact ⟨.chained, (Option.some.inj h).symm⟩
  · split at h
    · exact ⟨.simple, (Option.some.inj h).symm⟩
    · cases h

theorem opened_paired (hs : ∀ r h, scheme.verify r h (scheme.sign r h) = true) (rules : Rules)
    (n : Nat) :
    RunPaired rules n (Keyring.verify ⟨scheme, default, Deployment.replicas config.replicas⟩)
      (opened scheme s config rules.protocol)
      (opened scheme s (resized config n) rules.protocol) := by
  refine ⟨?_, rfl, rfl, rfl, rfl⟩
  refine List.forall₂_map_left_iff.mpr (List.forall₂_map_right_iff.mpr ?_)
  refine List.forall₂_same.mpr fun x hx => ⟨rfl, ?_, rfl, rfl, fun _ _ => rfl, ?_⟩
  · exact .mk truthful_empty truthful_empty
  · exact Quorums.signs_own scheme s config hs hx

theorem runProtocol_resized (hs : ∀ r h, scheme.verify r h (scheme.sign r h) = true)
    (rules : Rules) (n : Nat) :
    runProtocol scheme s (resized config n) rules.protocol =
      runProtocol scheme s config rules.protocol := by
  have hv : (resized config n).validate s = config.validate s :=
    @validate_congr config (resized config n) rfl rfl s
  cases h : config.validate s with
  | error e =>
    unfold runProtocol
    rw [hv, h]
  | ok =>
    rw [runProtocol_eq scheme _ (hv.trans h), runProtocol_eq scheme _ h]
    exact outcome_paired config (wiring s config)
      (complete_paired config (wiring s config) (opened_paired scheme s config hs rules n))

/-- The room in the signature caches has no bearing on a run: however little it is, a run ends with
the same error, or with the same messages, logs, ticks and verdict. -/
theorem capacity_irrelevant (hs : ∀ r h, scheme.verify r h (scheme.sign r h) = true) (n : Nat) :
    runRegistered scheme s (resized config n) Registry.builtIn =
      runRegistered scheme s config Registry.builtIn := by
  have hname : (resized config n).protocol = config.protocol := rfl
  unfold runRegistered
  rw [hname]
  cases hp : Registry.builtIn.get? config.protocol with
  | none => rfl
  | some p =>
    obtain ⟨rules, rfl⟩ := protocol_builtIn hp
    exact runProtocol_resized scheme s config hs rules n

open Agreement (plainScheme openScenario fourReplicas openRun openRun_simple open_valid
  runRegistered_ok)

/-- With room for one signature, which makes way for the next, a run of the simple rules commits
what it commits without a cache. -/
theorem capacity_irrelevant_simple :
    ∃ result, (runRegistered plainScheme openScenario (resized (fourReplicas .simple 7) 1)
        Registry.builtIn).result = .ok result ∧
      (openRun .simple).result = .ok result ∧ ∃ x ∈ result.commitLog, x.2 ≠ [] := by
  have h := capacity_irrelevant plainScheme openScenario (fourReplicas .simple 7)
    (fun _ _ => decide_eq_true rfl) 1
  obtain ⟨result, -, he, -⟩ := @runRegistered_ok plainScheme openScenario (fourReplicas .simple 7)
    .simple rfl (open_valid .simple) rfl rfl
  exact ⟨result, (congrArg (·.result) h).trans he, he, (openRun_simple he).2⟩

end Runs

end Equivocation.Proofs.Capacity
