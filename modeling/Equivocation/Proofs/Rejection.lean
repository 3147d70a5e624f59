import Equivocation.Proofs.Attribution

namespace Equivocation.Proofs.Rejection

open Attribution

inductive Wrong (origin : ReplicaId) : Message → Impossibility → Prop
  | proposalInViewZero {p : Proposal} (zero : p.block.view = .zero) :
    Wrong origin (.propose p) .proposalInViewZero
  | uncertified {p : Proposal} (bare : p.block.justify = none) :
    Wrong origin (.propose p) (.uncertifiedProposal p.block.view)
  | misplaced {p : Proposal} {q : QuorumCertificate} (carried : p.block.justify = some q)
    (astray : p.block.parent ≠ q.block) :
    Wrong origin (.propose p) (.parentNotCertified p.block.hash p.block.parent q.block)
  | foreignProposal {p : Proposal} (other : p.block.proposer ≠ origin) :
    Wrong origin (.propose p) (.foreignProposal p.block.proposer origin)
  | foreignVote {v : Vote} (other : v.signature.signer ≠ origin) :
    Wrong origin (.vote v) (.foreignVote v.signature.signer origin)
  | timeoutInViewZero {t : Timeout} (zero : t.view = .zero) :
    Wrong origin (.timeout t) .timeoutInViewZero
  | foreignTimeout {t : Timeout} (other : t.signature.signer ≠ origin) :
    Wrong origin (.timeout t) (.foreignTimeout t.signature.signer origin)
  | newViewInViewZero {n : NewView} (zero : n.view = .zero) :
    Wrong origin (.newView n) .newViewInViewZero

def rank : Impossibility → Nat
  | .proposalInViewZero => 0
  | .uncertifiedProposal _ => 1
  | .parentNotCertified _ _ _ => 2
  | .foreignProposal _ _ => 3
  | .foreignVote _ _ => 4
  | .timeoutInViewZero => 5
  | .foreignTimeout _ _ => 6
  | .newViewInViewZero => 7

def FirstWrong (origin : ReplicaId) (m : Message) (i : Impossibility) : Prop :=
  Wrong origin m i ∧ ∀ j, Wrong origin m j → rank i ≤ rank j

def receiptEvent (origin : ReplicaId) : Message → Option Event
  | .propose p => some (.receiveProposal origin p)
  | .vote v => some (.receiveVote origin v)
  | .timeout _ => none
  | .newView _ => none

/-- A turn is halted by an impossible message and by nothing else, before anything has changed. -/
structure Guarded (origin : ReplicaId) (m : Message) (r : Replica) (t : Turn Replica) : Prop where
  halts_iff : t.halt ≠ none ↔ Impossible origin m
  reports : ∀ h, t.halt = some h ↔ ∃ i, FirstWrong origin m i ∧ h = .fault i.fault
  state : t.halt ≠ none → t.state = r
  effects : t.halt ≠ none → t.effects = ((receiptEvent origin m).map Effect.publish).toList
  sent : t.halt ≠ none → t.sent = []
  events : t.halt ≠ none → t.events = (receiptEvent origin m).toList

variable {origin : ReplicaId} {m : Message} {i j : Impossibility}

section Checks

/-- Each check has a place of its own. -/
theorem rank_eq_iff : rank i = rank j ↔ i.fault.location = j.fault.location := by
  cases i <;> cases j <;> simp [rank, Impossibility.fault]

theorem wrong_unique (h : Wrong origin m i) (h' : Wrong origin m j) (hr : rank i = rank j) :
    i = j := by
  cases h <;> cases h' <;> simp_all [rank]

theorem wrong_of_impossibility? (h : m.impossibility? origin = some i) : Wrong origin m i := by
  cases m with
  | propose p =>
    simp only [Message.impossibility?] at h
    split at h
    next hz =>
      cases h
      exact .proposalInViewZero hz
    next =>
      split at h
      next hj =>
        cases h
        exact .uncertified hj
      next q hj =>
        split at h
        next hp =>
          cases h
          exact .misplaced hj hp
        next =>
          split at h
          next ho =>
            cases h
            exact .foreignProposal ho
          next => cases h
  | vote v =>
    simp only [Message.impossibility?] at h
    split at h
    next hs =>
      cases h
      exact .foreignVote hs
    next => cases h
  | timeout t =>
    simp only [Message.impossibility?] at h
    split at h
    next hz =>
      cases h
      exact .timeoutInViewZero hz
    next =>
      split at h
      next hs =>
        cases h
        exact .foreignTimeout hs
      next => cases h
  | newView n =>
    simp only [Message.impossibility?] at h
    split at h
    next hz =>
      cases h
      exact .newViewInViewZero hz
    next => cases h

theorem impossibility?_of_zero {p : Proposal} (hz : p.block.view = .zero) :
    (Message.propose p).impossibility? origin = some .proposalInViewZero := by
  simp [Message.impossibility?, hz]

/-- No check that fails is passed over. -/
theorem exists_impossibility? (h : Wrong origin m j) :
    ∃ i, m.impossibility? origin = some i ∧ rank i ≤ rank j := by
  cases h with
  | proposalInViewZero zero => exact ⟨_, impossibility?_of_zero zero, Nat.le_refl _⟩
  | @uncertified p bare =>
    by_cases hz : p.block.view = .zero
    · exact ⟨_, impossibility?_of_zero hz, Nat.zero_le _⟩
    · exact ⟨_, by simp [Message.impossibility?, hz, bare], Nat.le_refl _⟩
  | @misplaced p q carried astray =>
    by_cases hz : p.block.view = .zero
    · exact ⟨_, impossibility?_of_zero hz, Nat.zero_le _⟩
    · exact ⟨_, by simp [Message.impossibility?, hz, carried, astray], Nat.le_refl _⟩
  | @foreignProposal p other =>
    by_cases hz : p.block.view = .zero
    · exact ⟨_, impossibility?_of_zero hz, Nat.zero_le _⟩
    · cases hj : p.block.justify with
      | none =>
        exact ⟨.uncertifiedProposal p.block.view, by simp [Message.impossibility?, hz, hj],
          by simp [rank]⟩
      | some q =>
        by_cases hp : p.block.parent = q.block
        · exact ⟨_, by simp [Message.impossibility?, hz, hj, hp, other], Nat.le_refl _⟩
        · exact ⟨.parentNotCertified p.block.hash p.block.parent q.block,
            by simp [Message.impossibility?, hz, hj, hp], by simp [rank]⟩
  | foreignVote other => exact ⟨_, by simp [Message.impossibility?, other], Nat.le_refl _⟩
  | timeoutInViewZero zero => exact ⟨_, by simp [Message.impossibility?, zero], Nat.le_refl _⟩
  | @foreignTimeout t other =>
    by_cases hz : t.view = .zero
    · exact ⟨.timeoutInViewZero, by simp [Message.impossibility?, hz], by simp [rank]⟩
    · exact ⟨_, by simp [Message.impossibility?, hz, other], Nat.le_refl _⟩
  | newViewInViewZero zero => exact ⟨_, by simp [Message.impossibility?, zero], Nat.le_refl _⟩

theorem impossibility?_eq_some : m.impossibility? origin = some i ↔ FirstWrong origin m i := by
  constructor
  · intro h
    refine ⟨wrong_of_impossibility? h, fun j hj => ?_⟩
    obtain ⟨i', hi', hle⟩ := exists_impossibility? hj
    obtain rfl := Option.some.inj (h.symm.trans hi')
    exact hle
  · intro h
    obtain ⟨i', hi', hle⟩ := exists_impossibility? h.1
    have hw := wrong_of_impossibility? hi'
    rwa [wrong_unique hw h.1 (Nat.le_antisymm hle (h.2 i' hw))] at hi'

end Checks

section Turns

variable (rules : Rules) (seat : Seat) (r : Replica)

theorem receive_of_impossible (h : m.impossibility? origin = some i) :
    Replica.receive rules seat origin m r =
      { Replica.announce origin m { state := r } with halt := some (.fault i.fault) } := by
  simp only [Replica.receive, h]

theorem announce_eq (origin : ReplicaId) (m : Message) (r : Replica) :
    Replica.announce origin m { state := r } =
      { state := r, effects := ((receiptEvent origin m).map Effect.publish).toList } := by
  cases m <;> rfl

theorem halt_eq (origin : ReplicaId) (m : Message) :
    (Replica.receive rules seat origin m r).halt =
      (m.impossibility? origin).map fun i => .fault i.fault := by
  cases h : m.impossibility? origin with
  | none => exact receive_halt seat r h
  | some i => exact (receive_impossible rules seat r h).1

theorem receive_guarded (origin : ReplicaId) (m : Message) :
    Guarded origin m r (Replica.receive rules seat origin m r) := by
  cases hi : m.impossibility? origin with
  | none =>
    have hh : (Replica.receive rules seat origin m r).halt = none := receive_halt seat r hi
    refine ⟨?_, fun h => ?_, fun h => absurd hh h, fun h => absurd hh h, fun h => absurd hh h,
      fun h => absurd hh h⟩
    · simp [hh, impossible_iff, hi]
    · simp [hh, ← impossibility?_eq_some, hi]
  | some i =>
    rw [receive_of_impossible rules seat r hi, announce_eq]
    refine ⟨?_, fun h => ?_, fun _ => rfl, fun _ => rfl, fun _ => ?_, fun _ => ?_⟩
    · simp [impossible_iff, hi]
    · simp [← impossibility?_eq_some, hi, eq_comm]
    · cases receiptEvent origin m <;> rfl
    · cases receiptEvent origin m <;> rfl

end Turns

/-- An impossible message is refused with its first fault, in every state alike, and leaves no trace
but the announcement of its receipt. No other message is refused. -/
theorem impossible_refused :
    (∀ (rules : Rules) (seat : Seat) (origin : ReplicaId) (m : Message) (r : Replica),
      Guarded origin m r (Replica.receive rules seat origin m r)) ∧
    (∀ (rules rules' : Rules) (seat seat' : Seat) (origin : ReplicaId) (m : Message)
      (r r' : Replica), (Replica.receive rules seat origin m r).halt =
        (Replica.receive rules' seat' origin m r').halt) ∧
    ∀ i j : Impossibility, rank i = rank j ↔ i.fault.location = j.fault.location :=
  ⟨fun rules seat origin m r => receive_guarded rules seat r origin m,
    fun rules rules' seat seat' origin m r r' =>
      (halt_eq rules seat r origin m).trans (halt_eq rules' seat' r' origin m).symm,
    fun _ _ => rank_eq_iff⟩

end Equivocation.Proofs.Rejection
