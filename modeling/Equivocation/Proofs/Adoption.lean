import Equivocation.Replica.Views
import Equivocation.Proofs.Ancestry
import Equivocation.Proofs.Validity

namespace Equivocation.Proofs.Adoption

open Replica Validity Ancestry

def takeQc (held : QuorumCertificate) : Option QuorumCertificate → QuorumCertificate
  | none => held
  | some q => if held.view < q.view then q else held

def takeTc (held : Option TimeoutCertificate) :
    Option TimeoutCertificate → Option TimeoutCertificate
  | none => held
  | some tc =>
    match held with
    | none => some tc
    | some high => if high.view < tc.view then some tc else some high

def enterCertified (seat : Seat) (s : SyncInfo) (t : Turn Replica) : Turn Replica :=
  match s.certifiedView? with
  | none => t
  | some v => if t.state.view ≤ v then enterView seat v.next t else t

def insertion (c : Chain) (b : Block) : List Effect :=
  if c.contains b.hash then [] else [.publish (.insertBlock b)]

variable {seat : Seat} {s : SyncInfo} {t : Turn Replica} {r : Replica} {v : View}
  {q held : QuorumCertificate} {tc : TimeoutCertificate}

theorem takeQc_cases (held : QuorumCertificate) (q? : Option QuorumCertificate) :
    takeQc held q? = held ∨ q? = some (takeQc held q?) := by
  unfold takeQc
  split
  · exact .inl rfl
  · split
    · exact .inr rfl
    · exact .inl rfl

theorem le_takeQc (held : QuorumCertificate) (q? : Option QuorumCertificate) :
    held.view ≤ (takeQc held q?).view := by
  unfold takeQc
  split
  · exact Nat.le_refl _
  · split
    · rename_i h
      exact Nat.le_of_lt h
    · exact Nat.le_refl _

theorem view_le_takeQc (held q : QuorumCertificate) : q.view ≤ (takeQc held (some q)).view := by
  unfold takeQc
  dsimp only
  split
  · exact Nat.le_refl _
  · rename_i h
    exact Nat.le_of_not_lt h

theorem takeTc_cases (held tc? : Option TimeoutCertificate) :
    takeTc held tc? = held ∨ ∃ tc, tc? = some tc ∧ takeTc held tc? = some tc ∧
      ∀ high, held = some high → high.view < tc.view := by
  unfold takeTc
  split
  · exact .inl rfl
  · split
    · exact .inr ⟨_, rfl, rfl, fun high hh => by cases hh⟩
    · split
      · rename_i h
        exact .inr ⟨_, rfl, rfl, fun high hh => Option.some.inj hh ▸ h⟩
      · exact .inl rfl

theorem certifiedView?_le (hq : s.qc = some q) (hv : s.certifiedView? = some v) : q.view ≤ v := by
  unfold SyncInfo.certifiedView? at hv
  rw [hq] at hv
  cases ht : s.tc with
  | none =>
    simp only [ht, Option.some.injEq] at hv
    rw [hv]
    exact Nat.le_refl _
  | some tc =>
    simp only [ht, Option.some.injEq] at hv
    rw [← hv]
    split
    · exact Nat.le_refl _
    · rename_i hlt
      exact Nat.le_of_lt (Nat.lt_of_not_le hlt)

theorem certifiedView?_tc_le (ht : s.tc = some tc) (hv : s.certifiedView? = some v) :
    tc.view ≤ v := by
  unfold SyncInfo.certifiedView? at hv
  rw [ht] at hv
  cases hq : s.qc with
  | none =>
    simp only [hq, Option.some.injEq] at hv
    rw [hv]
    exact Nat.le_refl _
  | some q =>
    simp only [hq, Option.some.injEq] at hv
    rw [← hv]
    split
    · rename_i hle
      exact hle
    · exact Nat.le_refl _

theorem certifiedView?_cases (hv : s.certifiedView? = some v) :
    (∃ q, s.qc = some q ∧ q.view = v) ∨ ∃ tc, s.tc = some tc ∧ tc.view = v := by
  unfold SyncInfo.certifiedView? at hv
  split at hv
  · cases hv
  · rename_i tc ht _
    exact .inr ⟨tc, ht, Option.some.inj hv⟩
  · rename_i q _ hq
    exact .inl ⟨q, hq, Option.some.inj hv⟩
  · rename_i tc q ht hq
    split at hv
    · exact .inl ⟨q, hq, Option.some.inj hv⟩
    · exact .inr ⟨tc, ht, Option.some.inj hv⟩

theorem eq_none_of_certifiedView? (hv : s.certifiedView? = none) : s.tc = none ∧ s.qc = none := by
  unfold SyncInfo.certifiedView? at hv
  split at hv
  · rename_i ht hq
    exact ⟨ht, hq⟩
  · cases hv
  · cases hv
  · cases hv

theorem insertBlock_eq (b : Block) (t : Turn Replica) :
    insertBlock b t =
      { t with
        state := { t.state with chain := t.state.chain.insert b }
        effects := t.effects ++ insertion t.state.chain b } := by
  unfold insertBlock insertion
  split
  · rename_i hb
    rw [show t.state.chain.insert b = t.state.chain by simp [Chain.insert, hb], List.append_nil]
  · rfl

def entered (v : View) (r : Replica) : Replica :=
  { r with
    view := v
    viewTicks := 0
    votes := r.votes.pruneBelow (v.sub 1)
    timeouts := r.timeouts.pruneBelow v }

theorem propose_state (seat : Seat) (t : Turn Replica) :
    (propose seat t).state = t.state ∨
      (propose seat t).state =
        { t.state with
          lastProposed := t.state.view
          chain := t.state.chain.insert (nextBlock seat t.state) } := by
  unfold propose
  split
  · exact .inl rfl
  · right
    dsimp only
    rw [insertBlock_eq]
    rfl

/-- On entering a view, an instance may store a block of its own. -/
theorem enterView_state (seat : Seat) (v : View) (t : Turn Replica) :
    (enterView seat v t).state = entered v t.state ∨
      (enterView seat v t).state =
        { entered v t.state with
          lastProposed := v
          chain := t.state.chain.insert (nextBlock seat (entered v t.state)) } := by
  unfold enterView
  dsimp only
  split
  · exact .inl rfl
  · split
    · exact propose_state seat _
    · exact .inl rfl

theorem view_enterView (seat : Seat) (v : View) (t : Turn Replica) :
    (enterView seat v t).state.view = v := by
  rcases enterView_state seat v t with h | h
  · rw [h]
    rfl
  · rw [h]
    rfl

theorem highQc_enterView (seat : Seat) (v : View) (t : Turn Replica) :
    (enterView seat v t).state.highQc = t.state.highQc := by
  rcases enterView_state seat v t with h | h
  · rw [h]
    rfl
  · rw [h]
    rfl

theorem checkQc_state (seat : Seat) (q : QuorumCertificate) (r : Replica) :
    ∃ signatures, (Truthful seat.policy r.signatures → Truthful seat.policy signatures) ∧
      (checkQc seat q r).2 = { r with signatures } := by
  unfold checkQc
  split
  · exact ⟨_, truthful_verifyQc, rfl⟩
  · exact ⟨r.signatures, id, rfl⟩

theorem checkTc_state (seat : Seat) (tc : TimeoutCertificate) (r : Replica) :
    ∃ signatures, (Truthful seat.policy r.signatures → Truthful seat.policy signatures) ∧
      (checkTc seat tc r).2 = { r with signatures } := by
  unfold checkTc SignatureCache.verifyTc
  split
  · dsimp only
    split
    · exact ⟨_, id, rfl⟩
    · exact ⟨_, truthful_verifyAggregate, rfl⟩
  · exact ⟨r.signatures, id, rfl⟩

theorem adoptTc?_spec (seat : Seat) (tc? : Option TimeoutCertificate) (t : Turn Replica) :
    ∃ signatures, (Truthful seat.policy t.state.signatures → Truthful seat.policy signatures) ∧
      ((tc?.map (adoptTc seat · t)).getD (true, t) =
          (true, t.modify fun r => { r with signatures, highTc := takeTc r.highTc tc? }) ∧
        (Truthful seat.policy t.state.signatures → ∀ tc, tc? = some tc → ValidTc seat.policy tc) ∨
      (tc?.map (adoptTc seat · t)).getD (true, t) =
          (false, say seat .invalidTc (t.modify fun r => { r with signatures })) ∧
        ∃ tc, tc? = some tc ∧ ¬ ValidTc seat.policy tc) := by
  cases tc? with
  | none => exact ⟨t.state.signatures, id, .inl ⟨rfl, fun _ tc h => by cases h⟩⟩
  | some tc =>
    obtain ⟨signatures, hk, hs⟩ := checkTc_state seat tc t.state
    have hvalid := @validTc_of_checkTc seat tc t.state
    have hvoid := @checkTc_of_valid seat tc t.state
    refine ⟨signatures, hk, ?_⟩
    simp only [Option.map_some, Option.getD_some]
    unfold adoptTc
    generalize checkTc seat tc t.state = checked at hs hvalid hvoid ⊢
    obtain ⟨valid, r⟩ := checked
    obtain rfl := hs
    cases valid with
    | false => exact .inr ⟨rfl, tc, rfl, fun h => by cases hvoid h⟩
    | true =>
      refine .inl ⟨?_, fun ht _ h => Option.some.inj h ▸ hvalid ht rfl⟩
      dsimp only [Turn.modify, takeTc]
      rw [if_pos rfl]
      cases t.state.highTc with
      | none => rfl
      | some high =>
        dsimp only
        by_cases hn : high.view < tc.view
        · simp [hn]
        · simp [hn]

theorem adoptQc?_spec (seat : Seat) (q? : Option QuorumCertificate) (t : Turn Replica) :
    ∃ signatures, (Truthful seat.policy t.state.signatures → Truthful seat.policy signatures) ∧
      ((q?.map (adoptQc seat · t)).getD (true, t) =
          (true, t.modify fun r => { r with signatures, highQc := takeQc r.highQc q? }) ∧
        (Truthful seat.policy t.state.signatures →
          ∀ q, q? = some q → ValidQc seat.policy t.state.chain q) ∨
      (q?.map (adoptQc seat · t)).getD (true, t) =
          (false, say seat .invalidQc (t.modify fun r => { r with signatures })) ∧
        ∃ q, q? = some q ∧ ¬ ValidQc seat.policy t.state.chain q) := by
  cases q? with
  | none => exact ⟨t.state.signatures, id, .inl ⟨rfl, fun _ q h => by cases h⟩⟩
  | some q =>
    obtain ⟨signatures, hk, hs⟩ := checkQc_state seat q t.state
    have hvalid : Truthful seat.policy t.state.signatures → (checkQc seat q t.state).1 = true →
        ValidQc seat.policy t.state.chain q :=
      fun ht h => ⟨attested_of_checkQc ht h, labelled_of_checkQc h⟩
    have hvoid := @checkQc_of_valid seat q t.state
    refine ⟨signatures, hk, ?_⟩
    simp only [Option.map_some, Option.getD_some]
    unfold adoptQc
    generalize checkQc seat q t.state = checked at hs hvalid hvoid ⊢
    obtain ⟨valid, r⟩ := checked
    obtain rfl := hs
    cases valid with
    | false => exact .inr ⟨rfl, q, rfl, fun h => by cases hvoid h⟩
    | true =>
      refine .inl ⟨?_, fun ht _ h => Option.some.inj h ▸ hvalid ht rfl⟩
      dsimp only [Turn.modify, takeQc]
      rw [if_pos rfl]
      by_cases hn : t.state.highQc.view < q.view
      · simp [hn]
      · simp [hn]

/-- What comes of certificates that an instance is given. An invalid quorum certificate is only
noticed when the timeout certificate has been taken over. -/
inductive Advanced (seat : Seat) (s : SyncInfo) (t : Turn Replica) : Turn Replica → Prop
  | refused {tc : TimeoutCertificate} (signatures : SignatureCache)
      (kept : Truthful seat.policy t.state.signatures → Truthful seat.policy signatures)
      (timed : s.tc = some tc) (void : ¬ ValidTc seat.policy tc) :
    Advanced seat s t (say seat .invalidTc (t.modify fun r => { r with signatures }))
  | torn {q : QuorumCertificate} (signatures : SignatureCache)
      (kept : Truthful seat.policy t.state.signatures → Truthful seat.policy signatures)
      (voted : s.qc = some q) (void : ¬ ValidQc seat.policy t.state.chain q)
      (valid : Truthful seat.policy t.state.signatures →
        ∀ tc, s.tc = some tc → ValidTc seat.policy tc) :
    Advanced seat s t
      (say seat .invalidQc
        (t.modify fun r => { r with signatures, highTc := takeTc r.highTc s.tc }))
  | taken (signatures : SignatureCache)
      (kept : Truthful seat.policy t.state.signatures → Truthful seat.policy signatures)
      (valid : Truthful seat.policy t.state.signatures → Valid seat.policy t.state.chain s) :
    Advanced seat s t
      (enterCertified seat s
        (t.modify fun r =>
          { r with
            signatures
            highTc := takeTc r.highTc s.tc
            highQc := takeQc r.highQc s.qc }))

theorem advance_spec (seat : Seat) (s : SyncInfo) (t : Turn Replica) :
    Advanced seat s t (advance seat s t) := by
  obtain ⟨first, hk, htc⟩ := adoptTc?_spec seat s.tc t
  unfold advance
  rcases htc with ⟨he, hvt⟩ | ⟨he, tc, ht, hvoid⟩
  · rw [he]
    simp only [Bool.not_true, Bool.false_eq_true, if_false]
    obtain ⟨second, hk', hqc⟩ := adoptQc?_spec seat s.qc
      (t.modify fun r => { r with signatures := first, highTc := takeTc r.highTc s.tc })
    rcases hqc with ⟨he', hvq⟩ | ⟨he', q, hq, hvoid⟩
    · rw [he']
      simp only [Bool.not_true, Bool.false_eq_true, if_false]
      exact .taken second (hk' ∘ hk) fun h => ⟨hvt h, hvq (hk h)⟩
    · rw [he']
      exact .torn second (hk' ∘ hk) hq hvoid hvt
  · rw [he]
    exact .refused first hk ht hvoid

theorem truthful_advance (h : Truthful seat.policy t.state.signatures) :
    Truthful seat.policy (advance seat s t).state.signatures := by
  have hspec := advance_spec seat s t
  generalize advance seat s t = t' at hspec
  cases hspec with
  | refused signatures kept timed void => exact kept h
  | torn signatures kept voted void valid => exact kept h
  | taken signatures kept valid =>
    unfold enterCertified
    split
    · exact kept h
    · split
      · rcases enterView_state seat (View.next _) _ with he | he
        · rw [he]
          exact kept h
        · rw [he]
          exact kept h
      · exact kept h

/-- A certificate with a quorum that agrees with the stored blocks is not too new afterwards, and
the only block that may be stored on the way is one of the view entered. -/
theorem advance_certified (seat : Seat) (q : QuorumCertificate) (t : Turn Replica) :
    (ValidQc seat.policy t.state.chain q →
      q.view.next ≤ (advance seat { qc := some q } t).state.view ∧
        q.view ≤ (advance seat { qc := some q } t).state.highQc.view) ∧
    ∀ h p, (advance seat { qc := some q } t).state.chain.get? h = some p →
      t.state.chain.get? h = some p ∨ p.view = (advance seat { qc := some q } t).state.view := by
  have hspec := advance_spec seat { qc := some q } t
  generalize advance seat { qc := some q } t = t' at hspec
  cases hspec with
  | refused signatures kept timed void => cases timed
  | torn signatures kept voted void valid =>
    obtain rfl := Option.some.inj voted
    exact ⟨fun h => absurd h void, fun h p hp => .inl hp⟩
  | taken signatures kept valid =>
    unfold enterCertified
    dsimp only [SyncInfo.certifiedView?]
    split
    · rw [view_enterView, highQc_enterView]
      refine ⟨fun _ => ⟨Nat.le_refl _, view_le_takeQc _ _⟩, fun h p hp => ?_⟩
      rcases enterView_state seat q.view.next _ with he | he
      · rw [he] at hp
        exact .inl hp
      · rw [he] at hp
        rcases get?_of_insert hp with rfl | hp
        · exact .inr rfl
        · exact .inl hp
    · rename_i hv
      exact ⟨fun _ => ⟨View.next_le_of_lt (Nat.lt_of_not_le hv), view_le_takeQc _ _⟩,
        fun h p hp => .inl hp⟩

end Equivocation.Proofs.Adoption
