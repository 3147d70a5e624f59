import Equivocation.Collector

namespace Equivocation.Proofs.Ballots

section Tables

variable {κ α : Type} [DecidableEq κ] {t : Table κ α} {k : κ} {x : α} {e : κ × α}

theorem mem_of_get? (h : t.get? k = some x) : (k, x) ∈ t := by
  obtain ⟨e, he, rfl⟩ := Option.map_eq_some_iff.mp h
  have hk := List.find?_some he
  rw [← of_decide_eq_true hk]
  exact List.mem_of_find?_eq_some he

theorem mem_erase (h : e ∈ t.erase k) : e ∈ t := (List.mem_filter.mp h).1

theorem mem_set (h : e ∈ t.set k x) : e = (k, x) ∨ e ∈ t := by
  rcases List.mem_append.mp h with h | h
  · exact .inr (mem_erase h)
  · exact .inl (List.mem_singleton.mp h)

end Tables

variable {E : Electorate} {P : Signature → Prop} {s : Signature} {ss : List Signature} {v : View}
  {h : Hash}

def Polled (E : Electorate) (P : Signature → Prop) (ss : List Signature) : Prop :=
  (ss.map (·.signer)).Nodup ∧ ∀ s ∈ ss, s.signer ∈ E.replicas ∧ P s

theorem Polled.nil : Polled E P [] := ⟨.nil, by simp⟩

theorem Polled.admit (hp : Polled E P ss) (ha : E.admits s ss = true) (hs : P s) :
    Polled E P (ss ++ [s]) := by
  obtain ⟨hr, hn⟩ := Bool.and_eq_true_iff.mp ha
  simp only [Bool.not_eq_true', List.any_eq_false, decide_eq_true_eq] at hn
  refine ⟨?_, fun t ht => ?_⟩
  · rw [List.map_append, List.nodup_append]
    refine ⟨hp.1, by simp, fun a ha b hb => ?_⟩
    obtain ⟨t, ht, rfl⟩ := List.mem_map.mp ha
    rw [List.mem_singleton.mp hb]
    exact hn t ht
  · rcases List.mem_append.mp ht with ht | ht
    · exact hp.2 t ht
    · rw [List.mem_singleton.mp ht]
      exact ⟨List.contains_iff_mem.mp hr, hs⟩

/-- A collector of votes keeps to signatures of a kind, and so do the certificates it gives out. -/
theorem collect_votes {Q : View × Hash → Signature → Prop} {votes : VoteCollector}
    (hv : ∀ x ∈ votes, Polled E (Q x.1) x.2) (hs : Q (v, h) s) :
    (∀ x ∈ (VoteCollector.collect E v h s votes).2,
      Polled E (Q x.1) x.2 ∧ (x ∈ votes ∨ x.1 = (v, h))) ∧
    ∀ q, (VoteCollector.collect E v h s votes).1 = some q →
      q.view = v ∧ q.block = h ∧ Polled E (Q (v, h)) q.signatures ∧
        E.quorum ≤ q.signatures.length := by
  have hold : Polled E (Q (v, h)) ((votes.get? (v, h)).getD []) := by
    cases hg : votes.get? (v, h) with
    | none => exact .nil
    | some ss => exact hv _ (mem_of_get? hg)
  have hkeep := fun x hx => (⟨hv x hx, .inl hx⟩ :
    Polled E (Q x.1) x.2 ∧ (x ∈ votes ∨ x.1 = (v, h)))
  unfold VoteCollector.collect
  dsimp only
  split
  · rename_i ha
    have hnew := hold.admit ha hs
    split
    · rename_i hq
      refine ⟨fun x hx => hkeep x (mem_erase hx), fun q hq' => ?_⟩
      cases hq'
      exact ⟨rfl, rfl, hnew, hq⟩
    · refine ⟨fun x hx => ?_, fun q hq' => by cases hq'⟩
      rcases mem_set hx with rfl | hx
      · exact ⟨hnew, .inr rfl⟩
      · exact hkeep x hx
  · exact ⟨hkeep, fun q hq' => by cases hq'⟩

theorem collect_timeouts {R : QuorumCertificate → Prop} {q : QuorumCertificate}
    {timeouts : TimeoutCollector} (ht : ∀ x ∈ timeouts, R x.2.2) (hq : R q) :
    (∀ x ∈ (TimeoutCollector.collect E v s q timeouts).2, R x.2.2) ∧
      ∀ x, (TimeoutCollector.collect E v s q timeouts).1 = some x → R x.2 := by
  have hold : R ((timeouts.get? v).getD ([], q)).2 := by
    cases hg : timeouts.get? v with
    | none => exact hq
    | some x => exact ht _ (mem_of_get? hg)
  unfold TimeoutCollector.collect
  dsimp only
  generalize (timeouts.get? v).getD ([], q) = entry at hold
  have hnew : R (if entry.2.view < q.view then q else entry.2) := by
    split
    · exact hq
    · exact hold
  split
  · split
    · refine ⟨fun x hx => ht x (mem_erase hx), fun x hx => ?_⟩
      cases hx
      exact hnew
    · refine ⟨fun x hx => ?_, fun x hx => by cases hx⟩
      rcases mem_set hx with rfl | hx
      · exact hnew
      · exact ht x hx
  · exact ⟨ht, fun x hx => by cases hx⟩

/-- With every set of timeouts comes a certificate of no lower view than any that came with them,
and the timeout certificates given out come with such a certificate. -/
theorem collect_timeouts_bounded {P : View → View → Signature → Prop} {q : QuorumCertificate}
    {timeouts : TimeoutCollector} (hmono : ∀ v w w' s, w ≤ w' → P v w s → P v w' s)
    (ht : ∀ x ∈ timeouts, Polled E (P x.1 x.2.2.view) x.2.1) (hs : P v q.view s) :
    (∀ x ∈ (TimeoutCollector.collect E v s q timeouts).2, Polled E (P x.1 x.2.2.view) x.2.1) ∧
      ∀ x, (TimeoutCollector.collect E v s q timeouts).1 = some x →
        x.1.view = v ∧ Polled E (P v x.2.view) x.1.signatures ∧
          E.quorum ≤ x.1.signatures.length := by
  have hold : Polled E (P v ((timeouts.get? v).getD ([], q)).2.view)
      ((timeouts.get? v).getD ([], q)).1 := by
    cases hg : timeouts.get? v with
    | none => exact .nil
    | some x => exact ht _ (mem_of_get? hg)
  unfold TimeoutCollector.collect
  dsimp only
  generalize (timeouts.get? v).getD ([], q) = entry at hold
  split
  · rename_i ha
    have hnew : Polled E (P v (if entry.2.view < q.view then q else entry.2).view)
        (entry.1 ++ [s]) := by
      split
      · rename_i hlt
        have hraised : Polled E (P v q.view) entry.1 :=
          ⟨hold.1, fun t hm => (hold.2 t hm).imp_right (hmono v _ _ t (Nat.le_of_lt hlt))⟩
        exact hraised.admit ha hs
      · rename_i hle
        exact hold.admit ha (hmono v _ _ s (Nat.le_of_not_lt hle) hs)
    split
    · rename_i hq
      refine ⟨fun x hx => ht x (mem_erase hx), fun x hx => ?_⟩
      cases hx
      exact ⟨rfl, hnew, hq⟩
    · refine ⟨fun x hx => ?_, fun x hx => by cases hx⟩
      rcases mem_set hx with rfl | hx
      · exact hnew
      · exact ht x hx
  · exact ⟨ht, fun x hx => by cases hx⟩

end Equivocation.Proofs.Ballots
