import Equivocation.Proofs.Worlds
import Mathlib.Data.List.Nodup

namespace Equivocation.Proofs.Authenticity

open History Ancestry Ballots Validity Adoption Turns Lives Soundness Preservation Worlds Replica

structure Keyed (C : Cluster) : Prop where
  alike : ∀ s ∈ C.seats, ∀ t ∈ C.seats, s.policy.keys.verify = t.policy.keys.verify
  quorum : ∀ s ∈ C.seats, s.policy.quorum = quorumSize C.replicas.length
  own : ∀ s ∈ C.seats, ∀ h, s.policy.keys.verify (s.policy.keys.sign h) h = true

def Accepted (C : Cluster) (q : QuorumCertificate) : Prop := ∀ s ∈ C.seats, Attested s.policy q

def SentAccepted (C : Cluster) (T : Trace) : Prop :=
  ∀ n whom m, (n, .send whom m) ∈ T → ∀ q ∈ enclosed m, Accepted C q

structure Authentic (C : Cluster) (seat : Seat) (r : Replica) : Prop where
  truthful : Truthful seat.policy r.signatures
  high : Accepted C r.highQc
  votes : ∀ x ∈ r.votes,
    Polled (electorate seat) (fun s => seat.policy.keys.verify s x.1.2 = true) x.2
  timeouts : ∀ x ∈ r.timeouts, Accepted C x.2.2

def HandAccepted (C : Cluster) (H : List SyncInfo) : Prop :=
  ∀ s ∈ H, ∀ q, s.qc = some q → Accepted C q

variable {C : Cluster} {T : Trace} {W : World} {rules : Rules} {seat : Seat} {input : Input}
  {before r r' : Replica} {H H' : List SyncInfo} {es : List Effect} {q : QuorumCertificate}
  {n : NodeId}

theorem eraseDups_of_nodup {α : Type} [DecidableEq α] {xs : List α} (h : xs.Nodup) :
    xs.eraseDups = xs := by
  induction xs with
  | nil => rfl
  | cons x xs ih =>
    obtain ⟨hx, hxs⟩ := List.nodup_cons.mp h
    rw [List.eraseDups_cons, List.filter_eq_self.mpr, ih hxs]
    intro y hy
    have hne : y ≠ x := fun he => hx (he ▸ hy)
    simpa using hne

theorem attested_of_polled {policy : CachePolicy} {E : Electorate}
    (hp : Polled E (fun s => policy.keys.verify s q.block = true) q.signatures)
    (hq : policy.quorum ≤ q.signatures.length) : Attested policy q := by
  refine ⟨decide_eq_true hp.1, .inr ?_⟩
  have hall : support policy q.block q.signatures = q.signatures.length :=
    List.countP_eq_length.mpr fun s hs => (hp.2 s hs).2
  rw [eraseDups_of_nodup (List.Nodup.of_map _ hp.1), hall]
  exact hq

theorem accepted_of_attested (hk : Keyed C) (hseat : seat ∈ C.seats)
    (hq : Attested seat.policy q) : Accepted C q := by
  intro t ht
  refine ⟨hq.1, hq.2.imp_right fun h => ?_⟩
  rw [hk.quorum t ht, ← hk.quorum seat hseat]
  unfold support
  rw [hk.alike t ht seat hseat]
  exact h

theorem accepted_genesis : Accepted C .genesis := fun _ _ => ⟨by decide, .inl rfl⟩

theorem validQc_of_genuine (hd : Distinct T) (hs : ∀ b ∈ r.chain.blocks, Known T b)
    (hseat : seat ∈ C.seats) (hg : Genuine C T q) (ha : Accepted C q) :
    ValidQc seat.policy r.chain q := by
  refine ⟨ha seat hseat, fun b hb => ?_⟩
  obtain ⟨c, hc, hq, hv⟩ := hg
  obtain rfl := hd b c (hs b (mem_of_get? hb)) hc.known ((hash_of_get? hb).trans hq)
  exact hv.symm

theorem Authentic.initial (seat : Seat) : Authentic C seat {} where
  truthful := truthful_empty
  high := accepted_genesis
  votes _ hx := absurd hx List.not_mem_nil
  timeouts _ hx := absurd hx List.not_mem_nil

theorem Authentic.take (h : Authentic C seat r) (he : HandAccepted C H) {s : SyncInfo}
    (hs : s ∈ H) :
    Authentic C seat
      { r with highTc := takeTc r.highTc s.tc, highQc := takeQc r.highQc s.qc } :=
  { h with
    high := by
      rcases takeQc_cases r.highQc s.qc with hq | hq
      · dsimp only
        rw [hq]
        exact h.high
      · exact he s hs _ hq }

theorem sentAccepted_tag (hp : SentAccepted C T)
    (hes : ∀ whom m, .send whom m ∈ es → ∀ q ∈ enclosed m, Accepted C q) :
    SentAccepted C (T ++ tag n es) := by
  intro m whom msg hm q hq
  rcases mem_tag hm with hm | ⟨-, hm⟩
  · exact hp m whom msg hm q hq
  · exact hes whom msg hm q hq

theorem accepted_received {origin : ReplicaId} {m : Message} (hp : SentAccepted C T)
    (hi : Received C T (.message origin m)) (hq : q ∈ enclosed m) : Accepted C q := by
  obtain ⟨-, t, -, -, whom, hm⟩ := hi
  exact hp t.node whom m hm q hq

theorem handAccepted_hand (hp : SentAccepted C T) (hi : Received C T input) :
    HandAccepted C input.hand := by
  intro s hs q hq
  cases input with
  | start =>
    cases List.mem_singleton.mp hs
    cases hq
    exact accepted_genesis
  | tick => cases hs
  | message origin m => exact accepted_received hp hi (Input.mem_enclosed hs hq)

section Acts

variable (hk : Keyed C) (hseat : seat ∈ C.seats)
include hk hseat

theorem collectVote_authentic (h : Authentic C seat r) (he : HandAccepted C H) {v : Vote}
    (hv : seat.policy.keys.verify v.signature v.block = true) :
    Authentic C seat (countVote seat v r) ∧ HandAccepted C (H ++ voteCertificate seat v r) := by
  obtain ⟨hvotes, hqc⟩ := @collect_votes (electorate seat) v.signature v.view v.block
    (fun x s => seat.policy.keys.verify s x.2 = true) r.votes h.votes hv
  refine ⟨{ h with votes := fun x hx => (hvotes x hx).1 }, fun s hm q hq => ?_⟩
  rcases List.mem_append.mp hm with hm | hm
  · exact he s hm q hq
  · obtain ⟨qc, rfl, hc⟩ := mem_voteCertificate hm
    obtain rfl := Option.some.inj hq
    obtain ⟨-, hb, hp, hn⟩ := hqc qc hc
    rw [← hb] at hp
    refine accepted_of_attested hk hseat (attested_of_polled hp ?_)
    rw [hk.quorum seat hseat, ← C.knows seat hseat]
    exact hn

omit hk hseat in
theorem collectTimeout_authentic (h : Authentic C seat r) (he : HandAccepted C H) {m : Timeout}
    (hm : Accepted C m.highQc) :
    Authentic C seat (countTimeout seat m r) ∧
      HandAccepted C (H ++ timeoutCertificate seat m r) := by
  obtain ⟨ht, hc⟩ := @collect_timeouts (electorate seat) m.signature m.view (Accepted C) m.highQc
    r.timeouts h.timeouts hm
  refine ⟨{ h with timeouts := ht }, fun s hs q hq => ?_⟩
  rcases List.mem_append.mp hs with hs | hs
  · exact he s hs q hq
  · obtain ⟨x, rfl, hx⟩ := mem_timeoutCertificate hs
    obtain rfl := Option.some.inj hq
    exact hc x hx

theorem act_authentic (ha : Act rules seat before input r H r' es H') (hi : Received C T input)
    (ht : Truthful seat.policy before.signatures) (hp : SentAccepted C T) (h : Authentic C seat r)
    (he : HandAccepted C H) :
    SentAccepted C (T ++ tag seat.node es) ∧ Authentic C seat r' ∧ HandAccepted C H' := by
  have htruthful := act_truthful (hk.own seat hseat) ha h.truthful
  have hsilent : ∀ {fs : List Effect}, (∀ whom m, .send whom m ∉ fs) →
      SentAccepted C (T ++ tag seat.node fs) :=
    fun hfs => sentAccepted_tag hp fun whom m hm => absurd hm (hfs whom m)
  cases ha with
  | quiet signatures kept idle =>
    exact ⟨hsilent fun whom m hm => idle _ hm, { h with truthful := htruthful }, he⟩
  | adopt held certified past valid => exact ⟨hsilent (by simp), h.take he held, he⟩
  | climb held certified ahead valid =>
    have htake := h.take he held
    exact ⟨hsilent (by simp), { htake with
      votes := fun x hx => htake.votes x (List.mem_filter.mp hx).1
      timeouts := fun x hx => htake.timeouts x (List.mem_filter.mp hx).1 }, he⟩
  | propose started led =>
    refine ⟨sentAccepted_tag hp fun whom m hm => ?_, { h with }, he⟩
    cases List.mem_singleton.mp hm
    exact fun q hq => Option.some.inj (Option.mem_toList.mp hq) ▸ h.high
  | greet leader started =>
    refine ⟨sentAccepted_tag hp fun whom m hm => ?_, h, he⟩
    cases List.mem_singleton.mp hm
    exact fun q hq => Option.some.inj (Option.mem_toList.mp hq) ▸ h.high
  | commit =>
    refine ⟨hsilent fun whom m hm => ?_, { h with }, he⟩
    obtain ⟨x, hx⟩ := mem_settlement hm
    cases hx
  | vote offered ancestry first allowed covered informed mail =>
    refine ⟨sentAccepted_tag hp fun whom m hm => ?_, { h with truthful := htruthful }, he⟩
    rw [message_of_ballot mail hm]
    exact fun q hq => absurd hq List.not_mem_nil
  | collectVote offered known signed =>
    obtain ⟨hr, hh⟩ := collectVote_authentic hk hseat h he (signed ht)
    exact ⟨hsilent (by simp), hr, hh⟩
  | collectTimeout offered =>
    subst offered
    obtain ⟨hr, hh⟩ := collectTimeout_authentic h he
      (accepted_received hp hi (List.mem_singleton.mpr rfl))
    exact ⟨hsilent (by simp), hr, hh⟩
  | giveUp started =>
    refine ⟨sentAccepted_tag hp fun whom m hm => ?_, { h with truthful := htruthful }, he⟩
    cases List.mem_singleton.mp hm
    exact fun q hq => List.mem_singleton.mp hq ▸ h.high
  | _ => exact ⟨hsilent (by simp), { h with }, he⟩

end Acts

end Equivocation.Proofs.Authenticity
