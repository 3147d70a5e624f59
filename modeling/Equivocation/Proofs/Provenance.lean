import Equivocation.Proofs.Circulation
import Equivocation.Proofs.Steps

namespace Equivocation.Proofs.Provenance

open History Ancestry Ballots Adoption Turns Lives States Simulation Deployment Agreement
  Circulation Routing Steps Replica

abbrev Post := List (ReplicaId × Recipients × Message)

def scheduledLeader? (s : Scenario) (v : View) : Option ReplicaId :=
  (s.schedule? v).map (·.leader)

section Evidence

variable (s : Scenario) (E : Electorate) (T : Post)

def SignerVoted (x : View × Hash) (y : Signature) : Prop :=
  ∃ whom v, (y.signer, whom, .vote v) ∈ T ∧ v.view = x.1 ∧ v.block = x.2

def SignerTimedOut (v : View) (y : Signature) : Prop :=
  ∃ m, (y.signer, .all, .timeout m) ∈ T ∧ m.view = v

def Offered (b : Block) : Prop :=
  ∃ leader whom, scheduledLeader? s b.view = some leader ∧ (leader, whom, .propose ⟨b⟩) ∈ T

/-- A certificate for a block that the scheduled leader of its view proposed in that view, with a
quorum of different replicas that voted for the block. -/
structure Backed (q : QuorumCertificate) : Prop where
  offered : ∃ b, Offered s T b ∧ b.hash = q.block ∧ b.view = q.view
  voted : Polled E (SignerVoted T (q.view, q.block)) q.signatures
  quorum : E.quorum ≤ q.signatures.length

def BackedOrGenesis (q : QuorumCertificate) : Prop := q = .genesis ∨ Backed s E T q

/-- A certificate with a quorum of different replicas that gave up on a scheduled view. -/
structure BackedTc (tc : TimeoutCertificate) : Prop where
  scheduled : ∃ schedule, s.schedule? tc.view = some schedule
  resigned : Polled E (SignerTimedOut T tc.view) tc.signatures
  quorum : E.quorum ≤ tc.signatures.length

def SyncsBacked (H : List SyncInfo) : Prop :=
  ∀ c ∈ H, (∀ q, c.qc = some q → BackedOrGenesis s E T q) ∧ ∀ tc, c.tc = some tc → BackedTc s E T tc

def MessageBacked (origin : ReplicaId) (whom : Recipients) : Message → Prop
  | .propose p => scheduledLeader? s p.block.view = some origin ∧
      ∀ q, p.block.justify = some q → BackedOrGenesis s E T q
  | .vote v => v.view ≠ .zero
  | .timeout m => whom = .all ∧ BackedOrGenesis s E T m.highQc
  | .newView n => SyncsBacked s E T [n.sync]

structure StateBacked (r : Replica) : Prop where
  high : BackedOrGenesis s E T r.highQc
  timed : ∀ tc, r.highTc = some tc → BackedTc s E T tc
  stored : ∀ b ∈ r.chain.blocks, b = .genesis ∨ Offered s T b
  votes : ∀ x ∈ r.votes, Polled E (SignerVoted T x.1) x.2
  timeouts : ∀ x ∈ r.timeouts, Polled E (SignerTimedOut T x.1) x.2.1
  highest : ∀ x ∈ r.timeouts, BackedOrGenesis s E T x.2.2
  view : r.view.toNat ≤ s.size + 1

def PostBacked : Prop := ∀ x ∈ T, MessageBacked s E T x.1 x.2.1 x.2.2

/-- A message is delivered after it was sent, if it can be a correct replica's and its view is
scheduled. -/
def Deliverable : Input → Prop
  | .message origin m => (∃ whom, (origin, whom, m) ∈ T) ∧ m.impossibility? origin = none ∧
      ∃ schedule, s.schedule? m.view = some schedule
  | _ => True

end Evidence

variable {s : Scenario} {E : Electorate} {T T' : Post} {q : QuorumCertificate}
  {tc : TimeoutCertificate} {b : Block} {v : View} {H H' : List SyncInfo} {r r' before : Replica}
  {rules : Rules} {seat : Seat} {input : Input} {es : List Effect} {origin : ReplicaId}

theorem polled_mono {P Q : Signature → Prop} (hpq : ∀ y, P y → Q y) {ss : List Signature}
    (hp : Polled E P ss) : Polled E Q ss :=
  ⟨hp.1, fun y hy => (hp.2 y hy).imp_right (hpq y)⟩

section Growth

variable (h : T ⊆ T')
include h

theorem SignerVoted.mono {x : View × Hash} {y : Signature} :
    SignerVoted T x y → SignerVoted T' x y :=
  fun ⟨whom, v, hm, hr⟩ => ⟨whom, v, h hm, hr⟩

theorem SignerTimedOut.mono {y : Signature} : SignerTimedOut T v y → SignerTimedOut T' v y :=
  fun ⟨m, hm, hr⟩ => ⟨m, h hm, hr⟩

theorem Offered.mono : Offered s T b → Offered s T' b :=
  fun ⟨leader, whom, hl, hm⟩ => ⟨leader, whom, hl, h hm⟩

theorem Backed.mono (hb : Backed s E T q) : Backed s E T' q where
  offered := have ⟨b, ho, hr⟩ := hb.offered
    ⟨b, ho.mono h, hr⟩
  voted := polled_mono (fun _ => SignerVoted.mono h) hb.voted
  quorum := hb.quorum

theorem BackedOrGenesis.mono (hq : BackedOrGenesis s E T q) : BackedOrGenesis s E T' q :=
  hq.imp_right (Backed.mono h)

theorem BackedTc.mono (ht : BackedTc s E T tc) : BackedTc s E T' tc :=
  { ht with resigned := polled_mono (fun _ => SignerTimedOut.mono h) ht.resigned }

theorem SyncsBacked.mono (ha : SyncsBacked s E T H) : SyncsBacked s E T' H := fun c hc =>
  ⟨fun q hq => ((ha c hc).1 q hq).mono h, fun tc ht => ((ha c hc).2 tc ht).mono h⟩

theorem MessageBacked.mono {whom : Recipients} {m : Message}
    (hm : MessageBacked s E T origin whom m) :
    MessageBacked s E T' origin whom m := by
  cases m with
  | propose p => exact ⟨hm.1, fun q hq => (hm.2 q hq).mono h⟩
  | vote v => exact hm
  | timeout m => exact ⟨hm.1, hm.2.mono h⟩
  | newView n => exact SyncsBacked.mono h hm

theorem StateBacked.mono (hr : StateBacked s E T r) : StateBacked s E T' r where
  high := hr.high.mono h
  timed tc ht := (hr.timed tc ht).mono h
  stored b hb := (hr.stored b hb).imp_right (Offered.mono h)
  votes x hx := polled_mono (fun _ => SignerVoted.mono h) (hr.votes x hx)
  timeouts x hx := polled_mono (fun _ => SignerTimedOut.mono h) (hr.timeouts x hx)
  highest x hx := (hr.highest x hx).mono h
  view := hr.view

end Growth

theorem schedule?_le {schedule : ViewSchedule} (h : s.schedule? v = some schedule) :
    v.toNat ≤ s.size := by
  unfold Scenario.schedule? at h
  split at h
  · cases h
  · have hlt := (List.getElem?_eq_some_iff.mp h).1
    unfold Scenario.size
    omega

theorem Offered.view_le (h : Offered s T b) : b.view.toNat ≤ s.size := by
  obtain ⟨leader, -, hl, -⟩ := h
  obtain ⟨schedule, hs, -⟩ := Option.map_eq_some_iff.mp hl
  exact schedule?_le hs

theorem BackedOrGenesis.view_le (h : BackedOrGenesis s E T q) : q.view.toNat ≤ s.size := by
  obtain rfl | h := h
  · exact Nat.zero_le _
  · obtain ⟨b, ho, -, hv⟩ := h.offered
    rw [← hv]
    exact ho.view_le

/-- Certificates that are backed do not lead past the view after the last scheduled one. -/
theorem certified_le (hH : SyncsBacked s E T H) {c : SyncInfo} (hc : c ∈ H)
    (hv : c.certifiedView? = some v) : v.next.toNat ≤ s.size + 1 := by
  have hle : v.toNat ≤ s.size := by
    obtain ⟨q, hq, rfl⟩ | ⟨tc, ht, rfl⟩ := certifiedView?_cases hv
    · exact ((hH c hc).1 q hq).view_le
    · obtain ⟨schedule, hs⟩ := ((hH c hc).2 tc ht).scheduled
      exact schedule?_le hs
  rw [View.toNat_next]
  omega

theorem leader_eq (hl : seat.leaders = s.leaders) (v : View) :
    seat.leader v = scheduledLeader? s v := by
  unfold Seat.leader scheduledLeader? Scenario.schedule?
  rw [hl]
  split
  · rfl
  · exact List.getElem?_map

theorem StateBacked.initial : StateBacked s E T {} where
  high := .inl rfl
  timed _ h := by cases h
  stored b hb := .inl (List.mem_singleton.mp hb)
  votes _ hx := absurd hx List.not_mem_nil
  timeouts _ hx := absurd hx List.not_mem_nil
  highest _ hx := absurd hx List.not_mem_nil
  view := Nat.zero_le _

theorem StateBacked.take (h : StateBacked s E T r) (hH : SyncsBacked s E T H) {c : SyncInfo}
    (hc : c ∈ H) :
    StateBacked s E T
      { r with highTc := takeTc r.highTc c.tc, highQc := takeQc r.highQc c.qc } :=
  { h with
    high := by
      obtain hq | hq := takeQc_cases r.highQc c.qc
      · dsimp only
        rw [hq]
        exact h.high
      · exact (hH c hc).1 _ hq
    timed := by
      obtain ht | ⟨tc, ht, he, -⟩ := takeTc_cases r.highTc c.tc
      · dsimp only
        rw [ht]
        exact h.timed
      · dsimp only
        rw [he]
        intro tc' h'
        exact Option.some.inj h' ▸ (hH c hc).2 tc ht }

theorem StateBacked.insert (h : StateBacked s E T r) (hb : Offered s T b) :
    StateBacked s E T { r with chain := r.chain.insert b } :=
  { h with
    stored := fun x hx => by
      obtain rfl | hx := mem_insert hx
      · exact .inr hb
      · exact h.stored x hx }

theorem StateBacked.sync (h : StateBacked s E T r) : SyncsBacked s E T [r.sync] := by
  intro c hc
  obtain rfl := List.mem_singleton.mp hc
  refine ⟨fun q hq => Option.some.inj hq ▸ h.high, fun tc ht => ?_⟩
  unfold Replica.sync at ht
  dsimp only at ht
  split at ht
  · cases ht
  · rename_i high hh
    split at ht
    · exact Option.some.inj ht ▸ h.timed high hh
    · cases ht

def posts (origin : ReplicaId) (es : List Effect) : Post :=
  es.filterMap fun
    | .send whom m => some (origin, whom, m)
    | _ => none

theorem mem_posts {x : ReplicaId × Recipients × Message} :
    x ∈ posts origin es ↔ x.1 = origin ∧ .send x.2.1 x.2.2 ∈ es := by
  unfold posts
  rw [List.mem_filterMap]
  constructor
  · rintro ⟨e, he, hx⟩
    cases e with
    | send whom m =>
      cases hx
      exact ⟨rfl, he⟩
    | publish e => cases hx
    | remark r => cases hx
  · rintro ⟨rfl, he⟩
    exact ⟨_, he, rfl⟩

theorem posts_append (origin : ReplicaId) (es fs : List Effect) :
    posts origin (es ++ fs) = posts origin es ++ posts origin fs := List.filterMap_append

theorem PostBacked.append (h : PostBacked s E T)
    (hs : ∀ whom m, .send whom m ∈ es → MessageBacked s E T origin whom m) :
    PostBacked s E (T ++ posts origin es) := by
  intro x hx
  obtain hx | hx := List.mem_append.mp hx
  · exact (h x hx).mono (List.subset_append_left _ _)
  · obtain ⟨ho, hx⟩ := mem_posts.mp hx
    rw [ho]
    exact (hs _ _ hx).mono (List.subset_append_left _ _)

theorem messageBacked_of_deliverable {m : Message} (hT : PostBacked s E T)
    (hi : Deliverable s T (.message origin m)) :
    ∃ whom, (origin, whom, m) ∈ T ∧ MessageBacked s E T origin whom m := by
  obtain ⟨⟨whom, hm⟩, -⟩ := hi
  exact ⟨whom, hm, hT _ hm⟩

theorem deliverable_mono (h : T ⊆ T') (hi : Deliverable s T input) : Deliverable s T' input := by
  cases input with
  | message origin m =>
    obtain ⟨⟨whom, hm⟩, hr⟩ := hi
    exact ⟨⟨whom, h hm⟩, hr⟩
  | _ => trivial

theorem syncsBacked_hand (hT : PostBacked s E T) (hi : Deliverable s T input) :
    SyncsBacked s E T input.hand := by
  intro c hc
  cases input with
  | start =>
    cases List.mem_singleton.mp hc
    exact ⟨fun q hq => .inl (Option.some.inj hq).symm, fun tc ht => by cases ht⟩
  | tick => cases hc
  | message origin m =>
    obtain ⟨whom, -, hm⟩ := messageBacked_of_deliverable hT hi
    cases m with
    | propose p =>
      cases List.mem_singleton.mp hc
      exact ⟨hm.2, fun tc ht => by cases ht⟩
    | vote v => cases hc
    | timeout m =>
      cases List.mem_singleton.mp hc
      exact ⟨fun q hq => Option.some.inj hq ▸ hm.2, fun tc ht => by cases ht⟩
    | newView n => exact hm c hc

theorem signerVoted_of_deliverable {v : Vote} (hi : Deliverable s T (.message origin (.vote v))) :
    SignerVoted T (v.view, v.block) v.signature := by
  obtain ⟨⟨whom, hm⟩, hp, -⟩ := hi
  have ho : v.signature.signer = origin := by
    by_contra hne
    simp [Message.impossibility?, hne] at hp
  exact ⟨whom, v, ho ▸ hm, rfl, rfl⟩

theorem signerTimedOut_of_deliverable {m : Timeout} (hT : PostBacked s E T)
    (hi : Deliverable s T (.message origin (.timeout m))) :
    SignerTimedOut T m.view m.signature := by
  obtain ⟨whom, hm, hall, -⟩ := messageBacked_of_deliverable hT hi
  obtain ⟨-, hp, -⟩ := hi
  have ho : m.signature.signer = origin := by
    by_contra hne
    by_cases hz : m.view = .zero <;> simp [Message.impossibility?, hne, hz] at hp
  exact ⟨m, by rw [ho, ← hall]; exact hm, rfl⟩

theorem collectVote_stateBacked (hE : electorate seat = E) (h : StateBacked s E T r)
    (hH : SyncsBacked s E T H) {v : Vote} (hi : Deliverable s T (.message origin (.vote v)))
    (hz : v.view ≠ .zero) (hk : (r.chain.get? v.block).map (·.view) = some v.view) :
    StateBacked s E T (countVote seat v r) ∧ SyncsBacked s E T (H ++ voteCertificate seat v r) := by
  subst hE
  obtain ⟨hvotes, hqc⟩ := @collect_votes (electorate seat) v.signature v.view v.block
    (SignerVoted T) r.votes h.votes (signerVoted_of_deliverable hi)
  refine ⟨{ h with votes := fun x hx => (hvotes x hx).1 }, fun c hc => ?_⟩
  obtain hc | hc := List.mem_append.mp hc
  · exact hH c hc
  · obtain ⟨q, rfl, hq⟩ := mem_voteCertificate hc
    obtain ⟨hqv, hqb, hp, hn⟩ := hqc q hq
    refine ⟨fun q' hq' => ?_, fun tc ht => by cases ht⟩
    obtain rfl := Option.some.inj hq'
    obtain ⟨b, hb, hbv⟩ := Option.map_eq_some_iff.mp hk
    have hoffered : Offered s T b := (h.stored b (mem_of_get? hb)).resolve_left fun hg => by
      subst hg
      exact hz hbv.symm
    refine .inr ⟨⟨b, hoffered, (hash_of_get? hb).trans hqb.symm, hbv.trans hqv.symm⟩, ?_, hn⟩
    rw [hqv, hqb]
    exact hp

theorem collectTimeout_stateBacked (hE : electorate seat = E) (hT : PostBacked s E T)
    (h : StateBacked s E T r) (hH : SyncsBacked s E T H) {m : Timeout}
    (hi : Deliverable s T (.message origin (.timeout m))) :
    StateBacked s E T (countTimeout seat m r) ∧
      SyncsBacked s E T (H ++ timeoutCertificate seat m r) := by
  subst hE
  obtain ⟨-, -, -, hf⟩ := messageBacked_of_deliverable hT hi
  obtain ⟨-, -, hs⟩ := id hi
  obtain ⟨hpolled, htc⟩ := @collect_timeouts_bounded (electorate seat) m.signature m.view
    (fun v _ => SignerTimedOut T v) m.highQc r.timeouts (fun _ _ _ _ _ => id) h.timeouts
    (signerTimedOut_of_deliverable hT hi)
  obtain ⟨hhigh, hqc⟩ := @collect_timeouts (electorate seat) m.signature m.view
    (BackedOrGenesis s (electorate seat) T) m.highQc r.timeouts h.highest hf
  refine ⟨{ h with timeouts := hpolled, highest := hhigh }, fun c hc => ?_⟩
  obtain hc | hc := List.mem_append.mp hc
  · exact hH c hc
  · obtain ⟨x, rfl, hx⟩ := mem_timeoutCertificate hc
    obtain ⟨hv, hp, hn⟩ := htc x hx
    refine ⟨fun q hq => Option.some.inj hq ▸ hqc x hx, fun tc ht => ?_⟩
    obtain rfl := Option.some.inj ht
    exact ⟨hv ▸ hs, hv ▸ hp, hn⟩

section Acts

variable (hE : electorate seat = E) (hl : seat.leaders = s.leaders)
include hE hl

theorem act_stateBacked (ha : Act rules seat before input r H r' es H') (hi : Deliverable s T input)
    (hT : PostBacked s E T) (h : StateBacked s E T r) (hH : SyncsBacked s E T H) :
    PostBacked s E (T ++ posts seat.replica es) ∧
      StateBacked s E (T ++ posts seat.replica es) r' ∧
        SyncsBacked s E (T ++ posts seat.replica es) H' := by
  have hsub : T ⊆ T ++ posts seat.replica es := List.subset_append_left _ _
  have hkeep : (∀ whom m, .send whom m ∈ es → MessageBacked s E T seat.replica whom m) →
      StateBacked s E T r' → SyncsBacked s E T H' →
      PostBacked s E (T ++ posts seat.replica es) ∧
        StateBacked s E (T ++ posts seat.replica es) r' ∧
          SyncsBacked s E (T ++ posts seat.replica es) H' :=
    fun hs hr hA => ⟨hT.append hs, hr.mono hsub, hA.mono hsub⟩
  cases ha with
  | quiet signatures kept idle => exact hkeep (fun whom m hm => (idle _ hm).elim) { h with } hH
  | tear held timed voted newer void =>
    exact hkeep (by simp) { h with
      timed := fun tc ht => Option.some.inj ht ▸ (hH _ held).2 _ timed } hH
  | adopt held certified past valid => exact hkeep (by simp) (h.take hH held) hH
  | climb held certified ahead valid =>
    have htake := h.take hH held
    exact hkeep (by simp) { htake with
      votes := fun x hx => htake.votes x (List.mem_filter.mp hx).1
      timeouts := fun x hx => htake.timeouts x (List.mem_filter.mp hx).1
      highest := fun x hx => htake.highest x (List.mem_filter.mp hx).1
      view := certified_le hH held certified } hH
  | propose started led =>
    rw [leader_eq hl] at led
    refine ⟨hT.append fun whom m hm => ?_, ?_, hH.mono hsub⟩
    · cases List.mem_singleton.mp hm
      exact ⟨led, fun q hq => Option.some.inj hq ▸ h.high⟩
    · have ho : Offered s (T ++ posts seat.replica
          [.send .all (.propose ⟨nextBlock seat r⟩)]) (nextBlock seat r) :=
        ⟨seat.replica, .all, led, List.mem_append_right _ List.mem_cons_self⟩
      exact { (h.mono hsub).insert ho with }
  | greet leader started =>
    refine hkeep (fun whom m hm => ?_) h hH
    cases List.mem_singleton.mp hm
    exact h.sync
  | store offered led current carried labelled attested adopted grown =>
    subst offered
    rw [leader_eq hl] at led
    obtain ⟨whom, hm, -⟩ := messageBacked_of_deliverable hT hi
    exact hkeep (by simp) (h.insert ⟨_, whom, led, hm⟩) hH
  | commit =>
    refine hkeep (fun whom m hm => ?_) { h with } hH
    obtain ⟨x, hx⟩ := mem_settlement hm
    cases hx
  | vote offered ancestry first allowed covered informed mail =>
    refine hkeep (fun whom m hm => ?_) { h with } hH
    rw [message_of_ballot mail hm]
    intro hz
    have hf : r.safety.lastVote < View.zero := hz ▸ first
    exact Nat.not_lt_zero _ hf
  | collectVote offered known signed =>
    subst offered
    obtain ⟨whom, -, hz⟩ := messageBacked_of_deliverable hT hi
    obtain ⟨hr, hA⟩ := collectVote_stateBacked hE h hH hi hz known
    exact hkeep (by simp) hr hA
  | collectTimeout offered =>
    subst offered
    obtain ⟨hr, hA⟩ := collectTimeout_stateBacked hE hT h hH hi
    exact hkeep (by simp) hr hA
  | giveUp started =>
    refine hkeep (fun whom m hm => ?_) { h with } hH
    cases List.mem_singleton.mp hm
    exact ⟨rfl, h.high⟩
  | _ => exact hkeep (by simp) { h with } hH

end Acts

theorem moves_stateBacked {st : Stage} (hE : electorate seat = E) (hl : seat.leaders = s.leaders)
    (hm : Moves rules seat before input ⟨{ state := r }, input.hand⟩ st)
    (hi : Deliverable s T input) (hT : PostBacked s E T) (h : StateBacked s E T r) :
    PostBacked s E (T ++ posts seat.replica st.turn.effects) ∧
      StateBacked s E (T ++ posts seat.replica st.turn.effects) st.turn.state := by
  have hall : PostBacked s E (T ++ posts seat.replica st.turn.effects) ∧
      StateBacked s E (T ++ posts seat.replica st.turn.effects) st.turn.state ∧
        SyncsBacked s E (T ++ posts seat.replica st.turn.effects) st.hand := by
    induction hm with
    | refl =>
      rw [show posts seat.replica ([] : List Effect) = [] from rfl, List.append_nil]
      exact ⟨hT, h, syncsBacked_hand hT hi⟩
    | tail _ hact ih =>
      cases hact with
      | act ha =>
        obtain ⟨hT', h', hH'⟩ := ih
        dsimp only
        rw [posts_append, ← List.append_assoc]
        exact act_stateBacked hE hl ha (deliverable_mono (List.subset_append_left _ _) hi)
          hT' h' hH'
  exact ⟨hall.1, hall.2.1⟩

def posted {p : Protocol} (run : Run p) : Post :=
  run.network.sent.map fun e => (e.origin, e.recipients, e.message)

def RunBacked (rules : Rules) (s : Scenario) (E : Electorate) (run : Run rules.protocol) : Prop :=
  PostBacked s E (posted run) ∧ ∀ i ∈ run.instances, StateBacked s E (posted run) i.state

theorem letters_posts (seat : Seat) (k : Nat) (t : Turn Replica) :
    (letters seat.node seat.replica k t.sent).map (fun e => (e.origin, e.recipients, e.message)) =
      posts seat.replica t.effects := by
  have hsent : ∀ ms k, (letters seat.node seat.replica k ms).map
      (fun e => (e.origin, e.recipients, e.message)) = ms.map fun m => (seat.replica, m) := by
    intro ms
    induction ms with
    | nil => exact fun _ => rfl
    | cons m ms ih =>
      intro k
      rw [letters, List.map_cons, ih, List.map_cons]
  rw [hsent]
  unfold Turn.sent posts
  rw [List.map_filterMap]
  refine List.filterMap_congr fun e _ => ?_
  cases e <;> rfl

theorem posted_took (run : Run rules.protocol) (seat : Seat) (t : Turn Replica) :
    posted (took run seat t) = posted run ++ posts seat.replica t.effects := by
  unfold posted took
  rw [foldl_post]
  dsimp only
  rw [List.map_append, letters_posts]

theorem mem_posted {p : Protocol} {run : Run p} {e : Envelope} (he : e ∈ run.network.sent) :
    (e.origin, e.recipients, e.message) ∈ posted run := List.mem_map.mpr ⟨e, he, rfl⟩

section Keeping

variable {C : Cluster} {wiring : Wiring} {run : Run rules.protocol} {i : Instance rules.protocol}

theorem deliverable_of_due (hs : wiring.scenario = s) (hi : wiring.injection = none)
    (hd : Due wiring run i input) : Deliverable s (posted run) input := by
  cases hd with
  | message sent reached possible =>
    obtain ⟨schedule, hsch⟩ := scheduled_of_receiver reached
    rw [hs] at hsch
    rw [carried_eq hi] at hsch possible ⊢
    exact ⟨⟨_, mem_posted sent⟩, possible, schedule, hsch⟩
  | _ => trivial

theorem runInvariant_runBacked (hs : wiring.scenario = s) (hi : wiring.injection = none)
    (hC : ∀ seat ∈ C.seats, electorate seat = E ∧ seat.leaders = s.leaders) :
    RunInvariant C wiring (RunBacked rules s E) where
  turn run i input hst hp hmem hd := by
    obtain ⟨H', hm⟩ := due_moves hd
    obtain ⟨hE, hl⟩ := hC i.seat (hst.mem_seats hmem)
    obtain ⟨hT, hg⟩ := moves_stateBacked hE hl hm (deliverable_of_due hs hi hd) hp.1 (hp.2 i hmem)
    unfold RunBacked
    rw [posted_took]
    refine ⟨hT, fun j hj => ?_⟩
    obtain ⟨k, hk, -, ⟨-, he, -⟩ | ⟨-, rfl⟩⟩ := mem_took hj
    · rw [he]
      exact hg
    · exact (hp.2 j hk).mono (List.subset_append_left _ _)
  frame run run' hins hnet hp := by
    unfold RunBacked posted
    rw [hins, hnet]
    exact hp
  batch run _ hp _ := hp
  read config run hp := by
    refine ⟨hp.1, fun j hj => ?_⟩
    obtain ⟨k, hk, rfl⟩ := List.mem_map.mp hj
    exact hp.2 k hk

end Keeping

def quorumCertificates (run : Run rules.protocol) : List QuorumCertificate :=
  run.instances.flatMap (fun i => certificates i.state ++ i.state.timeouts.map (·.2.2)) ++
    run.network.sent.flatMap fun e => enclosed e.message

def timeoutCertificates (run : Run rules.protocol) : List TimeoutCertificate :=
  run.instances.flatMap (fun i => i.state.highTc.toList) ++
    run.network.sent.flatMap fun e =>
      match e.message with
      | .newView n => n.sync.tc.toList
      | _ => []

theorem backedOrGenesis_enclosed {whom : Recipients} {m : Message}
    (hm : MessageBacked s E T origin whom m) (hq : q ∈ enclosed m) : BackedOrGenesis s E T q := by
  cases m with
  | propose p => exact hm.2 q (Option.mem_toList.mp hq)
  | vote v => cases hq
  | timeout m => exact List.mem_singleton.mp hq ▸ hm.2
  | newView n => exact (hm _ List.mem_cons_self).1 q (Option.mem_toList.mp hq)

theorem backedOrGenesis_certificates (hT : PostBacked s E T) (h : StateBacked s E T r)
    (hq : q ∈ certificates r) : BackedOrGenesis s E T q := by
  obtain rfl | ⟨b, hb, hj⟩ := mem_certificates.mp hq
  · exact h.high
  · obtain rfl | ⟨leader, whom, -, hm⟩ := h.stored b hb
    · cases hj
    · exact (hT _ hm).2 q hj

section Runs

variable {run : Run rules.protocol} (h : RunBacked rules s E run)
include h

theorem backedOrGenesis_of_runBacked (hq : q ∈ quorumCertificates run) :
    BackedOrGenesis s E (posted run) q := by
  obtain hq | hq := List.mem_append.mp hq
  · obtain ⟨i, hi, hq⟩ := List.mem_flatMap.mp hq
    have hg := h.2 i hi
    obtain hq | hq := List.mem_append.mp hq
    · exact backedOrGenesis_certificates h.1 hg hq
    · obtain ⟨x, hx, rfl⟩ := List.mem_map.mp hq
      exact hg.highest x hx
  · obtain ⟨e, he, hq⟩ := List.mem_flatMap.mp hq
    exact backedOrGenesis_enclosed (h.1 _ (mem_posted he)) hq

theorem backedTc_of_runBacked (ht : tc ∈ timeoutCertificates run) :
    BackedTc s E (posted run) tc := by
  obtain ht | ht := List.mem_append.mp ht
  · obtain ⟨i, hi, ht⟩ := List.mem_flatMap.mp ht
    exact (h.2 i hi).timed tc (Option.mem_toList.mp ht)
  · obtain ⟨e, he, ht⟩ := List.mem_flatMap.mp ht
    have hm := h.1 _ (mem_posted he)
    cases hmsg : e.message with
    | newView n =>
      rw [hmsg] at ht hm
      exact (hm _ List.mem_cons_self).2 tc (Option.mem_toList.mp ht)
    | _ =>
      rw [hmsg] at ht
      cases ht

end Runs

/-- Without an injection, at every step of a run: each quorum certificate in circulation, except for
the genesis one, certifies a block that the scheduled leader of its view proposed in that view, and
is signed by a quorum of different replicas that voted for the block; each timeout certificate is
signed by a quorum of different replicas that told everyone that they gave up on its view; all
messages come from the nodes of the run, so that an instance has done what its replica is said to
have done; and no instance is further than one view past the last scheduled one. -/
theorem certificates_backed (scheme : Scheme) (s : Scenario) (config : RunConfig)
    (hv : config.validate s = .ok ()) (hi : config.injection = none) :
    ∀ run ∈ states scheme s config rules.protocol,
      (∀ q ∈ quorumCertificates run, q ≠ .genesis →
        Backed s ⟨replicas config.replicas, quorumSize config.replicas⟩ (posted run) q) ∧
      (∀ tc ∈ timeoutCertificates run,
        BackedTc s ⟨replicas config.replicas, quorumSize config.replicas⟩ (posted run) tc) ∧
      (∀ e ∈ run.network.sent, (e.sender, e.origin) ∈ assignNodes config.replicas config.twins) ∧
      ∀ i ∈ run.instances, i.state.view.toNat ≤ s.size + 1 ∧
        (s.size < 0x10000000000000000 → i.state.view ≤ s.lastView.next) := by
  have hC : ∀ seat ∈ (cluster scheme s config hv).seats,
      electorate seat = ⟨replicas config.replicas, quorumSize config.replicas⟩ ∧
        seat.leaders = s.leaders := by
    intro seat hseat
    obtain ⟨x, -, rfl⟩ := List.mem_map.mp hseat
    refine ⟨?_, rfl⟩
    unfold electorate seatOf
    dsimp only
    rw [length_replicas]
  have hopened : RunBacked rules s ⟨replicas config.replicas, quorumSize config.replicas⟩
      (opened scheme s config rules.protocol) :=
    ⟨fun x hx => absurd hx List.not_mem_nil, fun i hi => by
      rw [opened_created rules i hi]
      exact .initial⟩
  intro run hr
  obtain ⟨hst, hu⟩ := states_startedRun hv hi (runInvariant_runBacked rfl hi hC) hopened run hr
  refine ⟨fun q hq hne => (backedOrGenesis_of_runBacked hu hq).resolve_left hne,
    fun tc ht => backedTc_of_runBacked hu ht, fun e he => ?_, fun i hmem => ?_⟩
  · obtain ⟨t, ht, hn, ho⟩ := hst.senders e he
    obtain ⟨x, hx, rfl⟩ := List.mem_map.mp ht
    rw [← hn, ← ho]
    exact hx
  · have hview : i.state.view.toNat ≤ s.size + 1 := (hu.2 i hmem).view
    refine ⟨hview, fun hsize => ?_⟩
    have hlt := i.state.view.isLt
    rw [View.le_def, View.toNat_next]
    unfold Scenario.lastView View.ofNat
    dsimp only
    rw [Nat.mod_eq_of_lt hsize]
    omega

theorem certificates_backed_openRun :
    ∃ run ∈ openStates, ∃ q ∈ quorumCertificates run, q ≠ .genesis ∧
      Backed openScenario ⟨replicas 4, quorumSize 4⟩ (posted run) q := by
  have h : ∃ run ∈ openStates, ∃ q ∈ quorumCertificates run, q ≠ .genesis := by
    decide +kernel
  obtain ⟨run, hr, q, hq, hne⟩ := h
  obtain ⟨hb, -⟩ := certificates_backed plainScheme openScenario (fourReplicas .simple 7)
    (open_valid .simple) rfl run hr
  exact ⟨run, hr, q, hq, hne, hb q hq hne⟩

end Equivocation.Proofs.Provenance
