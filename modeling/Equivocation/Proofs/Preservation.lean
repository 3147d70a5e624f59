import Equivocation.Proofs.Soundness

namespace Equivocation.Proofs.Preservation

open Relation History Locking Ancestry Ballots Adoption Turns Soundness Replica

variable {C : Cluster} {T T' : Trace} {rules : Rules} {seat : Seat} {input : Input}
  {r r' : Replica} {H H' : List SyncInfo} {es : List Effect} {b : Block} {v : View}

theorem genuine_takeQc {s : SyncInfo} (hs : Sound C T seat r) (hh : HandGenuine C T H)
    (hm : s ∈ H) :
    Genuine C T (takeQc r.highQc s.qc) := by
  rcases takeQc_cases r.highQc s.qc with hq | hq
  · rw [hq]
    exact hs.high
  · exact hh s hm _ hq

theorem adopt_sound {s : SyncInfo} (hs : Sound C T seat r) (hh : HandGenuine C T H) (hm : s ∈ H)
    (hc : s.certifiedView? = some v) (hr : v < r.view) :
    Sound C T seat { r with highTc := takeTc r.highTc s.tc, highQc := takeQc r.highQc s.qc } :=
  { hs with
    high := genuine_takeQc hs hh hm
    past := by
      rcases takeQc_cases r.highQc s.qc with hq | hq
      · rw [hq]
        exact hs.past
      · exact .inr (View.next_le_of_lt (Nat.lt_of_le_of_lt (certifiedView?_le hq hc) hr)) }

theorem climb_sound {s : SyncInfo} (hs : Sound C T seat r) (hh : HandGenuine C T H) (hm : s ∈ H)
    (hc : s.certifiedView? = some v) (hr : r.view ≤ v) :
    Sound C T seat
      (entered v.next
        { r with highTc := takeTc r.highTc s.tc, highQc := takeQc r.highQc s.qc }) :=
  { hs with
    high := genuine_takeQc hs hh hm
    past := by
      change (takeQc r.highQc s.qc).view = .zero ∨ (takeQc r.highQc s.qc).view.next ≤ v.next
      rcases takeQc_cases r.highQc s.qc with hq | hq
      · rw [hq]
        exact hs.past.imp_right fun hp => Nat.le_trans (Nat.le_trans hp hr) (View.le_next v)
      · exact .inr (View.next_le_next (certifiedView?_le hq hc))
    votes := fun x hx => hs.votes x (List.mem_filter.mp hx).1
    timeouts := fun x hx => hs.timeouts x (List.mem_filter.mp hx).1 }

theorem giveUp_sound (hs : Sound C T seat r) (signatures : SignatureCache) :
    Sound C T seat
      { r with
        signatures
        safety :=
          if r.safety.lastVote < r.view then { r.safety with lastVote := r.view }
          else r.safety } := by
  split
  · rename_i hv
    exact { hs with last := fun w h hw => Nat.le_trans (hs.last w h hw) (Nat.le_of_lt hv) }
  · exact { hs with }

theorem restrained_of_mayVote (hl : AllWarranted C T) (hd : Distinct T) (hs : Sound C T seat r)
    (hb : Known T b) (hv : rules.mayVote r.chain r.safety b r.view = true) :
    Restrained T seat.node b := by
  obtain ⟨l, hg, hc, hcov⟩ := hs.lock
  refine ⟨l, hc, hcov, ?_⟩
  have hp : ∀ p, r.chain.justified? b = some p → l.view ≤ p.view →
      ∃ p, Link T b p ∧ l.view ≤ p.view :=
    fun p hj hle => ⟨p, link_of_justified? hl hs.stored hb hj, hle⟩
  unfold Rules.mayVote at hv
  rw [lockedView_of_stored hg] at hv
  cases rules with
  | chained =>
    rcases Bool.or_eq_true_iff.mp hv with hv | hv
    · obtain ⟨l', hg', hdesc⟩ := descends_of_reaches hl hd hs.stored hb hv
      obtain rfl := Option.some.inj (hg.symm.trans hg')
      exact .inl hdesc
    · split at hv
      · cases hv
      · rename_i p hj
        exact .inr (hp p hj (Nat.le_of_lt (of_decide_eq_true hv)))
  | simple =>
    obtain ⟨-, hv⟩ := Bool.and_eq_true_iff.mp hv
    split at hv
    · cases hv
    · rename_i p hj
      exact .inr (hp p hj (of_decide_eq_true hv))

theorem vote_sound (hs : Sound C T seat r) (ht : T ⊆ T') (signatures : SignatureCache)
    (hv : ∀ w h, Voted T' seat.node w h → Voted T seat.node w h ∨ w = b.view ∧ h = b.hash)
    (hf : r.safety.lastVote < b.view)
    (hc : Covered T b.hash (r.safety.lockedView r.chain)) :
    Sound C T' seat { r with signatures, safety := { r.safety with lastVote := b.view } } where
  stored x hx := (hs.stored x hx).mono ht
  high := hs.high.mono ht
  past := hs.past
  votes x hx := ⟨(hs.votes x hx).1, fun s hm =>
    ⟨((hs.votes x hx).2 s hm).1, ((hs.votes x hx).2 s hm).2.mono ht⟩⟩
  timeouts x hx := (hs.timeouts x hx).mono ht
  lock := by
    obtain ⟨l, hg, hcl, hcov⟩ := hs.lock
    rw [lockedView_of_stored hg] at hc
    refine ⟨l, hg, hcl.mono ht, fun w h hw => ?_⟩
    rcases hv w h hw with hw | ⟨-, rfl⟩
    · exact (hcov w h hw).mono ht
    · exact hc.mono ht
  last w h hw := by
    rcases hv w h hw with hw | ⟨rfl, -⟩
    · exact Nat.le_trans (hs.last w h hw) (Nat.le_of_lt hf)
    · exact Nat.le_refl _

theorem vote_midTurn {origin : ReplicaId} (hd : Distinct T)
    (hs : MidTurn C T seat r H) (hi : Received C T (.message origin (.propose ⟨b⟩)))
    (signatures : SignatureCache) (ha : r.chain.hasAncestry b = true)
    (hf : r.safety.lastVote < b.view)
    (hv : rules.mayVote r.chain r.safety b r.view = true)
    (hc : ∀ one two, r.chain.justified? b = some one → r.chain.justified? one = some two →
      two.view ≤ r.safety.lockedView r.chain)
    {s : Signature}
    (he : ∀ e ∈ es, Idle e ∨ ∃ leader, e = .send (.replica leader) (.vote ⟨b.view, b.hash, s⟩)) :
    MidTurn C (T ++ tag seat.node (.publish (.vote ⟨b.view, b.hash, s⟩) :: es)) seat
      { r with signatures, safety := { r.safety with lastVote := b.view } } H := by
  have hb := hi.known
  have hz : b ≠ .genesis := by
    rintro rfl
    exact absurd hf (Nat.not_lt_zero _)
  have hwarr : Warranted C T seat.node (.publish (.vote ⟨b.view, b.hash, s⟩)) :=
    ⟨b, hb, rfl, rfl, (path_of_hasAncestry hs.lawful hd hs.sound.stored hb ha).2,
      fun w h hw => Nat.lt_of_le_of_lt (hs.sound.last w h hw) hf,
      restrained_of_mayVote hs.lawful hd hs.sound hb hv⟩
  refine ⟨hs.lawful.extend fun fs e gs hfs => ?_, ?_, hs.vouched.mono (subset_tag _ _ _)⟩
  · -- The vote comes first, what follows only carries it.
    rcases List.cons_eq_append_iff.mp hfs with ⟨rfl, he₀⟩ | ⟨fs', rfl, he₀⟩
    · cases he₀
      rw [tag_nil]
      exact hwarr
    · rcases he e (by rw [he₀]; simp) with hm | ⟨leader, rfl⟩
      · exact warranted_of_idle hm
      · exact List.mem_append_right _ (List.mem_map.mpr ⟨_, List.mem_cons_self, rfl⟩)
  · exact vote_sound hs.sound (subset_tag _ _ _) signatures (fun w h hw => voted_signsVote he hw) hf
      (covered_of_relocked hs.lawful hd hs.sound.stored hb hz ha hc)

theorem signsVote_of_received {origin : ReplicaId} {v : Vote} (hl : AllWarranted C T)
    (hi : Received C T (.message origin (.vote v))) :
    SignsVote C T (v.view, v.block) v.signature := by
  obtain ⟨hm, t, ht, rfl, whom, hw⟩ := hi
  have hsig : v.signature.signer = t.replica := by
    by_contra hne
    simp [Message.impossibility?, hne] at hm
  obtain ⟨p, q, rfl, hv⟩ := hl.warranted hw
  exact ⟨t, ht, hsig.symm, v.signature, List.mem_append_left _ hv⟩

theorem genuine_of_polled {q : QuorumCertificate} (hseat : seat ∈ C.seats)
    (hs : Sound C T seat r) (hk : (r.chain.get? q.block).map (·.view) = some q.view)
    (hp : Polled (electorate seat) (SignsVote C T (q.view, q.block)) q.signatures)
    (hq : (electorate seat).quorum ≤ q.signatures.length) : Genuine C T q := by
  obtain ⟨b, hg, hv⟩ := Option.map_eq_some_iff.mp hk
  have hh := hash_of_get? hg
  rw [← hv, ← hh] at hp
  exact ⟨b, .inr ⟨hs.stored b (mem_of_get? hg), quorum_of_polled hseat hp hq⟩, hh.symm, hv.symm⟩

theorem collectVote_midTurn {origin : ReplicaId} {v : Vote} (hseat : seat ∈ C.seats)
    (hs : MidTurn C T seat r H) (hi : Received C T (.message origin (.vote v)))
    (hk : (r.chain.get? v.block).map (·.view) = some v.view) :
    MidTurn C T seat (countVote seat v r) (H ++ voteCertificate seat v r) := by
  obtain ⟨hvotes, hqc⟩ := collect_votes hs.sound.votes (signsVote_of_received hs.lawful hi)
  refine ⟨hs.lawful, { hs.sound with votes := fun x hx => (hvotes x hx).1 }, fun s hm q hq => ?_⟩
  rcases List.mem_append.mp hm with hm | hm
  · exact hs.vouched s hm q hq
  · obtain ⟨qc, rfl, hc⟩ := mem_voteCertificate hm
    obtain ⟨hv, hb, hp, hn⟩ := hqc qc hc
    obtain rfl := Option.some.inj hq
    rw [← hv, ← hb] at hp hk
    exact genuine_of_polled hseat hs.sound hk hp hn

theorem genuine_enclosed (hl : AllWarranted C T) {n : NodeId} {whom : Recipients} {m : Message}
    (hm : (n, .send whom m) ∈ T) {q : QuorumCertificate} (hq : q ∈ enclosed m) :
    Genuine C T q := by
  obtain ⟨p, p', rfl, hw⟩ := hl.warranted hm
  refine Genuine.mono (List.subset_append_left p _) ?_
  cases m with
  | propose p =>
    obtain ⟨q', hj, -, -, hg, -⟩ := hw
    obtain rfl := Option.some.inj (hj.symm.trans (Option.mem_toList.mp hq))
    exact hg
  | vote v => cases hq
  | timeout m =>
    rw [List.mem_singleton.mp hq]
    exact hw
  | newView m => exact hw q (Option.mem_toList.mp hq)

theorem collectTimeout_midTurn {origin : ReplicaId} {m : Timeout}
    (hs : MidTurn C T seat r H) (hi : Received C T (.message origin (.timeout m))) :
    MidTurn C T seat (countTimeout seat m r) (H ++ timeoutCertificate seat m r) := by
  obtain ⟨-, t, -, -, whom, hw⟩ := hi
  have hm : Genuine C T m.highQc := genuine_enclosed hs.lawful hw (List.mem_singleton.mpr rfl)
  obtain ⟨ht, hc⟩ := @collect_timeouts (electorate seat) m.signature m.view (Genuine C T) m.highQc
    r.timeouts hs.sound.timeouts hm
  refine ⟨hs.lawful, { hs.sound with timeouts := ht }, fun s hm q hq => ?_⟩
  rcases List.mem_append.mp hm with hm | hm
  · exact hs.vouched s hm q hq
  · obtain ⟨x, rfl, hx⟩ := mem_timeoutCertificate hm
    obtain rfl := Option.some.inj hq
    exact hc x hx

theorem settle_midTurn (bs : List Block) (hs : MidTurn C T seat r H) :
    MidTurn C (T ++ tag seat.node (settlement bs)) seat (settle bs r) H := by
  have he := hs.emit (fun v hv => by obtain ⟨x, hx⟩ := mem_settlement hv; cases hx)
    fun fs e gs hfs => by
      obtain ⟨x, rfl⟩ := @mem_settlement bs e (by rw [hfs]; simp)
      trivial
  exact ⟨he.lawful, { he.sound with }, he.vouched⟩

/-- Whatever an instance does next, it does with the preconditions met, and stays sound. -/
theorem act_midTurn {before : Replica} (ha : Act rules seat before input r H r' es H')
    (hseat : seat ∈ C.seats) (hi : Received C T input) (hd : Distinct (T ++ tag seat.node es))
    (hs : MidTurn C T seat r H) : MidTurn C (T ++ tag seat.node es) seat r' H' := by
  have hd₀ := hd.anti (subset_tag T _ _)
  cases ha with
  | quiet signatures kept idle =>
    have he := hs.emit (fun v hv => idle _ hv) fun fs e gs hfs =>
      warranted_of_idle (idle e (by rw [hfs]; simp))
    exact ⟨he.lawful, { he.sound with }, he.vouched⟩
  | tear held timed voted newer void =>
    have he := @MidTurn.emit_one C T seat r H (.remark (Remark.invalidQc.record seat.node)) hs
      (by simp) trivial
    exact ⟨he.lawful, { he.sound with }, he.vouched⟩
  | adopt held certified past valid =>
    rw [tag_nil]
    exact ⟨hs.lawful, adopt_sound hs.sound hs.vouched held certified past, hs.vouched⟩
  | climb held certified ahead valid =>
    rw [tag_nil]
    exact ⟨hs.lawful, climb_sound hs.sound hs.vouched held certified ahead, hs.vouched⟩
  | propose started led =>
    have he := @MidTurn.send C T seat r H .all _ hs (warranted_proposal hs.sound started)
    have hk : Known (T ++ tag seat.node [.send .all (.propose ⟨nextBlock seat r⟩)])
        (nextBlock seat r) :=
      .inr ⟨seat.node, .all, List.mem_append_right _ List.mem_cons_self⟩
    exact ⟨he.lawful, { he.sound.insert hk with }, he.vouched⟩
  | greet leader started =>
    refine hs.send fun q hq => ?_
    obtain rfl := Option.some.inj hq
    exact hs.sound.high
  | store offered led current carried labelled attested adopted grown =>
    subst offered
    rw [tag_nil]
    exact ⟨hs.lawful, hs.sound.insert hi.known, hs.vouched⟩
  | relock offered certifies recertifies newer =>
    subst offered
    rw [tag_nil]
    have hc := inner_of_recertified hs.lawful hs.sound.stored hi.known certifies recertifies
    exact ⟨hs.lawful, hs.sound.relock hc (get?_of_justified? recertifies) newer, hs.vouched⟩
  | commit offered ancestry certifies recertifies completes stored complete =>
    exact settle_midTurn _ hs
  | vote offered ancestry first allowed covered informed mail =>
    subst offered
    exact vote_midTurn hd₀ hs hi _ ancestry first allowed covered mail
  | certify held => exact hs.emit_one (by simp) (hs.vouched _ held _ rfl)
  | collectVote offered known signed =>
    subst offered
    rw [tag_nil]
    exact collectVote_midTurn hseat hs hi known
  | collectTimeout offered =>
    subst offered
    rw [tag_nil]
    exact collectTimeout_midTurn hs hi
  | count ticks =>
    rw [tag_nil]
    exact ⟨hs.lawful, { hs.sound with }, hs.vouched⟩
  | giveUp started =>
    have he := @MidTurn.send C T seat r H .all
      (.timeout ⟨r.view, seat.policy.keys.sign r.view.hash, r.highQc⟩) hs hs.sound.high
    exact ⟨he.lawful, giveUp_sound he.sound _, he.vouched⟩

end Equivocation.Proofs.Preservation
