import Equivocation.Proofs.Authenticity
import Equivocation.Proofs.Circulation

namespace Equivocation.Proofs.ViewChange

open Relation History Locking Ballots Validity Adoption Turns Lives Soundness Preservation Worlds
  Authenticity States Simulation Deployment Agreement Circulation Replica

variable (C : Cluster) (T : Trace)

/-- A node gave up on a view, and sent its highest certificate along. -/
def Quit (n : NodeId) (v : View) (q : QuorumCertificate) : Prop :=
  ∃ whom s, (n, .send whom (.timeout ⟨v, s, q⟩)) ∈ T

def Cites (h : Hash) (w : View) : Prop :=
  ∃ b, Known T b ∧ b.hash = h ∧ ∀ q, b.justify = some q → q.view ≤ w

def SignerQuit (v w : View) (s : Signature) : Prop :=
  ∃ t ∈ C.seats, t.replica = s.signer ∧ ∃ q, Quit T t.node v q ∧ q.view ≤ w

def Abandoned (v w : View) : Prop := Quorum C fun t => ∃ q, Quit T t.node v q ∧ q.view ≤ w

/-- A timeout certificate comes with a quorum certificate that none of those who gave up was ahead
of. -/
def SyncCovers (s : SyncInfo) : Prop :=
  ∀ tc, s.tc = some tc → ∃ q, s.qc = some q ∧ Abandoned C T tc.view q.view

/-- Those who give up on a view let know what they voted for until then, and so do those who pass
on that a quorum did. -/
structure QuitsReportVotes : Prop where
  heeds : ∀ n v h w q, Voted T n v h → Quit T n w q → v ≤ w → Cites T h q.view
  relays : ∀ n whom m, (n, .send whom (.newView m)) ∈ T → SyncCovers C T m.sync

structure KnowsPastViews (seat : Seat) (r : Replica) : Prop where
  timed : ∀ x ∈ r.timeouts, Polled (electorate seat) (SignerQuit C T x.1 x.2.2.view) x.2.1
  abandoned : ∀ tc, r.highTc = some tc → Abandoned C T tc.view r.highQc.view
  entered : r.view = .zero ∨ r.view ≤ r.highQc.view.next ∨
    ∃ v, r.view = v.next ∧ Abandoned C T v r.highQc.view
  cited : ∀ w h, Voted T seat.node w h → Cites T h r.highQc.view
  quit : ∀ w q, Quit T seat.node w q → w ≤ r.safety.lastVote

variable {C T} {T' : Trace} {W W' : World} {rules : Rules} {seat : Seat} {input : Input}
  {before r r' : Replica} {H H' : List SyncInfo} {es : List Effect} {b : Block}
  {q : QuorumCertificate} {n : NodeId} {v w w' : View} {h : Hash} {s : SyncInfo}

section Growth

variable (ht : T ⊆ T') (hw : w ≤ w')
include ht

theorem Quit.mono (hq : Quit T n v q) : Quit T' n v q :=
  hq.imp fun _ hq => hq.imp fun _ hm => ht hm

include hw

theorem Cites.mono (hc : Cites T h w) : Cites T' h w' := by
  obtain ⟨b, hb, he, hq⟩ := hc
  exact ⟨b, hb.mono ht, he, fun q hj => Nat.le_trans (hq q hj) hw⟩

theorem SignerQuit.mono {s : Signature} (hs : SignerQuit C T v w s) : SignerQuit C T' v w' s := by
  obtain ⟨t, hseat, he, q, hq, hle⟩ := hs
  exact ⟨t, hseat, he, q, hq.mono ht, Nat.le_trans hle hw⟩

theorem Abandoned.mono (ha : Abandoned C T v w) : Abandoned C T' v w' :=
  ha.imp fun _ ⟨q, hq, hle⟩ => ⟨q, hq.mono ht, Nat.le_trans hle hw⟩

omit hw in
theorem SyncCovers.mono (hs : SyncCovers C T s) : SyncCovers C T' s := by
  intro tc htc
  obtain ⟨q, hq, ha⟩ := hs tc htc
  exact ⟨q, hq, ha.mono ht (Nat.le_refl _)⟩

end Growth

theorem quit_tag {m : NodeId} (hes : ∀ whom t, .send whom (.timeout t) ∉ es)
    (hq : Quit (T ++ tag n es) m v q) : Quit T m v q := by
  obtain ⟨whom, s, hm⟩ := hq
  rcases mem_tag hm with hm | ⟨-, hm⟩
  · exact ⟨whom, s, hm⟩
  · exact absurd hm (hes _ _)

theorem quit_tag_of_ne {m : NodeId} (hn : m ≠ n) (hq : Quit (T ++ tag n es) m v q) : Quit T m v q :=
  hq.imp fun _ hq => hq.imp fun _ => mem_tag_of_ne hn

/-- New votes have to be for blocks whose certificates the instance has taken over, and new timeouts
count as votes. -/
theorem KnowsPastViews.extend (hb : KnowsPastViews C T seat r) (ht : T ⊆ T')
    (signatures : SignatureCache) (safety : Safety)
    (hv : ∀ w h, Voted T' seat.node w h → Voted T seat.node w h ∨ Cites T' h r.highQc.view)
    (hq : ∀ w q, Quit T' seat.node w q → w ≤ safety.lastVote) :
    KnowsPastViews C T' seat { r with signatures, safety } where
  timed x hx := ⟨(hb.timed x hx).1, fun s hs =>
    ((hb.timed x hx).2 s hs).imp_right (SignerQuit.mono ht (Nat.le_refl _))⟩
  abandoned tc htc := (hb.abandoned tc htc).mono ht (Nat.le_refl _)
  entered := hb.entered.imp_right fun h => h.imp_right fun ⟨v, he, ha⟩ =>
    ⟨v, he, ha.mono ht (Nat.le_refl _)⟩
  cited w h hw := (hv w h hw).elim (fun hw => (hb.cited w h hw).mono ht (Nat.le_refl _)) id
  quit := hq

/-- Nothing but its own votes and timeouts can make an instance lose track. -/
theorem KnowsPastViews.frame (hb : KnowsPastViews C T seat r) (ht : T ⊆ T')
    (hv : ∀ w h, Voted T' seat.node w h → Voted T seat.node w h)
    (hq : ∀ w q, Quit T' seat.node w q → Quit T seat.node w q) : KnowsPastViews C T' seat r :=
  hb.extend ht r.signatures r.safety (fun w h hw => .inl (hv w h hw))
    fun w q hw => hb.quit w q (hq w q hw)

theorem KnowsPastViews.initial (seat : Seat) : KnowsPastViews C [] seat {} where
  timed _ hx := absurd hx List.not_mem_nil
  abandoned tc htc := by cases htc
  entered := .inl rfl
  cited w h hw := by
    obtain ⟨s, hs⟩ := hw
    exact absurd hs List.not_mem_nil
  quit w q hq := by
    obtain ⟨whom, s, hs⟩ := hq
    exact absurd hs List.not_mem_nil

theorem QuitsReportVotes.initial : QuitsReportVotes C [] where
  heeds n v h w q hv := by
    obtain ⟨s, hs⟩ := hv
    exact absurd hs List.not_mem_nil
  relays n whom m hm := absurd hm List.not_mem_nil

theorem QuitsReportVotes.extend (hm : QuitsReportVotes C T)
    (hown : ∀ v h w q, Voted (T ++ tag n es) n v h → Quit (T ++ tag n es) n w q → v ≤ w →
      Cites (T ++ tag n es) h q.view)
    (hn : ∀ whom m, .send whom (.newView m) ∈ es → SyncCovers C T m.sync) :
    QuitsReportVotes C (T ++ tag n es) where
  heeds m v h w q hv hq hle := by
    by_cases he : m = n
    · subst he
      exact hown v h w q hv hq hle
    · have hv : Voted T m v h := hv.imp fun _ => mem_tag_of_ne he
      exact (hm.heeds m v h w q hv (quit_tag_of_ne he hq) hle).mono (subset_tag T n es)
        (Nat.le_refl _)
  relays m whom msg hmem := by
    rcases mem_tag hmem with hmem | ⟨-, hmem⟩
    · exact (hm.relays m whom msg hmem).mono (subset_tag T n es)
    · exact (hn whom msg hmem).mono (subset_tag T n es)

theorem QuitsReportVotes.emit (hm : QuitsReportVotes C T) (hv : ∀ v, .publish (.vote v) ∉ es)
    (hq : ∀ whom t, .send whom (.timeout t) ∉ es)
    (hn : ∀ whom m, .send whom (.newView m) ∈ es → SyncCovers C T m.sync) :
    QuitsReportVotes C (T ++ tag n es) :=
  hm.extend (fun v h w q hvote hquit hle =>
    (hm.heeds n v h w q (voted_tag hv hvote) (quit_tag hq hquit) hle).mono (subset_tag T n es)
      (Nat.le_refl _)) hn

theorem KnowsPastViews.take (hb : KnowsPastViews C T seat r) (hs : SyncCovers C T s) :
    KnowsPastViews C T seat
      { r with highTc := takeTc r.highTc s.tc, highQc := takeQc r.highQc s.qc } :=
  have hle := le_takeQc r.highQc s.qc
  { hb with
    abandoned := fun tc htc => by
      rcases takeTc_cases r.highTc s.tc with he | ⟨tc', htc', he, -⟩
      · exact (hb.abandoned tc (he ▸ htc)).mono (List.Subset.refl T) hle
      · obtain rfl := Option.some.inj (he.symm.trans htc)
        obtain ⟨q, hq, ha⟩ := hs tc' htc'
        dsimp only
        rw [hq]
        exact ha.mono (List.Subset.refl T) (view_le_takeQc _ _)
    entered := hb.entered.imp_right fun h => h.imp
      (fun hv => Nat.le_trans hv (View.next_le_next hle))
      fun ⟨v, he, ha⟩ => ⟨v, he, ha.mono (List.Subset.refl T) hle⟩
    cited := fun w h hw => (hb.cited w h hw).mono (List.Subset.refl T) hle }

/-- A view is entered with the certificate of the view before, or after a quorum gave up on that. -/
theorem KnowsPastViews.climb (hb : KnowsPastViews C T seat r) (hs : SyncCovers C T s)
    (hc : s.certifiedView? = some v) :
    KnowsPastViews C T seat
      (Adoption.entered v.next
        { r with highTc := takeTc r.highTc s.tc, highQc := takeQc r.highQc s.qc }) :=
  { hb.take hs with
    timed := fun x hx => hb.timed x (List.mem_filter.mp hx).1
    entered := by
      refine .inr ?_
      change v.next ≤ (takeQc r.highQc s.qc).view.next ∨
        ∃ u, v.next = u.next ∧ Abandoned C T u (takeQc r.highQc s.qc).view
      rcases certifiedView?_cases hc with ⟨q, hq, rfl⟩ | ⟨tc, htc, rfl⟩
      · rw [hq]
        exact .inl (View.next_le_next (view_le_takeQc _ _))
      · obtain ⟨q, hq, ha⟩ := hs tc htc
        rw [hq]
        exact .inr ⟨tc.view, rfl, ha.mono (List.Subset.refl T) (view_le_takeQc _ _)⟩ }

theorem KnowsPastViews.syncCovers (hb : KnowsPastViews C T seat r) : SyncCovers C T r.sync := by
  intro tc htc
  refine ⟨r.highQc, rfl, hb.abandoned tc ?_⟩
  unfold sync at htc
  dsimp only at htc
  split at htc
  · cases htc
  · rename_i high hhigh
    split at htc
    · rw [hhigh]
      exact htc
    · cases htc

theorem signerQuit_of_received {origin : ReplicaId} {m : Timeout}
    (hi : Received C T (.message origin (.timeout m))) :
    SignerQuit C T m.view m.highQc.view m.signature := by
  obtain ⟨hm, t, ht, rfl, whom, hw⟩ := hi
  have hsig : m.signature.signer = t.replica := by
    by_contra hne
    by_cases hz : m.view = .zero <;> simp [Message.impossibility?, hne, hz] at hm
  exact ⟨t, ht, hsig.symm, m.highQc, ⟨whom, m.signature, hw⟩, Nat.le_refl _⟩

theorem collectTimeout_knowsPastViews {origin : ReplicaId} {m : Timeout} (hseat : seat ∈ C.seats)
    (hi : Received C T (.message origin (.timeout m))) (hb : KnowsPastViews C T seat r)
    (hh : ∀ s ∈ H, SyncCovers C T s) :
    KnowsPastViews C T seat (countTimeout seat m r) ∧
      ∀ s ∈ H ++ timeoutCertificate seat m r, SyncCovers C T s := by
  obtain ⟨ht, hc⟩ := @collect_timeouts_bounded (electorate seat) m.signature m.view
    (SignerQuit C T) m.highQc r.timeouts (fun _ _ _ _ hle =>
      SignerQuit.mono (List.Subset.refl T) hle)
    hb.timed (signerQuit_of_received hi)
  refine ⟨{ hb with timed := ht }, fun s hs => ?_⟩
  rcases List.mem_append.mp hs with hs | hs
  · exact hh s hs
  · obtain ⟨x, rfl, hx⟩ := mem_timeoutCertificate hs
    obtain ⟨hv, hp, hq⟩ := hc x hx
    intro tc htc
    obtain rfl := Option.some.inj htc
    rw [hv]
    exact ⟨x.2, rfl, quorum_of_polled hseat hp hq⟩

/-- A vote is for a block with a certificate that the instance has taken over, and of a later view
than all it gave up on. -/
theorem vote_knowsPastViews {origin : ReplicaId}
    (hi : Received C T (.message origin (.propose ⟨b⟩)))
    (hm : QuitsReportVotes C T) (hb : KnowsPastViews C T seat r) (signatures : SignatureCache)
    (hf : r.safety.lastVote < b.view) (hinf : ∀ q, b.justify = some q → q.view ≤ r.highQc.view)
    {s : Signature} (mail : ∀ e ∈ es, Idle e ∨ ∃ leader,
      e = .send (.replica leader) (.vote ⟨b.view, b.hash, s⟩)) :
    QuitsReportVotes C (T ++ tag seat.node (.publish (.vote ⟨b.view, b.hash, s⟩) :: es)) ∧
    KnowsPastViews C (T ++ tag seat.node (.publish (.vote ⟨b.view, b.hash, s⟩) :: es)) seat
      { r with signatures, safety := { r.safety with lastVote := b.view } } := by
  have hsub := subset_tag T seat.node (.publish (.vote ⟨b.view, b.hash, s⟩) :: es)
  have hquit : ∀ w q, Quit (T ++ tag seat.node (.publish (.vote ⟨b.view, b.hash, s⟩) :: es))
      seat.node w q → Quit T seat.node w q :=
    fun w q => quit_tag fun whom t hmem => by cases message_of_ballot mail hmem
  refine ⟨hm.extend (fun v h w q hv hq hle => ?_) fun whom m hmem => ?_,
    hb.extend hsub signatures _ (fun w h hw => ?_) fun w q hq => ?_⟩
  · have hq := hquit w q hq
    rcases voted_signsVote mail hv with hv | ⟨rfl, -⟩
    · exact (hm.heeds _ v h w q hv hq hle).mono hsub (Nat.le_refl _)
    · exact absurd (Nat.lt_of_le_of_lt (hb.quit w q hq) hf) (Nat.not_lt_of_le hle)
  · cases message_of_ballot mail hmem
  · exact (voted_signsVote mail hw).imp_right fun he => ⟨b, hi.known.mono hsub, he.2.symm, hinf⟩
  · exact Nat.le_trans (hb.quit w q (hquit w q hq)) (Nat.le_of_lt hf)

/-- The timeout carries the highest certificate, and no vote for the view can follow it. -/
theorem giveUp_knowsPastViews (hm : QuitsReportVotes C T) (hb : KnowsPastViews C T seat r)
    (signatures : SignatureCache) (s : Signature) :
    QuitsReportVotes C (T ++ tag seat.node [.send .all (.timeout ⟨r.view, s, r.highQc⟩)]) ∧
    KnowsPastViews C (T ++ tag seat.node [.send .all (.timeout ⟨r.view, s, r.highQc⟩)]) seat
      { r with
        signatures
        safety :=
          if r.safety.lastVote < r.view then { r.safety with lastVote := r.view }
          else r.safety } := by
  have hsub := subset_tag T seat.node [.send .all (.timeout ⟨r.view, s, r.highQc⟩)]
  have hvoted : ∀ n w h, Voted (T ++ tag seat.node [.send .all (.timeout ⟨r.view, s, r.highQc⟩)])
      n w h → Voted T n w h := fun n w h => voted_tag (by simp)
  have hquit : ∀ w q, Quit (T ++ tag seat.node [.send .all (.timeout ⟨r.view, s, r.highQc⟩)])
      seat.node w q → Quit T seat.node w q ∨ w = r.view ∧ q = r.highQc := by
    rintro w q ⟨whom, s', hmem⟩
    rcases mem_tag hmem with hmem | ⟨-, hmem⟩
    · exact .inl ⟨whom, s', hmem⟩
    · cases List.mem_singleton.mp hmem
      exact .inr ⟨rfl, rfl⟩
  refine ⟨hm.extend (fun v h w q hv hq hle => ?_) (by simp),
    hb.extend hsub signatures _ (fun w h hw => .inl (hvoted _ w h hw)) fun w q hq => ?_⟩
  · rcases hquit w q hq with hq | ⟨-, rfl⟩
    · exact (hm.heeds _ v h w q (hvoted _ v h hv) hq hle).mono hsub (Nat.le_refl _)
    · exact (hb.cited v h (hvoted _ v h hv)).mono hsub (Nat.le_refl _)
  · have hold : w ≤ r.safety.lastVote ∨ w = r.view :=
      (hquit w q hq).imp (hb.quit w q) And.left
    split
    · rename_i hlt
      rcases hold with hold | rfl
      · exact Nat.le_trans hold (Nat.le_of_lt hlt)
      · exact Nat.le_refl _
    · rename_i hle
      rcases hold with hold | rfl
      · exact hold
      · exact Nat.le_of_not_lt hle

theorem act_knowsPastViews (ha : Act rules seat before input r H r' es H')
    (hseat : seat ∈ C.seats) (hi : Received C T input) (hd : Distinct (T ++ tag seat.node es))
    (hs : MidTurn C T seat r H) (hp : SentAccepted C T) (he : HandAccepted C H)
    (hm : QuitsReportVotes C T) (hb : KnowsPastViews C T seat r) (hh : ∀ s ∈ H, SyncCovers C T s) :
    QuitsReportVotes C (T ++ tag seat.node es) ∧ KnowsPastViews C (T ++ tag seat.node es) seat r' ∧
      ∀ s ∈ H', SyncCovers C (T ++ tag seat.node es) s := by
  have hsub := subset_tag T seat.node es
  have hkeep := fun s hs => (hh s hs).mono hsub
  -- Most acts show neither votes nor timeouts.
  have hmute : (∀ v, .publish (.vote v) ∉ es) → (∀ whom t, .send whom (.timeout t) ∉ es) →
      (∀ whom m, .send whom (.newView m) ∈ es → SyncCovers C T m.sync) →
      QuitsReportVotes C (T ++ tag seat.node es) ∧ ∀ r, KnowsPastViews C T seat r →
        KnowsPastViews C (T ++ tag seat.node es) seat r :=
    fun hv hq hn => ⟨hm.emit hv hq hn, fun r hb =>
      hb.frame hsub (fun w h => voted_tag hv) fun w q => quit_tag hq⟩
  cases ha with
  | quiet signatures kept idle =>
    obtain ⟨hm', hb'⟩ := hmute (fun v hmem => idle _ hmem) (fun whom t hmem => (idle _ hmem).elim)
      fun whom m hmem => (idle _ hmem).elim
    exact ⟨hm', { hb' r hb with }, hkeep⟩
  | tear held timed voted newer void =>
    -- No certificate that is sent is ever refused.
    have hvalid := validQc_of_genuine (hd.anti hsub) hs.sound.stored hseat
      (hs.vouched _ held _ voted) (he _ held _ voted)
    exact absurd hvalid void
  | adopt held certified past valid =>
    obtain ⟨hm', hb'⟩ := hmute (by simp) (by simp) (by simp)
    exact ⟨hm', hb' _ (hb.take (hh _ held)), hkeep⟩
  | climb held certified ahead valid =>
    obtain ⟨hm', hb'⟩ := hmute (by simp) (by simp) (by simp)
    exact ⟨hm', hb' _ (hb.climb (hh _ held) certified), hkeep⟩
  | greet leader started =>
    obtain ⟨hm', hb'⟩ := hmute (by simp) (by simp) fun whom m hmem => by
      cases List.mem_singleton.mp hmem
      exact hb.syncCovers
    exact ⟨hm', hb' r hb, hkeep⟩
  | commit =>
    obtain ⟨hm', hb'⟩ := hmute
      (fun v hmem => by obtain ⟨x, hx⟩ := mem_settlement hmem; cases hx)
      (fun whom t hmem => by obtain ⟨x, hx⟩ := mem_settlement hmem; cases hx)
      fun whom m hmem => by obtain ⟨x, hx⟩ := mem_settlement hmem; cases hx
    exact ⟨hm', { hb' r hb with }, hkeep⟩
  | vote offered ancestry first allowed covered informed mail =>
    subst offered
    obtain ⟨hm', hb'⟩ := vote_knowsPastViews hi hm hb _ first (fun q hq =>
      informed q hq (accepted_received hp hi (Option.mem_toList.mpr hq) seat hseat)) mail
    exact ⟨hm', hb', hkeep⟩
  | collectVote offered known signed =>
    obtain ⟨hm', hb'⟩ := hmute (by simp) (by simp) (by simp)
    refine ⟨hm', { hb' r hb with }, fun s hs => ?_⟩
    rcases List.mem_append.mp hs with hs | hs
    · exact hkeep s hs
    · obtain ⟨q, rfl, -⟩ := mem_voteCertificate hs
      exact nofun
  | collectTimeout offered =>
    subst offered
    obtain ⟨hm', hb'⟩ := hmute (by simp) (by simp) (by simp)
    obtain ⟨hr, hh'⟩ := collectTimeout_knowsPastViews hseat hi hb hh
    exact ⟨hm', hb' _ hr, fun s hs => (hh' s hs).mono hsub⟩
  | giveUp started =>
    obtain ⟨hm', hb'⟩ := giveUp_knowsPastViews hm hb _ _
    exact ⟨hm', hb', hkeep⟩
  | _ =>
    obtain ⟨hm', hb'⟩ := hmute (by simp) (by simp) (by simp)
    exact ⟨hm', { hb' r hb with }, hkeep⟩

theorem syncCovers_hand (hm : QuitsReportVotes C T) (hi : Received C T input) :
    ∀ s ∈ input.hand, SyncCovers C T s := by
  intro s hs
  cases input with
  | start =>
    rw [List.mem_singleton.mp hs]
    exact nofun
  | tick => cases hs
  | message origin m =>
    cases m with
    | propose p =>
      rw [List.mem_singleton.mp hs]
      exact nofun
    | vote v => cases hs
    | timeout m =>
      rw [List.mem_singleton.mp hs]
      exact nofun
    | newView m =>
      obtain ⟨-, t, -, -, whom, hsent⟩ := hi
      rw [List.mem_singleton.mp hs]
      exact hm.relays _ _ _ hsent

theorem reachable_knowsPastViews (hk : Keyed C) (hw : Reachable rules C W) (hd : Distinct W.trace) :
    QuitsReportVotes C W.trace ∧
      ∀ seat ∈ C.seats, KnowsPastViews C W.trace seat (W.replica seat.node) := by
  obtain ⟨⟨-, hm⟩, hi⟩ := @reachable_invariant C W rules
    (fun T => SentAccepted C T ∧ QuitsReportVotes C T)
    (fun T seat r => Authentic C seat r ∧ KnowsPastViews C T seat r)
    (fun T H => HandAccepted C H ∧ ∀ s ∈ H, SyncCovers C T s)
    ⟨fun _ _ _ h => absurd h List.not_mem_nil, .initial⟩
    (fun seat => ⟨.initial seat, .initial seat⟩)
    (fun T seat r n es hn h => ⟨h.1, h.2.frame (subset_tag T n es)
      (fun w h hv => hv.imp fun _ => mem_tag_of_ne hn) fun w q => quit_tag_of_ne hn⟩)
    (fun T input hp hi => ⟨handAccepted_hand hp.1 hi, syncCovers_hand hp.2 hi⟩)
    (fun T T₀ seat before input r H r' es H' ha hseat hi hd hs hb hp hr hj => by
      obtain ⟨hp', hr', hj'⟩ := act_authentic hk hseat ha hi hb.1.truthful hp.1 hr.1 hj.1
      obtain ⟨hm', hb', hh'⟩ := act_knowsPastViews ha hseat hi hd hs hp.1 hj.1 hp.2 hr.2 hj.2
      exact ⟨⟨hp', hm'⟩, ⟨hr', hb'⟩, hj', hh'⟩) hw hd
  exact ⟨hm, fun seat hseat => (hi seat hseat).2⟩

/-- Past the view of a block that a quorum votes for, be it later, an instance knows a certificate
no older than that of the block. -/
theorem informed_of_elected (ho : Overlap C) (hk : Keyed C) (hw : Reachable rules C W)
    (hw' : Reachable rules C W') (ht : W.trace ⊆ W'.trace) (hd : Distinct W'.trace)
    (hseat : seat ∈ C.seats) (hb : Known W'.trace b) (he : Elected C W'.trace b.view b.hash)
    (hq : b.justify = some q) (hlt : b.view < (W.replica seat.node).view) :
    q.view ≤ (W.replica seat.node).highQc.view := by
  obtain ⟨hl, -⟩ := reachable_sound hw' hd
  obtain ⟨hm, -⟩ := reachable_knowsPastViews hk hw' hd
  obtain ⟨-, hbriefed⟩ := reachable_knowsPastViews hk hw (hd.anti ht)
  have hle : q.view ≤ b.view := by
    rcases known_cases hl hb with rfl | ⟨q', hj, -, -, -, hn⟩
    · cases hq
    · rw [Option.some.inj (hq.symm.trans hj)]
      exact Nat.le_trans (View.le_next _) hn
  rcases (hbriefed seat hseat).entered with hz | hn | ⟨v, hv, ha⟩
  · rw [hz] at hlt
    exact absurd hlt (Nat.not_lt_zero _)
  · exact Nat.le_trans hle (View.le_of_lt_next (Nat.lt_of_lt_of_le hlt hn))
  · -- A node voted for the block and gave up on the view `v`, which is no earlier.
    obtain ⟨t, -, hvoted, p, hquit, hp⟩ := ho.common he ha
    obtain ⟨c, hc, hch, hcq⟩ :=
      hm.heeds t.node b.view b.hash v p hvoted (hquit.mono ht) (View.le_of_lt_next (hv ▸ hlt))
    obtain rfl := hd c b hc hb hch
    exact Nat.le_trans (hcq q hq) hp

def voted? : Event → Option Vote
  | .vote v => some v
  | _ => none

def QuorumVotes {p : Protocol} (n : Nat) (runs : List (Run p)) (b : Block) : Prop :=
  ∃ voters : List ReplicaId, voters.Nodup ∧ quorumSize n ≤ voters.length ∧
    ∀ r ∈ voters, ∃ run ∈ runs, ∃ i ∈ run.instances,
      i.seat.replica = r ∧ ∃ v ∈ i.unread.filterMap voted?, v.block = b.hash

section Runs

variable {scheme : Scheme} {s : Scenario} {config : RunConfig} (hv : config.validate s = .ok ())

theorem cluster_keyed (hown : ∀ r h, scheme.verify r h (scheme.sign r h) = true) :
    Keyed (cluster scheme s config hv) where
  alike t ht u hu := by
    obtain ⟨x, -, rfl⟩ := List.mem_map.mp ht
    obtain ⟨y, -, rfl⟩ := List.mem_map.mp hu
    rfl
  quorum t ht := by
    obtain ⟨x, -, rfl⟩ := List.mem_map.mp ht
    rfl
  own t ht h := by
    obtain ⟨x, hx, rfl⟩ := List.mem_map.mp ht
    exact Bool.and_eq_true_iff.mpr
      ⟨List.contains_iff_mem.mpr (replica_mem_replicas hx), hown x.2 h⟩

theorem elected_of_quorumVotes {runs : List (Run rules.protocol)}
    (hshown : Shown (cluster scheme s config hv) rules runs T)
    (hl : AllWarranted (cluster scheme s config hv) T) (hd : Distinct T) (hb : Known T b)
    (he : QuorumVotes config.replicas runs b) :
    Elected (cluster scheme s config hv) T b.view b.hash := by
  obtain ⟨voters, hn, hlen, hvoters⟩ := he
  have hvoted : ∀ r ∈ voters, ∃ t ∈ (cluster scheme s config hv).seats, t.replica = r ∧
      Voted T t.node b.view b.hash := by
    intro r hr
    obtain ⟨run, hrun, i, hi, hrep, v, hvote, hblock⟩ := hvoters r hr
    obtain ⟨W, hm, hsub⟩ := hshown run hrun
    obtain ⟨e, hevent, hve⟩ := List.mem_filterMap.mp hvote
    cases e with
    | vote v' =>
      obtain rfl := Option.some.inj hve
      have hmem := hsub (hm.published i hi _ hevent)
      obtain ⟨p, p', hp, c, hc, hch, hcv, -⟩ := hl.warranted hmem
      have hc : Known T c := hc.mono (hp ▸ List.subset_append_left p _)
      obtain rfl := hd c b hc hb (hch.symm.trans hblock)
      rw [← hcv, ← hblock]
      exact ⟨i.seat, hm.mem_seats hi, hrep, v'.signature, hmem⟩
    | _ => cases hve
  refine ⟨voters, hn, fun r hr => ?_, ?_, hvoted⟩
  · obtain ⟨t, ht, rfl, -⟩ := hvoted r hr
    obtain ⟨x, hx, rfl⟩ := List.mem_map.mp ht
    exact replica_mem_replicas hx
  · change quorumSize (replicas config.replicas).length ≤ voters.length
    rw [length_replicas]
    exact hlen

end Runs

/-- View changes keep certificates: if a quorum votes for a block in a run with at most a third of
the replicas run as twins, every instance in a later view than that of the block, at any time, knows
a certificate no older than the one in the block. -/
theorem view_change_keeps_certificate (scheme : Scheme) (s : Scenario) (config : RunConfig)
    (hv : config.validate s = .ok ()) (hi : config.injection = none)
    (ht : config.twins ≤ (config.replicas - 1) / 3)
    (hown : ∀ r h, scheme.verify r h (scheme.sign r h) = true)
    (hd : ∀ run ∈ states scheme s config rules.protocol, Distinguished run) :
    ∀ run ∈ states scheme s config rules.protocol, ∀ b ∈ built run,
      QuorumVotes config.replicas (states scheme s config rules.protocol) b →
        ∀ q, b.justify = some q → ∀ run' ∈ states scheme s config rules.protocol,
          ∀ i ∈ run'.instances, b.view < Replica.view i.state →
            q.view ≤ (Replica.highQc i.state).view := by
  obtain ⟨W, hw, hdist, hshown⟩ := states_shown scheme s config hv hi hd
  obtain ⟨hl, -⟩ := reachable_sound hw hdist
  intro run hr b hb he q hq run' hr' i hmem hlt
  obtain ⟨V, hm, hsub⟩ := hshown run hr
  have hknown : Known W.trace b := ((known_iff_built hm).mpr hb).mono hsub
  have helected := elected_of_quorumVotes hv hshown hl hdist hknown he
  obtain ⟨V', hm', hsub'⟩ := hshown run' hr'
  rw [hm'.states i hmem] at hlt ⊢
  exact informed_of_elected (cluster_overlap hv ht) (cluster_keyed hv hown) hm'.reachable hw hsub'
    hdist (hm'.mem_seats hmem) hknown helected hq hlt

/-- The block of view 2 and its certificate of view 1. -/
theorem view_change_keeps_certificate_openRun :
    ∃ run ∈ openStates, ∃ b ∈ built run, QuorumVotes 4 openStates b ∧
      ∃ q, b.justify = some q ∧ q.view ≠ .zero ∧ ∃ run' ∈ openStates, ∃ i ∈ run'.instances,
        b.view < Replica.view i.state ∧ q.view ≤ (Replica.highQc i.state).view := by
  have h : ∃ run ∈ openStates, ∃ b ∈ built run,
      (∀ r ∈ [2, 3, 4].map ReplicaId.ofNat, ∃ run ∈ openStates, ∃ i ∈ run.instances,
        i.seat.replica = r ∧ ∃ v ∈ i.unread.filterMap voted?, v.block = b.hash) ∧
      ∃ q ∈ b.justify, q.view ≠ .zero ∧ ∃ run' ∈ openStates, ∃ i ∈ run'.instances,
        b.view < Replica.view i.state := by
    decide +kernel
  obtain ⟨run, hr, b, hb, hvotes, q, hq, hz, run', hr', i, hi, hlt⟩ := h
  have he : QuorumVotes 4 openStates b := ⟨_, by decide, by decide, hvotes⟩
  have hle := view_change_keeps_certificate plainScheme openScenario (fourReplicas .simple 7)
    (open_valid .simple) rfl (by decide) (by simp [plainScheme]) openStates_distinguished run hr b
    hb he q hq run' hr' i hi hlt
  exact ⟨run, hr, b, hb, he, q, hq, hz, run', hr', i, hi, hlt, hle⟩

end Equivocation.Proofs.ViewChange
