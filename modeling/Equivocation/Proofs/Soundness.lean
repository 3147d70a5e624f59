import Equivocation.Proofs.Ballots
import Equivocation.Proofs.Locking
import Equivocation.Proofs.Lives

namespace Equivocation.Proofs.Soundness

open Relation History Locking Ancestry Ballots Turns Lives Replica

/-- A signature under a vote that its signer cast on one of its nodes. -/
def SignsVote (C : Cluster) (T : Trace) (x : View × Hash) (s : Signature) : Prop :=
  ∃ t ∈ C.seats, t.replica = s.signer ∧ Voted T t.node x.1 x.2

structure Sound (C : Cluster) (T : Trace) (seat : Seat) (r : Replica) : Prop where
  stored : ∀ b ∈ r.chain.blocks, Known T b
  high : Genuine C T r.highQc
  past : r.highQc.view = .zero ∨ r.highQc.view.next ≤ r.view
  votes : ∀ x ∈ r.votes, Polled (electorate seat) (SignsVote C T x.1) x.2
  timeouts : ∀ x ∈ r.timeouts, Genuine C T x.2.2
  lock : ∃ l, r.chain.get? r.safety.locked = some l ∧ Inner T l ∧
    ∀ w h, Voted T seat.node w h → Covered T h l.view
  last : ∀ w h, Voted T seat.node w h → w ≤ r.safety.lastVote

def HandGenuine (C : Cluster) (T : Trace) (H : List SyncInfo) : Prop :=
  ∀ s ∈ H, ∀ q, s.qc = some q → Genuine C T q

/-- A message that is received has been sent by an instance of the replica it comes from, and is not
an impossible one. -/
def Received (C : Cluster) (T : Trace) : Input → Prop
  | .message origin m =>
    m.impossibility? origin = none ∧
      ∃ t ∈ C.seats, t.replica = origin ∧ ∃ whom, (t.node, .send whom m) ∈ T
  | _ => True

variable {C : Cluster} {T T' : Trace} {rules : Rules} {seat : Seat} {input : Input}
  {r r' : Replica} {H H' : List SyncInfo} {es : List Effect} {a b p one two : Block} {n : NodeId}
  {h : Hash} {w : View}

theorem SignsVote.mono {x : View × Hash} {s : Signature} (ht : T ⊆ T') (hb : SignsVote C T x s) :
    SignsVote C T' x s :=
  hb.imp fun _ ⟨hs, he, hv⟩ => ⟨hs, he, hv.mono ht⟩

theorem quorum_of_polled {P : Seat → Prop} {ss : List Signature} (hseat : seat ∈ C.seats)
    (hp : Polled (electorate seat) (fun s => ∃ t ∈ C.seats, t.replica = s.signer ∧ P t) ss)
    (hq : (electorate seat).quorum ≤ ss.length) : Quorum C P := by
  refine ⟨ss.map (·.signer), hp.1, fun x hx => ?_, ?_, fun x hx => ?_⟩
  · obtain ⟨s, hm, rfl⟩ := List.mem_map.mp hx
    rw [← C.knows seat hseat]
    exact (hp.2 s hm).1
  · rw [List.length_map, ← C.knows seat hseat]
    exact hq
  · obtain ⟨s, hm, rfl⟩ := List.mem_map.mp hx
    exact (hp.2 s hm).2

theorem HandGenuine.mono (ht : T ⊆ T') (hh : HandGenuine C T H) : HandGenuine C T' H :=
  fun s hs q hq => (hh s hs q hq).mono ht

theorem Received.mono (ht : T ⊆ T') (hi : Received C T input) : Received C T' input := by
  cases input with
  | message origin m =>
    obtain ⟨hm, t, hs, he, whom, hw⟩ := hi
    exact ⟨hm, t, hs, he, whom, ht hw⟩
  | start => trivial
  | tick => trivial

/-- Nothing but its own votes can make an instance unsound. -/
theorem Sound.frame (ht : T ⊆ T') (hv : ∀ w h, Voted T' seat.node w h → Voted T seat.node w h)
    (hs : Sound C T seat r) : Sound C T' seat r where
  stored b hb := (hs.stored b hb).mono ht
  high := hs.high.mono ht
  past := hs.past
  votes x hx := ⟨(hs.votes x hx).1, fun s hm =>
    ⟨((hs.votes x hx).2 s hm).1, ((hs.votes x hx).2 s hm).2.mono ht⟩⟩
  timeouts x hx := (hs.timeouts x hx).mono ht
  lock := by
    obtain ⟨l, hl, hc, hcov⟩ := hs.lock
    exact ⟨l, hl, hc.mono ht, fun w h hw => (hcov w h (hv w h hw)).mono ht⟩
  last w h hw := hs.last w h (hv w h hw)

theorem initial (seat : Seat) : Sound C [] seat {} where
  stored b hb := .inl (List.mem_singleton.mp hb)
  high := genuine_genesis
  past := .inl rfl
  votes x hx := absurd hx List.not_mem_nil
  timeouts x hx := absurd hx List.not_mem_nil
  lock := by
    refine ⟨.genesis, ?_, .inl rfl, fun w h ⟨s, hs⟩ => absurd hs List.not_mem_nil⟩
    exact List.find?_cons_of_pos (decide_eq_true rfl)
  last w h hw := by
    obtain ⟨s, hs⟩ := hw
    exact absurd hs List.not_mem_nil

section Chains

variable {c : Chain} (hl : AllWarranted C T) (hd : Distinct T) (hs : ∀ b ∈ c.blocks, Known T b)
include hl hs

theorem link_of_up (hb : Known T b) (hp : Up c b p) : Link T b p := by
  rcases known_cases hl hb with rfl | ⟨q, hj, he, -⟩
  · exact absurd rfl hp.1
  · have hh := hash_of_get? hp.2
    exact ⟨hs p (mem_of_get? hp.2), hh.symm, q, hj, by rw [hh, he]⟩

theorem link_of_justified? (hb : Known T b) (hp : c.justified? b = some p) : Link T b p := by
  obtain ⟨q, hj, hq⟩ := Option.bind_eq_some_iff.mp hp
  have hh := hash_of_get? hq
  rcases known_cases hl hb with rfl | ⟨q', hj', he, -⟩
  · cases hj
  · obtain rfl := Option.some.inj (hj.symm.trans hj')
    exact ⟨hs p (mem_of_get? hq), he.trans hh.symm, q, hj, hh.symm⟩

omit hs in
theorem justified?_of_up (hb : Known T b) (hp : Up c b p) : c.justified? b = some p := by
  rcases known_cases hl hb with rfl | ⟨q, hj, he, -⟩
  · exact absurd rfl hp.1
  · rw [Chain.justified?, hj, Option.bind_some, ← he]
    exact hp.2

theorem descends_of_path (hb : Known T b) (hp : ReflTransGen (Up c) b a) :
    Known T a ∧ Descends T b a := by
  induction hp with
  | refl => exact ⟨hb, .refl⟩
  | tail _ hp ih =>
    have hlink := link_of_up hl hs ih.1 hp
    exact ⟨hlink.1, ih.2.tail hlink⟩

include hd

theorem path_of_hasAncestry (hb : Known T b) (ha : c.hasAncestry b = true) :
    ReflTransGen (Up c) b .genesis ∧ Descends T b .genesis := by
  obtain ⟨root, hp, hh⟩ := hasAncestry_path ha
  obtain ⟨hk, hr⟩ := descends_of_path hl hs hb hp
  obtain rfl := hd root .genesis hk known_genesis hh
  exact ⟨hp, hr⟩

theorem descends_of_reaches (hb : Known T b) (hr : c.reaches b h = true) :
    ∃ l, c.get? h = some l ∧ Descends T b l := by
  obtain ⟨l, x, hg, hp, hx⟩ := reaches_path hr
  obtain ⟨hk, hp⟩ := descends_of_path hl hs hb hp
  obtain rfl := hd x l hk (hs l (mem_of_get? hg)) (hx.trans (hash_of_get? hg).symm)
  exact ⟨x, hg, hp⟩

/-- With the lock taken first, a vote for a block with known ancestry is covered by the lock. -/
theorem covered_of_relocked (hb : Known T b) (hz : b ≠ .genesis)
    (ha : c.hasAncestry b = true)
    (hw : ∀ one two, c.justified? b = some one → c.justified? one = some two → two.view ≤ w) :
    Covered T b.hash w := by
  obtain ⟨hp, -⟩ := path_of_hasAncestry hl hd hs hb ha
  rcases ReflTransGen.cases_head hp with rfl | ⟨one, h₁, hp⟩
  · exact absurd rfl hz
  · have hlink := link_of_up hl hs hb h₁
    refine ⟨b, one, hb, rfl, hlink, fun q hq => ?_⟩
    rcases ReflTransGen.cases_head hp with rfl | ⟨two, h₂, -⟩
    · cases hq
    · have hlink' := link_of_up hl hs hlink.1 h₂
      rw [(link_spec hl hd hlink.1 hlink').2.2 q hq]
      exact hw one two (justified?_of_up hl hb h₁) (justified?_of_up hl hlink.1 h₂)

end Chains

structure MidTurn (C : Cluster) (T : Trace) (seat : Seat) (r : Replica) (H : List SyncInfo) :
    Prop where
  lawful : AllWarranted C T
  sound : Sound C T seat r
  vouched : HandGenuine C T H

theorem tag_nil (n : NodeId) : T ++ tag n [] = T := List.append_nil T

theorem append_tag (n : NodeId) (fs es : List Effect) :
    T ++ tag n (fs ++ es) = T ++ tag n fs ++ tag n es := by
  simp [tag]

theorem subset_tag (T : Trace) (n : NodeId) (es : List Effect) : T ⊆ T ++ tag n es :=
  List.subset_append_left _ _

theorem mem_tag {m : NodeId} {e : Effect} (hm : (m, e) ∈ T ++ tag n es) :
    (m, e) ∈ T ∨ m = n ∧ e ∈ es := by
  rcases List.mem_append.mp hm with hm | hm
  · exact .inl hm
  · obtain ⟨f, hf, he⟩ := List.mem_map.mp hm
    cases he
    exact .inr ⟨rfl, hf⟩

theorem mem_tag_of_ne {m : NodeId} {e : Effect} (hn : m ≠ n) (hm : (m, e) ∈ T ++ tag n es) :
    (m, e) ∈ T :=
  (mem_tag hm).resolve_right fun h => hn h.1

theorem voted_signsVote {m : NodeId} {v : Vote}
    (mail : ∀ e ∈ es, Idle e ∨ ∃ leader, e = .send (.replica leader) (.vote v))
    (hv : Voted (T ++ tag n (.publish (.vote v) :: es)) m w h) :
    Voted T m w h ∨ w = v.view ∧ h = v.block := by
  obtain ⟨s, hm⟩ := hv
  rcases mem_tag hm with hm | ⟨-, hm⟩
  · exact .inl ⟨s, hm⟩
  · cases vote_of_ballot mail hm
    exact .inr ⟨rfl, rfl⟩

theorem voted_tag {m : NodeId} (hq : ∀ v, .publish (.vote v) ∉ es)
    (hv : Voted (T ++ tag n es) m w h) : Voted T m w h := by
  obtain ⟨s, hm⟩ := hv
  rcases mem_tag hm with hm | ⟨-, hm⟩
  · exact ⟨s, hm⟩
  · exact absurd hm (hq _)

/-- Effects other than votes only have to be warranted. -/
theorem MidTurn.emit (hs : MidTurn C T seat r H) (hq : ∀ v, .publish (.vote v) ∉ es)
    (hw : ∀ fs e gs, es = fs ++ e :: gs → Warranted C (T ++ tag seat.node fs) seat.node e) :
    MidTurn C (T ++ tag seat.node es) seat r H where
  lawful := hs.lawful.extend hw
  sound := hs.sound.frame (subset_tag T _ es) fun _ _ => voted_tag hq
  vouched := hs.vouched.mono (subset_tag T _ es)

theorem MidTurn.emit_one {e : Effect} (hs : MidTurn C T seat r H) (hq : ∀ v, e ≠ .publish (.vote v))
    (hw : Warranted C T seat.node e) : MidTurn C (T ++ tag seat.node [e]) seat r H := by
  refine hs.emit (fun v hv => hq v (List.mem_singleton.mp hv).symm) fun fs f gs he => ?_
  obtain ⟨rfl, he⟩ | ⟨fs', rfl, he⟩ := List.cons_eq_append_iff.mp he
  · cases he
    rw [tag_nil]
    exact hw
  · simp at he

theorem MidTurn.send {whom : Recipients} {m : Message} (hs : MidTurn C T seat r H)
    (hw : Warranted C T seat.node (.send whom m)) :
    MidTurn C (T ++ tag seat.node [.send whom m]) seat r H := hs.emit_one (by simp) hw

theorem warranted_of_idle {e : Effect} (he : Idle e) : Warranted C T n e := by
  match e with
  | .remark _ => trivial
  | .send _ _ => exact he.elim
  | .publish (.vote _) => exact he.elim
  | .publish (.commitBlock _ _) => exact he.elim
  | .publish (.insertBlock _) => trivial
  | .publish (.propose _) => trivial
  | .publish (.newView _ _) => trivial
  | .publish (.timeout _) => trivial
  | .publish (.receiveProposal _ _) => trivial
  | .publish (.receiveVote _ _) => trivial
  | .publish (.startView _ _) => trivial
  | .publish (.collectQc _) => exact he.elim
  | .publish (.collectTc _) => trivial

theorem Sound.insert (hs : Sound C T seat r) (hb : Known T b) :
    Sound C T seat { r with chain := r.chain.insert b } :=
  { hs with
    stored := fun x hx => by
      rcases mem_insert hx with rfl | hx
      · exact hb
      · exact hs.stored x hx
    lock := by
      obtain ⟨l, hg, hl⟩ := hs.lock
      exact ⟨l, get?_insert hg, hl⟩ }

theorem warranted_proposal (hs : Sound C T seat r) (hz : r.view ≠ .zero) {whom : Recipients} :
    Warranted C T n (.send whom (.propose ⟨nextBlock seat r⟩)) :=
  ⟨r.highQc, rfl, rfl, hz, hs.high, next_le_of_past hs.past hz⟩

theorem inner_of_recertified {c : Chain} (hl : AllWarranted C T) (hs : ∀ b ∈ c.blocks, Known T b)
    (hb : Known T b) (h₁ : c.justified? b = some one) (h₂ : c.justified? one = some two) :
    Inner T two :=
  have hlink := link_of_justified? hl hs hb h₁
  .inr ⟨one, hlink.1, link_of_justified? hl hs hlink.1 h₂⟩

theorem Received.known {origin : ReplicaId} (hi : Received C T (.message origin (.propose ⟨b⟩))) :
    Known T b := by
  obtain ⟨-, t, -, -, whom, hm⟩ := hi
  exact .inr ⟨t.node, whom, hm⟩

theorem Sound.relock (hs : Sound C T seat r) (hc : Inner T two)
    (hg : r.chain.get? two.hash = some two) (hv : r.safety.lockedView r.chain < two.view) :
    Sound C T seat { r with safety := { r.safety with locked := two.hash } } :=
  { hs with
    lock := by
      obtain ⟨l, hl, -, hcov⟩ := hs.lock
      rw [lockedView_of_stored hl] at hv
      refine ⟨two, hg, hc, fun w h hw => ?_⟩
      obtain ⟨b, p, hb, he, hp, hle⟩ := hcov w h hw
      exact ⟨b, p, hb, he, hp, fun q hq => Nat.le_trans (hle q hq) (Nat.le_of_lt hv)⟩ }

end Equivocation.Proofs.Soundness
