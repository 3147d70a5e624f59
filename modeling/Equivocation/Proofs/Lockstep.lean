import Equivocation.Proofs.Authenticity
import Equivocation.Proofs.Backbone
import Equivocation.Proofs.Conduct
import Equivocation.Proofs.Provenance

namespace Equivocation.Proofs.Lockstep

open Ballots Validity Adoption Turns Lives Commits Authenticity Conduct Provenance Backbone Replica

/-- What an instance has made of a line of blocks once it has voted for the newest of them. The
certificate it holds is of the view before its own. -/
structure VotedUpTo (bs : List Block) (ticks : Nat) (r : Replica) : Prop where
  voted : r.safety = ⟨(back 2 bs).hash, (back 0 bs).view⟩
  executed : r.executed = (back 3 bs).hash
  committed : r.committed = (bs.drop 3).dropLast.reverse.map (·.hash)
  untimed : r.highTc = none
  proposed : r.lastProposed ≤ r.view
  informed : r.highQc.view.toNat + 1 = r.view.toNat
  counted : ∀ x ∈ r.votes, x.1.1 < r.view
  patient : r.viewTicks ≤ ticks

structure Resting (bs : List Block) (ticks : Nat) (r : Replica) : Prop
    extends VotedUpTo bs ticks r where
  chain : r.chain = ⟨bs⟩
  view : r.view = (back 0 bs).view

/-- In the view of the next block, with the certificate that comes with it. The leader has stored
the block already. -/
structure Awaiting (bs : List Block) (b : Block) (ticks : Nat) (r : Replica) : Prop
    extends VotedUpTo bs ticks r where
  chain : r.chain = ⟨bs⟩ ∨ r.chain = Chain.insert ⟨bs⟩ b
  view : r.view = b.view
  high : b.justify = some r.highQc

structure Certifies (seat : Seat) (bs : List Block) (q : QuorumCertificate) : Prop where
  attested : Attested seat.policy q
  block : ∃ p ∈ bs, q.block = p.hash ∧ q.view = p.view

def ballot (seat : Seat) (b : Block) : Vote := ⟨b.view, b.hash, seat.policy.keys.sign b.hash⟩

def balloting (seat : Seat) (b : Block) : Post :=
  (seat.leader b.view.next).toList.map fun l => (seat.replica, .replica l, .vote (ballot seat b))

def greeting (seat : Seat) (leader : ReplicaId) (v : View) (q : QuorumCertificate) :
    ReplicaId × Recipients × Message :=
  (seat.replica, .replica leader, .newView ⟨v, { qc := some q }⟩)

def offering (b : Block) : ReplicaId × Recipients × Message :=
  (b.proposer, .all, .propose ⟨b⟩)

variable {rules : Rules} {seat : Seat} {bs : List Block} {b p : Block} {k : Nat} {r : Replica}
  {t : Turn Replica} {q : QuorumCertificate} {origin : ReplicaId} {es : List Effect}

section Posts

@[simp] theorem posts_nil (origin : ReplicaId) : posts origin [] = [] := rfl

@[simp] theorem posts_publish (e : Event) : posts origin (.publish e :: es) = posts origin es := rfl

@[simp] theorem posts_remark (m : LogRecord) : posts origin (.remark m :: es) = posts origin es :=
  rfl

@[simp] theorem posts_send (whom : Recipients) (m : Message) :
    posts origin (.send whom m :: es) = (origin, whom, m) :: posts origin es := rfl

theorem posts_of_silent (h : ∀ e ∈ es, ∀ whom m, e ≠ .send whom m) : posts origin es = [] := by
  refine List.filterMap_eq_nil_iff.mpr fun e he => ?_
  cases e with
  | send whom m => exact absurd rfl (h _ he whom m)
  | _ => rfl

theorem posts_remarks (ms : List LogRecord) : posts origin (ms.map .remark) = [] :=
  posts_of_silent (by simp)

theorem posts_insertion (c : Chain) (b : Block) : posts origin (insertion c b) = [] := by
  unfold insertion
  split <;> rfl

theorem posts_settlement (bs : List Block) : posts origin (settlement bs) = [] :=
  posts_of_silent fun e he whom m h => by
    obtain ⟨x, rfl⟩ := mem_settlement he
    cases h

end Posts

theorem Certifies.valid (hq : Certifies seat bs q) (hs : Stores r.chain bs) :
    ValidQc seat.policy r.chain q := by
  obtain ⟨p, hp, hb, hv⟩ := hq.block
  refine ⟨hq.attested, fun x hx => ?_⟩
  rw [hb, hs p hp] at hx
  rw [← Option.some.inj hx, hv]

theorem Certifies.grow (h : Certifies seat bs q) : Certifies seat (b :: bs) q where
  attested := h.attested
  block := have ⟨x, hx, hb⟩ := h.block
    ⟨x, List.mem_cons_of_mem _ hx, hb⟩

theorem Resting.stores (h : Resting bs k r) (ha : NoCollision bs) : Stores r.chain bs := by
  rw [h.chain]
  exact ha.stores

theorem Awaiting.stores (h : Awaiting bs b k r) (ha : NoCollision bs) : Stores r.chain bs := by
  obtain hc | hc := h.chain
  · rw [hc]
    exact ha.stores
  · rw [hc]
    exact ha.stores.insert b

theorem Resting.enter {v : View} (h : Resting bs k r) (hq : q.view = r.view) (hv : q.view.next = v)
    (hlt : q.view < v) (signatures : SignatureCache) :
    VotedUpTo bs 0 (entered v { r with signatures, highQc := q }) := by
  have hrv : r.view < v := hq ▸ hlt
  exact { h.toVotedUpTo with
    proposed := Nat.le_trans h.proposed (Nat.le_of_lt hrv)
    informed := (View.toNat_of_next_eq hlt hv).symm
    counted := fun x hx => Nat.lt_trans (h.counted x (List.mem_filter.mp hx).1) hrv
    patient := Nat.le_refl 0 }

theorem VotedUpTo.propose (h : VotedUpTo bs k r) (c : Chain) :
    VotedUpTo bs k { r with lastProposed := r.view, chain := c } :=
  { h with proposed := Nat.le_refl _ }

theorem Resting.mono {j : Nat} (h : Resting bs k r) (hk : k ≤ j) : Resting bs j r :=
  { h with patient := Nat.le_trans h.patient hk }

theorem Awaiting.mono {j : Nat} (h : Awaiting bs b k r) (hk : k ≤ j) : Awaiting bs b j r :=
  { h with patient := Nat.le_trans h.patient hk }

section Advances

theorem advance_valid (hq : ValidQc seat.policy t.state.chain q) :
    ∃ signatures, advance seat { qc := some q } t =
      enterCertified seat { qc := some q }
        (t.modify fun r => { r with signatures, highQc := takeQc r.highQc (some q) }) := by
  have hspec := advance_spec seat { qc := some q } t
  generalize advance seat { qc := some q } t = t' at hspec
  cases hspec with
  | refused signatures kept timed void => cases timed
  | torn signatures kept voted void valid =>
    obtain rfl := Option.some.inj voted
    exact absurd hq void
  | taken signatures kept valid => exact ⟨signatures, rfl⟩

theorem advance_past (hq : ValidQc seat.policy t.state.chain q) (hv : q.view < t.state.view)
    (hh : q.view ≤ t.state.highQc.view) :
    ∃ signatures, advance seat { qc := some q } t =
      { t with state := { t.state with signatures } } := by
  obtain ⟨signatures, he⟩ := advance_valid hq
  refine ⟨signatures, he.trans ?_⟩
  have hn : ¬ t.state.highQc.view < q.view := Nat.not_lt_of_le hh
  have hp : ¬ t.state.view ≤ q.view := Nat.not_le_of_lt hv
  unfold enterCertified takeQc Turn.modify
  dsimp only [SyncInfo.certifiedView?]
  rw [if_neg hn, if_neg hp]

theorem advance_enter (hq : ValidQc seat.policy t.state.chain q) (hv : t.state.view ≤ q.view)
    (hh : t.state.highQc.view < q.view) :
    ∃ signatures, advance seat { qc := some q } t =
      enterView seat q.view.next { t with state := { t.state with signatures, highQc := q } } := by
  obtain ⟨signatures, he⟩ := advance_valid hq
  refine ⟨signatures, he.trans ?_⟩
  unfold enterCertified takeQc Turn.modify
  dsimp only [SyncInfo.certifiedView?]
  rw [if_pos hh, if_pos hv]

end Advances

section Entries

variable {v : View}

theorem enterView_leading (hl : seat.leader v = some seat.replica)
    (hf : t.state.lastProposed < v) :
    (enterView seat v t).state =
        { entered v t.state with
          lastProposed := v
          chain := t.state.chain.insert (nextBlock seat (entered v t.state)) } ∧
      posts seat.replica (enterView seat v t).effects =
        posts seat.replica t.effects ++ [offering (nextBlock seat (entered v t.state))] := by
  rw [enterView_eq, hl]
  dsimp only
  rw [if_pos rfl, propose_eq (t := arrival seat v t) hf]
  refine ⟨rfl, ?_⟩
  dsimp only
  rw [posts_append, posts_append, posts_append, posts_insertion]
  simp [arrival, posts_append]
  rfl

theorem enterView_following {leader : ReplicaId} (hl : seat.leader v = some leader)
    (hne : leader ≠ seat.replica) (ht : t.state.highTc = none) :
    (enterView seat v t).state = entered v t.state ∧
      posts seat.replica (enterView seat v t).effects =
        posts seat.replica t.effects ++ [greeting seat leader v t.state.highQc] := by
  have hsync : (entered v t.state).sync = { qc := some t.state.highQc } := by
    unfold sync entered
    rw [ht]
  rw [enterView_eq, hl]
  dsimp only
  rw [if_neg hne, hsync]
  refine ⟨rfl, ?_⟩
  dsimp only
  rw [posts_append]
  simp [arrival, posts_append, greeting]

end Entries

/-- With a certificate for the block that it has voted for, the next leader enters its view and
proposes. -/
theorem advance_leading (hd : NoCollision (b :: bs))
    (hr : Resting (b :: bs) k { t.state with votes := [] }) (ha : Attested seat.policy q)
    (hb : q.block = b.hash) (hv : q.view = b.view) (hlt : b.view < b.view.next)
    (hl : seat.leader b.view.next = some seat.replica) :
    ∃ b', Follows b' b ∧ b'.justify = some q ∧ b'.proposer = seat.replica ∧
      Awaiting (b :: bs) b' 0 { (advance seat { qc := some q } t).state with votes := [] } ∧
      (advance seat { qc := some q } t).state.votes =
        VoteCollector.pruneBelow (b.view.next.sub 1) t.state.votes ∧
      posts seat.replica (advance seat { qc := some q } t).effects =
        posts seat.replica t.effects ++ [offering b'] := by
  have hview : t.state.view = b.view := hr.view
  have hcert : Certifies seat (b :: bs) q := ⟨ha, b, List.mem_cons_self, hb, hv⟩
  have hhigh : t.state.highQc.view < q.view := by
    have hi : t.state.highQc.view.toNat + 1 = t.state.view.toNat := hr.informed
    rw [View.lt_def, hv, ← hview]
    omega
  obtain ⟨signatures, he⟩ := @advance_enter seat t q (hcert.valid (hr.stores hd))
    (Nat.le_of_eq (congrArg View.toNat (hview.trans hv.symm))) hhigh
  obtain ⟨hstate, hposts⟩ := @enterView_leading seat
    { t with state := { t.state with signatures, highQc := q } } b.view.next hl
    (Nat.lt_of_le_of_lt hr.proposed (hview ▸ hlt))
  rw [hv] at he
  rw [he, hstate, hposts]
  have henter := hr.enter (hv.trans hview.symm) (congrArg View.next hv) (hv ▸ hlt) signatures
  refine ⟨_, ⟨View.toNat_of_next_eq hlt rfl, hb, q, rfl, hb, hv⟩, rfl, rfl, ?_, rfl, rfl⟩
  exact { henter with
    proposed := Nat.le_refl _
    chain := .inr (by rw [← hr.chain])
    view := rfl
    high := rfl }

theorem receive_greeting {n : NewView} (hq : Certifies seat bs q) (hn : n.sync = { qc := some q })
    (hz : n.view ≠ .zero) (hs : Stores r.chain bs) (hv : q.view < r.view)
    (hr : r.highQc.view.toNat + 1 = r.view.toNat) :
    ∃ signatures,
      receive rules seat origin (.newView n) r = { state := { r with signatures } } := by
  have hle : q.view ≤ r.highQc.view := by
    rw [View.lt_def] at hv
    rw [View.le_def]
    omega
  have hp : (Message.newView n).impossibility? origin = none := if_neg hz
  obtain ⟨signatures, he⟩ := @advance_past seat { state := r } q (hq.valid hs) hv hle
  refine ⟨signatures, ?_⟩
  unfold receive
  rw [hp]
  dsimp only [announce]
  rw [hn, he]

section Judging

/-- If all blocks before the newest one are committed, then this is the one that is left. The
genesis block counts as committed. -/
theorem fresh_line (hl : Line (b :: bs)) (hs : Stores r.chain (b :: bs))
    (hc : bs.length ≤ r.chain.size) (he : r.executed = (back 0 bs).hash) :
    fresh r b = (b :: bs).dropLast.take 1 ∧ (fresh r b).length ≠ (r.chain.lineage b).length := by
  obtain ⟨more, hm⟩ := lineage_line hl hs.tail hc
  unfold fresh
  rw [← hm]
  match bs, hl with
  | [], .root =>
    have hv := executedView_of_stored (he ▸ hs _ List.mem_cons_self)
    have hn : ¬ r.executedView < Block.genesis.view := hv ▸ Nat.lt_irrefl _
    simp [hn]
  | p :: ps, hl =>
    have hv := executedView_of_stored (he ▸ hs p (List.mem_cons_of_mem _ List.mem_cons_self))
    have hb : r.executedView < b.view := hv ▸ hl.older List.mem_cons_self
    have hp : ¬ r.executedView < p.view := hv ▸ Nat.lt_irrefl _
    simp [hb, hp]

theorem commit_line (hl : Line (b :: bs)) (hs : Stores t.state.chain (b :: bs))
    (hc : bs.length ≤ t.state.chain.size) (he : t.state.executed = (back 0 bs).hash) :
    commit seat b.hash t =
      { t with
        state := settle ((b :: bs).dropLast.take 1) t.state
        effects := t.effects ++ settlement ((b :: bs).dropLast.take 1) } := by
  obtain ⟨hf, hn⟩ := fresh_line hl hs hc he
  unfold commit
  rw [hs b List.mem_cons_self]
  dsimp only
  rw [if_neg (show ¬ ((t.state.chain.lineage b).takeWhile
    fun x => t.state.executedView < x.view).length = _ from hn), ← hf, ← foldl_commitBlock]
  rfl

theorem settle_line (hl : Line (b :: bs)) (he : r.executed = (back 0 bs).hash)
    (hm : r.committed = bs.dropLast.reverse.map (·.hash)) :
    settle ((b :: bs).dropLast.take 1) r =
      { r with
        executed := b.hash
        committed := (b :: bs).dropLast.reverse.map (·.hash) } := by
  unfold settle
  rw [hm]
  match bs, hl with
  | [], .root => simpa [back] using he
  | p :: ps, hl => simp

theorem settled_line (hl : Line (b :: bs)) (hs : Stores t.state.chain (b :: bs))
    (hc : bs.length ≤ t.state.chain.size) (he : t.state.executed = (back 3 bs).hash)
    (hm : t.state.committed = (bs.drop 3).dropLast.reverse.map (·.hash)) :
    ∃ es, posts origin es = [] ∧
      (((b :: bs).drop 3).head?.map (·.hash)).elim t (commit seat · t) =
        { t with
          state :=
            { t.state with
              executed := (back 3 (b :: bs)).hash
              committed := ((b :: bs).drop 3).dropLast.reverse.map (·.hash) }
          effects := t.effects ++ es } := by
  have hrest : bs.drop 3 = ((b :: bs).drop 3).tail := by rw [List.tail_drop, List.drop_succ_cons]
  have hback : back 3 bs = back 0 ((b :: bs).drop 3).tail := by
    unfold back
    rw [hrest, List.drop_zero]
  rw [hback] at he
  rw [hrest] at hm
  cases hd : (b :: bs).drop 3 with
  | nil =>
    rw [hd] at he hm
    have he : (back 3 (b :: bs)).hash = t.state.executed := by
      rw [he]
      simp [back, hd]
    refine ⟨[], rfl, ?_⟩
    change t = { t with
      state := { t.state with executed := (back 3 (b :: bs)).hash, committed := [] }
      effects := t.effects ++ [] }
    rw [he, List.append_nil, show [] = t.state.committed from hm.symm]
  | cons three rest =>
    rw [hd] at he hm
    have hsub : ∀ x ∈ three :: rest, x ∈ b :: bs := fun x hx => List.mem_of_mem_drop (hd ▸ hx)
    have hlen : rest.length ≤ bs.length := by
      have h := congrArg List.length hd
      simp only [List.length_drop, List.length_cons] at h
      omega
    have hline := hl.drop hd
    refine ⟨settlement ((three :: rest).dropLast.take 1), posts_settlement _, ?_⟩
    dsimp only [List.head?_cons, Option.map_some, Option.elim]
    rw [commit_line hline (fun x hx => hs x (hsub x hx)) (Nat.le_trans hlen hc) he,
      settle_line hline he hm]
    simp [back, hd]

theorem castVote_posts (b : Block) (t : Turn Replica) :
    ∃ signatures,
      (castVote seat b t).state =
        { t.state with signatures, safety := { t.state.safety with lastVote := b.view } } ∧
      posts seat.replica (castVote seat b t).effects =
        posts seat.replica t.effects ++ balloting seat b := by
  refine ⟨(SignatureCache.sign seat.policy b.hash t.state.signatures).2, ?_⟩
  unfold castVote balloting ballot
  dsimp only
  cases seat.leader b.view.next with
  | none =>
    refine ⟨rfl, ?_⟩
    simp [say, Turn.publish, Turn.remark, Turn.emit, posts_append]
  | some l =>
    refine ⟨rfl, ?_⟩
    simp [Turn.publish, Turn.send, Turn.emit, posts_append]
    rfl

def relocked (c : Rules.Consequence) (t : Turn Replica) : Turn Replica :=
  { t with
    state := { t.state with safety := c.relock t.state.safety }
    effects := t.effects ++ c.remarks.map .remark }

theorem judge_eq {c : Rules.Consequence} {t' : Turn Replica}
    (hc : rules.consequence t.state.chain t.state.safety b = c)
    (ht : c.commit.elim (relocked c t) (commit seat · (relocked c t)) = t') :
    judge rules seat b t =
      if t'.state.safety.lastVote < b.view &&
          rules.mayVote t'.state.chain t'.state.safety b t'.state.view then castVote seat b t'
      else t' := by
  subst hc ht
  unfold judge
  dsimp only
  rw [foldl_remark]
  cases (rules.consequence t.state.chain t.state.safety b).commit <;> rfl

/-- An instance that gets the next block of the line in time votes for it. -/
theorem judge_line (hl : Line (b :: bs)) (hne : bs ≠ []) (ha : NoCollision (b :: bs))
    (hr : VotedUpTo bs k t.state) (hc : t.state.chain = ⟨b :: bs⟩) (hv : t.state.view = b.view) :
    ∃ signatures,
      (judge rules seat b t).state =
        { t.state with
          signatures
          safety := ⟨(back 2 (b :: bs)).hash, b.view⟩
          executed := (back 3 (b :: bs)).hash
          committed := ((b :: bs).drop 3).dropLast.reverse.map (·.hash) } ∧
      posts seat.replica (judge rules seat b t).effects =
        posts seat.replica t.effects ++ balloting seat b := by
  have hs : Stores t.state.chain (b :: bs) := hc ▸ ha.stores
  have hsize : bs.length ≤ t.state.chain.size := hc ▸ Nat.le_succ _
  obtain ⟨hrelock, hcommit⟩ := @consequence_line b bs t.state.chain t.state.safety rules hl hs.tail
    (by rw [hr.voted])
  have hfirst : (back 0 bs).view < b.view := by
    cases bs with
    | nil => exact absurd rfl hne
    | cons p ps => exact hl.older List.mem_cons_self
  have hvote : rules.mayVote t.state.chain ⟨(back 2 (b :: bs)).hash, (back 0 bs).view⟩ b
      t.state.view = true := by
    rw [hv]
    exact mayVote_line hl hs.tail hsize ha (hs b List.mem_cons_self) hne rfl
  obtain ⟨es, hes, hset⟩ := @settled_line seat bs b
    (relocked (rules.consequence t.state.chain t.state.safety b) t) seat.replica hl hs hsize
    hr.executed hr.committed
  rw [← hcommit] at hset
  generalize ht : Turn.mk _ _ _ = t' at hset
  have hstate : t'.state =
      { t.state with
        safety := ⟨(back 2 (b :: bs)).hash, (back 0 bs).view⟩
        executed := (back 3 (b :: bs)).hash
        committed := ((b :: bs).drop 3).dropLast.reverse.map (·.hash) } := by
    rw [← ht]
    dsimp only [relocked]
    rw [hrelock, hr.voted]
  have hsent : posts seat.replica t'.effects = posts seat.replica t.effects := by
    rw [← ht]
    dsimp only [relocked]
    rw [posts_append, posts_append, hes, posts_remarks, List.append_nil, List.append_nil]
  obtain ⟨signatures, hcast, hposts⟩ := @castVote_posts seat b t'
  refine ⟨signatures, ?_⟩
  rw [judge_eq rfl hset, if_pos, hcast, hposts, hsent, hstate]
  · exact ⟨rfl, rfl⟩
  · rw [hstate]
    exact Bool.and_eq_true_iff.mpr ⟨decide_eq_true hfirst, hvote⟩

end Judging

section Offers

def consider (rules : Rules) (seat : Seat) (b : Block) (t : Turn Replica) : Turn Replica :=
  if b.view < t.state.view then say seat (.staleProposal b.view t.state.view) t
  else if (insertBlock b t).state.chain.hasAncestry b then judge rules seat b (insertBlock b t)
  else say seat (.unknownAncestry b.hash b.view) (insertBlock b t)

theorem onProposal_eq (hl : seat.leader b.view = some origin)
    (hq : ValidQc seat.policy t.state.chain q) :
    ∃ signatures, onProposal rules seat origin b q t =
      consider rules seat b
        (advance seat { qc := some q } { t with state := { t.state with signatures } }) := by
  obtain ⟨signatures, -, hs⟩ := checkQc_state seat q t.state
  have hv := checkQc_of_valid hq
  refine ⟨signatures, ?_⟩
  unfold onProposal
  rw [if_neg (not_not.mpr hl)]
  generalize checkQc seat q t.state = checked at hs hv
  obtain ⟨valid, r⟩ := checked
  obtain rfl := hs
  obtain rfl := hv
  rfl

theorem insert_awaiting (hl : Line (b :: bs)) (ha : NoCollision (b :: bs))
    (hr : Awaiting bs b k r) :
    r.chain.insert b = ⟨b :: bs⟩ := by
  rw [← insert_of_noCollision hl ha]
  obtain hc | hc := hr.chain
  · rw [hc]
  · rw [hc, insert_insert]

/-- The block that an instance has been waiting for gets its vote. -/
theorem consider_awaiting (hl : Line (b :: bs)) (hne : bs ≠ []) (ha : NoCollision (b :: bs))
    (hr : Awaiting bs b k t.state) :
    Resting (b :: bs) k (consider rules seat b t).state ∧
      posts seat.replica (consider rules seat b t).effects =
        posts seat.replica t.effects ++ balloting seat b := by
  have hinsert := insert_awaiting hl ha hr
  have hs := NoCollision.stores ha
  have hcur : ¬ b.view < t.state.view := hr.view ▸ Nat.lt_irrefl _
  unfold consider
  rw [if_neg hcur, insertBlock_eq]
  dsimp only
  rw [hinsert, if_pos (hasAncestry_line hl hs.tail (Nat.le_succ _))]
  obtain ⟨signatures, hstate, hposts⟩ := @judge_line rules seat bs b k
    { t with
      state := { t.state with chain := ⟨b :: bs⟩ }
      effects := t.effects ++ insertion t.state.chain b }
    hl hne ha { hr.toVotedUpTo with } rfl hr.view
  rw [hstate, hposts]
  refine ⟨?_, by rw [posts_append, posts_insertion, List.append_nil]⟩
  exact { hr.toVotedUpTo with
    voted := rfl
    executed := rfl
    committed := rfl
    chain := rfl
    view := hr.view }

theorem next_of_follows (hb : b.view.toNat = p.view.toNat + 1) : p.view.next = b.view := by
  have hlt := b.view.isLt
  refine View.ext ?_
  rw [View.toNat_next]
  omega

theorem certifies_line {ps : List Block} (hl : Line (b :: p :: ps)) (hj : b.justify = some q)
    (hq : Attested seat.policy q) :
    Certifies seat (p :: ps) q ∧ b.parent = q.block ∧ q.view = p.view ∧ q.view.next = b.view := by
  cases hl with
  | grow _ hf =>
    obtain ⟨q', hj', hb, hv⟩ := hf.certified
    obtain rfl := Option.some.inj (hj.symm.trans hj')
    refine ⟨⟨hq, p, List.mem_cons_self, hb, hv⟩, hf.parent.trans hb.symm, hv, ?_⟩
    rw [hv]
    exact next_of_follows hf.view

theorem receive_offer_eq (hz : b.view ≠ .zero) (hj : b.justify = some q) (hp : b.parent = q.block) :
    receive rules seat b.proposer (.propose ⟨b⟩) r =
      onProposal rules seat b.proposer b q
        { state := r, effects := [.publish (.receiveProposal b.proposer ⟨b⟩)] } := by
  have hi : (Message.propose ⟨b⟩).impossibility? b.proposer = none := by
    simp [Message.impossibility?, hz, hj, hp]
  unfold receive
  rw [hi]
  dsimp only
  rw [hj]
  rfl

variable {ps : List Block} (hl : Line (b :: p :: ps)) (ha : NoCollision (b :: p :: ps))
  (hj : b.justify = some q) (hq : Attested seat.policy q)
  (hled : seat.leader b.view = some b.proposer)
include hl ha hj hq hled

theorem receive_offer_awaiting (hr : Awaiting (p :: ps) b k r) :
    Resting (b :: p :: ps) k (receive rules seat b.proposer (.propose ⟨b⟩) r).state ∧
      posts seat.replica (receive rules seat b.proposer (.propose ⟨b⟩) r).effects =
        balloting seat b := by
  obtain ⟨hc, hp, -, hn⟩ := certifies_line hl hj hq
  have hvalid := hc.valid (hr.stores ha.tail)
  have hz : b.view ≠ .zero := hn ▸ View.next_ne_zero _
  have hh : r.highQc = q := Option.some.inj (hr.high.symm.trans hj)
  have hv : q.view < r.view := by
    have hi := hr.informed
    rw [hh] at hi
    rw [View.lt_def]
    omega
  rw [receive_offer_eq hz hj hp]
  obtain ⟨first, he⟩ := @onProposal_eq rules seat b
    { state := r, effects := [.publish (.receiveProposal b.proposer ⟨b⟩)] } q b.proposer hled hvalid
  obtain ⟨second, he'⟩ := @advance_past seat
    { state := { r with signatures := first }
      effects := [.publish (.receiveProposal b.proposer ⟨b⟩)] } q hvalid hv
    (hh ▸ Nat.le_refl _)
  rw [he, he']
  exact consider_awaiting hl (by simp) ha { hr with }

theorem receive_offer_resting (hne : b.proposer ≠ seat.replica) (hr : Resting (p :: ps) k r) :
    Resting (b :: p :: ps) 0 (receive rules seat b.proposer (.propose ⟨b⟩) r).state ∧
      posts seat.replica (receive rules seat b.proposer (.propose ⟨b⟩) r).effects =
        greeting seat b.proposer b.view q :: balloting seat b := by
  obtain ⟨hc, hp, hv, hn⟩ := certifies_line hl hj hq
  have hvalid := hc.valid (hr.stores ha.tail)
  have hz : b.view ≠ .zero := hn ▸ View.next_ne_zero _
  have hview : r.view = q.view := hr.view.trans hv.symm
  have hi := hr.informed
  rw [hview] at hi
  rw [receive_offer_eq hz hj hp]
  obtain ⟨first, he⟩ := @onProposal_eq rules seat b
    { state := r, effects := [.publish (.receiveProposal b.proposer ⟨b⟩)] } q b.proposer hled hvalid
  obtain ⟨second, he'⟩ := @advance_enter seat
    { state := { r with signatures := first }
      effects := [.publish (.receiveProposal b.proposer ⟨b⟩)] } q hvalid
    (hview ▸ Nat.le_refl _) (by
      rw [View.lt_def]
      dsimp only
      omega)
  rw [he, he', hn]
  have hlt : q.view < b.view := by
    rw [View.lt_def, hv]
    exact hl.older List.mem_cons_self
  obtain ⟨hstate, hposts⟩ := @enterView_following seat
    { state := { r with signatures := second, highQc := q }
      effects := [.publish (.receiveProposal b.proposer ⟨b⟩)] } b.view b.proposer hled hne
    hr.untimed
  have hready : Awaiting (p :: ps) b 0
      (entered b.view { r with signatures := second, highQc := q }) :=
    { hr.enter hview.symm hn hlt second with
      chain := .inl hr.chain
      view := rfl
      high := hj }
  rw [← hstate] at hready
  obtain ⟨hrest, hposts'⟩ := @consider_awaiting rules _ _ _ _ _ hl (by simp) ha hready
  exact ⟨hrest, hposts'.trans (by rw [hposts]; rfl)⟩

end Offers

section Tallies

variable {v : Vote} {votes votes' : VoteCollector} {cs : List Signature} {E : Electorate}
  {P : Signature → Prop} {s : Signature}

/-- The signatures collected for a block, of which there may be others from earlier on. -/
structure Tallied (E : Electorate) (P : Signature → Prop) (b : Block) (cs : List Signature)
    (votes : VoteCollector) : Prop where
  collected : (votes.get? (b.view, b.hash)).getD [] = cs
  polled : Polled E P cs
  bounded : ∀ x ∈ votes, x.1.1 ≤ b.view

theorem Tallied.fresh (h : ∀ x ∈ votes, x.1.1 < b.view) : Tallied E P b [] votes where
  collected := by
    cases hg : votes.get? (b.view, b.hash) with
    | none => rfl
    | some x => exact absurd (h _ (Ballots.mem_of_get? hg)) (Nat.lt_irrefl _)
  polled := .nil
  bounded x hx := Nat.le_of_lt (h x hx)

theorem Tallied.add (h : Tallied E P b cs votes) (ha : E.admits s cs = true) (hs : P s)
    (hq : cs.length + 1 < E.quorum) :
    ∃ votes', VoteCollector.collect E b.view b.hash s votes = (none, votes') ∧
      Tallied E P b (cs ++ [s]) votes' := by
  have hn : ¬ E.quorum ≤ (cs ++ [s]).length := by
    rw [List.length_append, List.length_singleton]
    omega
  refine ⟨votes.set (b.view, b.hash) (cs ++ [s]), ?_, ?_, h.polled.admit ha hs, fun x hx => ?_⟩
  · unfold VoteCollector.collect
    rw [h.collected]
    dsimp only
    rw [if_pos ha, if_neg hn]
  · rw [Table.get?_set, if_pos rfl, Option.getD_some]
  · obtain rfl | hx := mem_set hx
    · exact Nat.le_refl _
    · exact h.bounded x hx

theorem Tallied.complete (h : Tallied E P b cs votes) (ha : E.admits s cs = true) (hs : P s)
    (hq : E.quorum ≤ cs.length + 1) :
    VoteCollector.collect E b.view b.hash s votes =
        (some ⟨b.view, b.hash, cs ++ [s]⟩, votes.erase (b.view, b.hash)) ∧
      Polled E P (cs ++ [s]) := by
  have hn : E.quorum ≤ (cs ++ [s]).length := by
    rw [List.length_append, List.length_singleton]
    exact hq
  refine ⟨?_, h.polled.admit ha hs⟩
  unfold VoteCollector.collect
  rw [h.collected]
  dsimp only
  rw [if_pos ha, if_pos hn]

theorem Tallied.restart (h : Tallied E P b cs votes) (w : View) :
    Tallied E P b [] (VoteCollector.pruneBelow w (votes.erase (b.view, b.hash))) where
  collected := by
    cases hg : Table.get? (VoteCollector.pruneBelow w (votes.erase (b.view, b.hash)))
        (b.view, b.hash) with
    | none => rfl
    | some x =>
      have hm := (List.mem_filter.mp (Ballots.mem_of_get? hg)).1
      have hne := (List.mem_filter.mp hm).2
      simp at hne
  polled := .nil
  bounded x hx := h.bounded x (mem_erase (List.mem_filter.mp hx).1)

section Counted

variable (ho : v.signature.signer = origin) (hv : r.view ≤ v.view.next)
  (hb : (r.chain.get? v.block).map (·.view) = some v.view)
  (hs : seat.policy.keys.verify v.signature v.block = true)
include ho hv hb hs

theorem receive_vote_eq :
    ∃ signatures, receive rules seat origin (.vote v) r =
      match VoteCollector.collect (electorate seat) v.view v.block v.signature r.votes with
      | (none, votes) =>
        { state := { r with signatures, votes }
          effects := [.publish (.receiveVote origin v)] }
      | (some qc, votes) =>
        advance seat { qc := some qc }
          { state := { r with signatures, votes }
            effects := [.publish (.receiveVote origin v), .publish (.collectQc qc)] } := by
  have hi : (Message.vote v).impossibility? origin = none := if_neg (not_not.mpr ho)
  obtain ⟨signatures, -, hstate⟩ := checkSignature_state seat v.signature v.block r
  have hvalid : (checkSignature seat v.signature v.block r).1 = true := verify_of_valid _ hs
  refine ⟨signatures, ?_⟩
  unfold receive
  rw [hi]
  dsimp only [announce, Turn.publish, Turn.emit]
  unfold onVote
  dsimp only
  rw [if_neg (show ¬ v.view.next < r.view from Nat.not_lt_of_le hv), if_neg (not_not.mpr hb)]
  generalize checkSignature seat v.signature v.block r = checked at hstate hvalid
  obtain ⟨valid, r'⟩ := checked
  obtain rfl := hstate
  obtain rfl := hvalid
  dsimp only
  generalize VoteCollector.collect (electorate seat) v.view v.block v.signature r.votes = collected
  obtain ⟨qc?, votes⟩ := collected
  cases qc? <;> rfl

end Counted

end Tallies

section Quorums

variable {voter : Seat} {cs : List Signature}
  (hs : seat.policy.keys.verify (voter.policy.keys.sign b.hash) b.hash = true)
  (ho : (voter.policy.keys.sign b.hash).signer = voter.replica)
  (ha : (electorate seat).admits (voter.policy.keys.sign b.hash) cs = true)
include hs ho ha

theorem receive_vote_short (hv : r.view ≤ b.view.next) (hb : r.chain.get? b.hash = some b)
    (ht : Tallied (electorate seat) (fun s => seat.policy.keys.verify s b.hash = true) b cs r.votes)
    (hq : cs.length + 1 < (electorate seat).quorum) :
    ∃ signatures votes,
      receive rules seat voter.replica (.vote (ballot voter b)) r =
        { state := { r with signatures, votes }
          effects := [.publish (.receiveVote voter.replica (ballot voter b))] } ∧
      Tallied (electorate seat) (fun s => seat.policy.keys.verify s b.hash = true) b
        (cs ++ [voter.policy.keys.sign b.hash]) votes := by
  obtain ⟨votes, hc, ht'⟩ := ht.add ha hs hq
  obtain ⟨signatures, he⟩ := @receive_vote_eq rules seat r voter.replica (ballot voter b) ho hv
    (by dsimp only [ballot]; rw [hb]; rfl) hs
  refine ⟨signatures, votes, he.trans ?_, ht'⟩
  dsimp only [ballot]
  rw [hc]

theorem receive_vote_quorum (hp : seat.policy.quorum = (electorate seat).quorum)
    (hd : NoCollision (b :: bs)) (hr : Resting (b :: bs) k { r with votes := [] })
    (ht : Tallied (electorate seat) (fun s => seat.policy.keys.verify s b.hash = true) b cs r.votes)
    (hq : (electorate seat).quorum ≤ cs.length + 1) (hlt : b.view < b.view.next)
    (hl : seat.leader b.view.next = some seat.replica) :
    ∃ b' q, Follows b' b ∧ b'.justify = some q ∧ Attested seat.policy q ∧
      b'.proposer = seat.replica ∧
      Awaiting (b :: bs) b' 0
        { (receive rules seat voter.replica (.vote (ballot voter b)) r).state with votes := [] } ∧
      Tallied (electorate seat) (fun s => seat.policy.keys.verify s b.hash = true) b []
        (receive rules seat voter.replica (.vote (ballot voter b)) r).state.votes ∧
      posts seat.replica (receive rules seat voter.replica (.vote (ballot voter b)) r).effects =
        [offering b'] := by
  have hb : r.chain.get? b.hash = some b := hr.stores hd b List.mem_cons_self
  have hview : r.view = b.view := hr.view
  obtain ⟨hc, hpolled⟩ := ht.complete ha hs hq
  obtain ⟨signatures, he⟩ := @receive_vote_eq rules seat r voter.replica (ballot voter b) ho
    (hview ▸ Nat.le_of_lt hlt) (by dsimp only [ballot]; rw [hb]; rfl) hs
  dsimp only [ballot] at he
  rw [hc] at he
  dsimp only at he
  have hattested : Attested seat.policy
      ⟨b.view, b.hash, cs ++ [voter.policy.keys.sign b.hash]⟩ := by
    refine attested_of_polled hpolled ?_
    rw [hp, List.length_append, List.length_singleton]
    exact hq
  obtain ⟨b', hfollows, hj, hproposer, hawaits, hvotes, hposts⟩ :=
    @advance_leading seat bs b k
      { state := { r with signatures, votes := r.votes.erase (b.view, b.hash) }
        effects := [.publish (.receiveVote voter.replica (ballot voter b)),
          .publish (.collectQc ⟨b.view, b.hash, cs ++ [voter.policy.keys.sign b.hash]⟩)] }
      _ hd { hr with } hattested rfl rfl hlt hl
  rw [show receive rules seat voter.replica (.vote (ballot voter b)) r = _ from he]
  have htally := ht.restart (b.view.next.sub 1)
  rw [← hvotes] at htally
  exact ⟨b', _, hfollows, hj, hattested, hproposer, hawaits, htally, hposts⟩

end Quorums

section Starts

def firstBlock (seat : Seat) : Block := nextBlock seat (entered View.zero.next {})

theorem firstBlock_follows (seat : Seat) : Follows (firstBlock seat) .genesis :=
  ⟨rfl, rfl, .genesis, rfl, rfl, rfl⟩

theorem votedUpTo_entered : VotedUpTo [.genesis] 0 (entered View.zero.next {}) where
  voted := rfl
  executed := rfl
  committed := rfl
  untimed := rfl
  proposed := Nat.zero_le _
  informed := rfl
  counted _ hx := absurd hx List.not_mem_nil
  patient := Nat.le_refl _

theorem start_leading (hl : seat.leader View.zero.next = some seat.replica) :
    Awaiting [.genesis] (firstBlock seat) 0 (Replica.start seat {}).state ∧
      posts seat.replica (Replica.start seat {}).effects = [offering (firstBlock seat)] := by
  obtain ⟨hstate, hposts⟩ := @enterView_leading seat { state := {} } View.zero.next hl (by decide)
  rw [start_eq, hstate, hposts]
  refine ⟨⟨votedUpTo_entered.propose _, .inr ?_, rfl, rfl⟩, rfl⟩
  dsimp only
  unfold firstBlock Chain.initial
  rfl

theorem start_following {leader : ReplicaId} (hl : seat.leader View.zero.next = some leader)
    (hne : leader ≠ seat.replica) (hv : b.view = View.zero.next) (hj : b.justify = some .genesis) :
    Awaiting [.genesis] b 0 (Replica.start seat {}).state ∧
      posts seat.replica (Replica.start seat {}).effects =
        [greeting seat leader View.zero.next .genesis] := by
  obtain ⟨hstate, hposts⟩ := @enterView_following seat { state := {} } View.zero.next leader hl hne
    rfl
  rw [start_eq, hstate, hposts]
  refine ⟨?_, rfl⟩
  exact { votedUpTo_entered with
    chain := .inl rfl
    view := hv.symm
    high := hj }

end Starts

section Timers

theorem tick_patient (hr : r.viewTicks ≤ k) (hk : k + 1 < seat.viewTimeout) :
    tick seat r = { state := { r with viewTicks := r.viewTicks + 1 } } := by
  unfold tick
  rw [if_neg (by omega)]

theorem Resting.tick (h : Resting bs k r) :
    Resting bs (k + 1) { r with viewTicks := r.viewTicks + 1 } :=
  { h with patient := Nat.succ_le_succ h.patient }

theorem Awaiting.tick (h : Awaiting bs b k r) :
    Awaiting bs b (k + 1) { r with viewTicks := r.viewTicks + 1 } :=
  { h with patient := Nat.succ_le_succ h.patient }

end Timers

end Equivocation.Proofs.Lockstep
