import Equivocation.Proofs.Boards
import Equivocation.Proofs.Lockstep

namespace Equivocation.Proofs.Rounds

open History Ballots Turns Authenticity Provenance Backbone Lockstep Boards

/-- A cluster in which every replica runs on one node and has time for a round of messages. -/
structure Single (C : Cluster) (s : Scenario) : Prop where
  keyed : Keyed C
  nodes : (C.seats.map (·.node)).Nodup
  replicas : C.replicas.Nodup
  seated : C.seats.map (·.replica) = C.replicas
  leaders : ∀ t ∈ C.seats, t.leaders = s.leaders
  led : ∀ v leader, scheduledLeader? s v = some leader → leader ∈ C.replicas
  timeout : ∀ t ∈ C.seats, 4 ≤ t.viewTimeout

def offer? (l : ReplicaId × Recipients × Message) : Option Block :=
  match l.2.2 with
  | .propose p => some p.block
  | _ => none

def offers (T : Post) : List Block := T.filterMap offer?

def Belated (C : Cluster) (bs : List Block) (v : View) (l : ReplicaId × Recipients × Message) :
    Prop :=
  ∃ t leader w q, l = greeting t leader w q ∧ w ≠ .zero ∧ (∀ u ∈ C.seats, Certifies u bs q) ∧
    q.view < v

def VoteMail (C : Cluster) (b : Block) (bs : List Block) (t : Seat) (ls : Post) : Prop :=
  ls = balloting t b ∨ ∃ l, Belated C (b :: bs) b.view l ∧ ls = l :: balloting t b

/-- An instance that will vote for the next block. All but its leader get to know of its certificate
by the block itself. -/
def Ready (bs : List Block) (b : Block) (t : Seat) (r : Replica) : Prop :=
  Awaiting bs b 1 r ∨ b.proposer ≠ t.replica ∧ Resting bs 3 r

structure Proposed (C : Cluster) (s : Scenario) (b p : Block) (ps : List Block) (B : Board) :
    Prop where
  line : Line (b :: p :: ps)
  carried : ∃ q, b.justify = some q ∧ Accepted C q
  led : scheduledLeader? s b.view = some b.proposer
  ready : ∀ t ∈ C.seats, Ready (p :: ps) b t (B.replica t.node)
  recorded : .genesis :: offers B.sent = (b :: p :: ps).reverse
  pending : ∃ v pre post, B.pending = pre ++ offering b :: post ∧ v ≤ b.view ∧
    (∀ t ∈ C.seats, v ≤ (B.replica t.node).view) ∧ ∀ l ∈ pre ++ post, Belated C (p :: ps) v l

/-- Everyone has voted for the block, and the votes are on their way to the next leader. -/
structure AllVoted (C : Cluster) (s : Scenario) (b : Block) (bs : List Block) (B : Board) :
    Prop where
  line : Line (b :: bs)
  led : scheduledLeader? s b.view = some b.proposer
  rested : ∀ t ∈ C.seats, Resting (b :: bs) 2 (B.replica t.node)
  recorded : .genesis :: offers B.sent = (b :: bs).reverse
  pending : ∃ f, B.pending = C.seats.flatMap f ∧ ∀ t ∈ C.seats, VoteMail C b bs t (f t)

variable {C : Cluster} {s : Scenario} {rules : Rules} {B : Board} {b p : Block}
  {bs ps : List Block} {v : View} {P : Seat → Replica → Prop} {seat : Seat}
  {tasks : List Task} {l : ReplicaId × Recipients × Message} {T U : Post}

theorem Belated.grow (h : Belated C bs v l) : Belated C (b :: bs) v l := by
  obtain ⟨t, leader, w, q, he, hz, hq, hv⟩ := h
  exact ⟨t, leader, w, q, he, hz, fun u hu => (hq u hu).grow, hv⟩

section Readiness

variable {r : Replica} (h : Ready bs b seat r)
include h

theorem Ready.signed (signatures : SignatureCache) :
    Ready bs b seat { r with signatures } := by
  obtain h | ⟨hne, h⟩ := h
  · exact .inl { h with }
  · exact .inr ⟨hne, { h with }⟩

theorem Ready.stores (ha : NoCollision bs) : Stores r.chain bs := by
  obtain h | ⟨-, h⟩ := h
  · exact h.stores ha
  · exact h.stores ha

theorem Ready.informed : r.highQc.view.toNat + 1 = r.view.toNat := by
  obtain h | ⟨-, h⟩ := h
  · exact h.informed
  · exact h.informed

end Readiness

theorem offers_offering (b : Block) (T : Post) : offers (offering b :: T) = b :: offers T := rfl

theorem offers_append (T T' : Post) : offers (T ++ T') = offers T ++ offers T' :=
  List.filterMap_append

theorem offers_belated (h : ∀ l ∈ T, Belated C bs v l) : offers T = [] :=
  List.filterMap_eq_nil_iff.mpr fun l hl => by
    obtain ⟨t, leader, w, q, rfl, -⟩ := h l hl
    rfl

theorem offers_balloting (t : Seat) (b : Block) : offers (balloting t b) = [] := by
  unfold balloting
  cases t.leader b.view.next <;> rfl

theorem VoteMail.offers {t : Seat} {ls : Post} (h : VoteMail C b bs t ls) : offers ls = [] := by
  obtain rfl | ⟨l, hl, rfl⟩ := h
  · exact offers_balloting t b
  · change Rounds.offers ([l] ++ balloting t b) = []
    rw [offers_append, offers_belated (List.forall_mem_singleton.mpr hl), offers_balloting]
    rfl

theorem offers_flatMap {seats : List Seat} {f : Seat → Post} (h : ∀ t ∈ seats, offers (f t) = []) :
    offers (seats.flatMap f) = [] := by
  unfold offers
  rw [List.filterMap_flatMap, List.flatMap_eq_nil_iff]
  exact h

theorem turns_kept {Q : ReplicaId × Recipients × Message → Prop}
    (ht : ∀ task ∈ tasks, task.1 ∈ C.seats ∧ ∀ r, P task.1 r →
      P task.1 (task.2.react rules task.1 r).state ∧
        ∀ l ∈ posts task.1.replica (task.2.react rules task.1 r).effects, Q l)
    (hB : ∀ t ∈ C.seats, P t (B.replica t.node)) :
    (∀ t ∈ C.seats, P t ((B.turns rules tasks).replica t.node)) ∧
      ∃ T, (B.turns rules tasks).sent = B.sent ++ T ∧
        (B.turns rules tasks).pending = B.pending ++ T ∧ ∀ l ∈ T, Q l := by
  induction tasks generalizing B with
  | nil => exact ⟨hB, [], (List.append_nil _).symm, (List.append_nil _).symm, by simp⟩
  | cons task tasks ih =>
    obtain ⟨hseat, hstep⟩ := ht task List.mem_cons_self
    obtain ⟨hP, hQ⟩ := hstep _ (hB task.1 hseat)
    have hB' : ∀ t ∈ C.seats, P t ((B.turn rules task).replica t.node) := by
      intro t hmem
      by_cases hn : t.node = task.1.node
      · obtain rfl := C.apart t hmem _ hseat hn
        rw [show B.turn rules task = B.turn rules (task.1, task.2) from rfl, B.replica_turn]
        exact hP
      · rw [show B.turn rules task = B.turn rules (task.1, task.2) from rfl,
          Board.replica_turn_of_ne hn]
        exact hB t hmem
    obtain ⟨hall, T, hsent, hpending, hT⟩ :=
      ih (fun x hx => ht x (List.mem_cons_of_mem _ hx)) hB'
    refine ⟨hall, posts task.1.replica (task.2.react rules task.1 (B.replica task.1.node)).effects
      ++ T, ?_, ?_, fun l hl => (List.mem_append.mp hl).elim (hQ l) (hT l)⟩
    · rw [← List.append_assoc]
      exact hsent
    · rw [← List.append_assoc]
      exact hpending

theorem mem_reached {seats : List Seat} {whom : Recipients} {t : Seat}
    (ht : t ∈ Board.reached s seats v whom) : t ∈ seats := by
  unfold Board.reached at ht
  split at ht
  · exact (List.mem_filter.mp ht).1
  · cases ht

theorem turns_belated {ls : Post} (hl : ∀ l ∈ ls, Belated C bs v l)
    (hP : ∀ t r signatures, P t r → P t { r with signatures })
    (hr : ∀ t r, P t r → Stores r.chain bs ∧ v ≤ r.view ∧
      r.highQc.view.toNat + 1 = r.view.toNat)
    (hB : ∀ t ∈ C.seats, P t (B.replica t.node)) :
    (∀ t ∈ C.seats,
      P t ((B.turns rules (ls.flatMap (Board.tasks s C.seats))).replica t.node)) ∧
      (B.turns rules (ls.flatMap (Board.tasks s C.seats))).sent = B.sent ∧
        (B.turns rules (ls.flatMap (Board.tasks s C.seats))).pending = B.pending := by
  have hstep : ∀ task ∈ ls.flatMap (Board.tasks s C.seats), task.1 ∈ C.seats ∧
      ∀ r, P task.1 r → P task.1 (task.2.react rules task.1 r).state ∧
        ∀ l ∈ posts task.1.replica (task.2.react rules task.1 r).effects, False := by
    intro task htask
    obtain ⟨l, hmem, htask⟩ := List.mem_flatMap.mp htask
    obtain ⟨t, ht, rfl⟩ := List.mem_map.mp htask
    obtain ⟨u, leader, w, q, rfl, hz, hq, hv⟩ := hl l hmem
    refine ⟨mem_reached ht, fun r h => ?_⟩
    obtain ⟨hs, hle, hi⟩ := hr t r h
    obtain ⟨signatures, he⟩ := @receive_greeting rules t bs r q u.replica
      ⟨w, { qc := some q }⟩ (hq t (mem_reached ht)) rfl hz hs (Nat.lt_of_lt_of_le hv hle) hi
    change P t (Replica.receive rules t u.replica (.newView ⟨w, { qc := some q }⟩) r).state ∧
      ∀ l ∈ posts t.replica
        (Replica.receive rules t u.replica (.newView ⟨w, { qc := some q }⟩) r).effects, False
    rw [he]
    exact ⟨hP t r signatures h, by simp⟩
  obtain ⟨hall, T, hsent, hpending, hT⟩ := turns_kept hstep hB
  obtain rfl := List.eq_nil_iff_forall_not_mem.mpr hT
  rw [List.append_nil] at hsent hpending
  exact ⟨hall, hsent, hpending⟩

theorem Single.injective (hf : Single C s) {t u : Seat} (ht : t ∈ C.seats) (hu : u ∈ C.seats)
    (h : t.replica = u.replica) : t = u := by
  have hn : (C.seats.map (·.replica)).Nodup := by
    rw [hf.seated]
    exact hf.replicas
  exact List.inj_on_of_nodup_map hn ht hu h

theorem Single.seat_of_led (hf : Single C s) {leader : ReplicaId}
    (hl : scheduledLeader? s v = some leader) : ∃ t ∈ C.seats, t.replica = leader := by
  have hmem := hf.led _ _ hl
  rw [← hf.seated] at hmem
  exact List.mem_map.mp hmem

theorem filter_unique {α β : Type} [DecidableEq β] {f : α → β} {xs : List α} {x : α}
    (hn : (xs.map f).Nodup) (hx : x ∈ xs) : xs.filter (fun y => f x = f y) = [x] := by
  induction xs with
  | nil => cases hx
  | cons y ys ih =>
    obtain ⟨hy, hn⟩ := List.nodup_cons.mp hn
    obtain rfl | hx := List.mem_cons.mp hx
    · rw [List.filter_cons_of_pos (by simp), List.filter_eq_nil_iff.mpr]
      intro z hz he
      exact hy (List.mem_map.mpr ⟨z, hz, (of_decide_eq_true he).symm⟩)
    · have hne : f x ≠ f y := fun he => hy (List.mem_map.mpr ⟨x, hx, he⟩)
      rw [List.filter_cons_of_neg (by simpa using hne), ih hn hx]

section Reach

variable {m : Message} (hs : (s.schedule? m.view).isSome = true) (origin : ReplicaId)
include hs

theorem deliveries_all (seats : List Seat) :
    Board.tasks s seats (origin, .all, m) =
      seats.map fun t => (t, .message origin m) := by
  unfold Board.tasks Board.reached
  rw [if_pos hs, List.filter_eq_self.mpr]
  exact fun _ _ => rfl

theorem deliveries_one (hf : Single C s) (hseat : seat ∈ C.seats) :
    Board.tasks s C.seats (origin, .replica seat.replica, m) =
      [(seat, .message origin m)] := by
  have hn : (C.seats.map (·.replica)).Nodup := by
    rw [hf.seated]
    exact hf.replicas
  unfold Board.tasks Board.reached
  rw [if_pos hs, show (C.seats.filter fun t => (Recipients.replica seat.replica).includes
    t.replica) = [seat] from filter_unique hn hseat]
  rfl

end Reach

theorem Single.leader_eq (hf : Single C s) {t : Seat} (ht : t ∈ C.seats) (v : View) :
    t.leader v = scheduledLeader? s v := Provenance.leader_eq (hf.leaders t ht) v

theorem timers_patient (hf : Single C s)
    (hB : ∀ t ∈ C.seats, (B.replica t.node).viewTicks + 1 < t.viewTimeout) :
    (∀ t ∈ C.seats, (B.turns rules (C.seats.map fun t => (t, .tick))).replica t.node =
      { B.replica t.node with viewTicks := (B.replica t.node).viewTicks + 1 }) ∧
      (B.turns rules (C.seats.map fun t => (t, .tick))).sent = B.sent ∧
        (B.turns rules (C.seats.map fun t => (t, .tick))).pending = B.pending := by
  have htick : ∀ t ∈ C.seats, Input.tick.react rules t (B.replica t.node) =
      { state := { B.replica t.node with viewTicks := (B.replica t.node).viewTicks + 1 } } :=
    fun t ht => tick_patient (Nat.le_refl _) (hB t ht)
  have hsilent : C.seats.flatMap (fun t =>
      posts t.replica (Input.tick.react rules t (B.replica t.node)).effects) = [] :=
    List.flatMap_eq_nil_iff.mpr fun t ht => by
      rw [htick t ht]
      rfl
  obtain ⟨hstate, -, hsent, hpending⟩ := @sweep rules C.seats hf.nodes B .tick
  rw [hsilent, List.append_nil] at hsent hpending
  exact ⟨fun t ht => by rw [hstate t ht, htick t ht], hsent, hpending⟩

section Votes

variable (rules) (hf : Single C s) (h : Proposed C s b p ps B) (ha : NoCollision (b :: p :: ps))
include hf h ha

theorem offer_ready {t : Seat} {r : Replica} (ht : t ∈ C.seats) (hr : Ready (p :: ps) b t r) :
    Resting (b :: p :: ps) 1
        (Input.react rules t (.message b.proposer (.propose ⟨b⟩)) r).state ∧
      VoteMail C b (p :: ps) t
        (posts t.replica (Input.react rules t (.message b.proposer (.propose ⟨b⟩)) r).effects) := by
  obtain ⟨q, hj, hq⟩ := h.carried
  have hled : t.leader b.view = some b.proposer := (hf.leader_eq ht _).trans h.led
  obtain hr | ⟨hne, hr⟩ := hr
  · obtain ⟨hrest, hposts⟩ := @receive_offer_awaiting rules _ _ _ _ _ _ _ h.line ha hj (hq t ht)
      hled hr
    exact ⟨hrest, .inl hposts⟩
  · obtain ⟨hrest, hposts⟩ := @receive_offer_resting rules _ _ _ _ _ _ _ h.line ha hj (hq t ht)
      hled hne hr
    obtain ⟨-, -, hv, hn⟩ := certifies_line h.line hj (hq t ht)
    refine ⟨hrest.mono (Nat.zero_le 1), .inr
      ⟨_, ⟨t, b.proposer, b.view, q, rfl, hn ▸ View.next_ne_zero _, fun u hu => ?_, ?_⟩, hposts⟩⟩
    · exact (certifies_line h.line hj (hq u hu)).1.grow
    · rw [View.lt_def, hv]
      exact h.line.older List.mem_cons_self

/-- In the tick after a block was proposed, everyone votes for it. -/
theorem allVoted_of_proposed : AllVoted C s b (p :: ps) (B.tick rules s C.seats) := by
  obtain ⟨v, pre, post, hpending, hvb, hv, hlate⟩ := h.pending
  obtain ⟨schedule, hsch, -⟩ := Option.map_eq_some_iff.mp h.led
  have hall : Board.tasks s C.seats (offering b) =
      C.seats.map fun t => (t, .message b.proposer (.propose ⟨b⟩)) :=
    deliveries_all (Option.isSome_of_eq_some hsch) b.proposer C.seats
  unfold Board.tick
  rw [hpending, List.flatMap_append, List.flatMap_cons, hall]
  simp only [turns_append]
  -- First come certificates that are no news, then the block, then again such certificates.
  obtain ⟨hr₁, hs₁, hp₁⟩ := @turns_belated C s rules { B with pending := [] } (p :: ps) v
    (fun t r => Ready (p :: ps) b t r ∧ v ≤ r.view) pre
    (fun l hl => hlate l (List.mem_append_left _ hl))
    (fun t r signatures hr => ⟨hr.1.signed signatures, hr.2⟩)
    (fun t r hr => ⟨hr.1.stores ha.tail, hr.2, hr.1.informed⟩)
    (fun t ht => ⟨h.ready t ht, hv t ht⟩)
  generalize Board.turns rules { B with pending := [] } (pre.flatMap _) = B₁ at hr₁ hs₁ hp₁ ⊢
  obtain ⟨hr₂, -, hs₂, hp₂⟩ := @sweep rules C.seats hf.nodes B₁
    (.message b.proposer (.propose ⟨b⟩))
  have hanswers := fun t ht => offer_ready rules hf h ha ht (hr₁ t ht).1
  have hoffers := offers_flatMap fun t ht => (hanswers t ht).2.offers
  generalize Board.turns rules B₁ _ = B₂ at hr₂ hs₂ hp₂ ⊢
  have hrest : ∀ t ∈ C.seats, Resting (b :: p :: ps) 1 (B₂.replica t.node) := by
    intro t ht
    rw [hr₂ t ht]
    exact (hanswers t ht).1
  obtain ⟨hr₃, hs₃, hp₃⟩ := @turns_belated C s rules B₂ (b :: p :: ps) v
    (fun t r => Resting (b :: p :: ps) 1 r) post
    (fun l hl => (hlate l (List.mem_append_right _ hl)).grow)
    (fun t r signatures hr => { hr with })
    (fun t r hr => ⟨hr.stores ha, hr.view ▸ hvb, hr.informed⟩) hrest
  generalize Board.turns rules B₂ _ = B₃ at hr₃ hs₃ hp₃ ⊢
  obtain ⟨hr₄, hs₄, hp₄⟩ := @timers_patient C s rules B₃ hf fun t ht => by
    have hle := (hr₃ t ht).patient
    have htime := hf.timeout t ht
    omega
  generalize Board.turns rules B₃ _ = B₄ at hr₄ hs₄ hp₄ ⊢
  refine ⟨h.line, h.led, fun t ht => ?_, ?_, ?_⟩
  · rw [hr₄ t ht]
    exact (hr₃ t ht).tick
  · rw [hs₄, hs₃, hs₂, offers_append, hoffers, List.append_nil, hs₁]
    exact h.recorded
  · refine ⟨_, ?_, fun t ht => (hanswers t ht).2⟩
    rw [hp₄, hp₃, hp₂, hp₁]
    rfl

end Votes

section Electors

variable {teller voter : Seat} (hf : Single C s) (ht : teller ∈ C.seats) (hv : voter ∈ C.seats)
include hf ht hv

theorem Single.verifies (h : Hash) :
    teller.policy.keys.verify (voter.policy.keys.sign h) h = true := by
  rw [hf.keyed.alike teller ht voter hv]
  exact hf.keyed.own voter hv h

theorem Single.admits {cs : List Signature} (hc : ∀ y ∈ cs, y.signer ≠ voter.replica) (h : Hash) :
    (Replica.electorate teller).admits (voter.policy.keys.sign h) cs = true := by
  have hsigner : (voter.policy.keys.sign h).signer = voter.replica := C.signs voter hv
  unfold Electorate.admits Replica.electorate
  rw [hsigner, C.knows teller ht, Bool.and_eq_true_iff]
  refine ⟨List.contains_iff_mem.mpr ?_, ?_⟩
  · rw [← hf.seated]
    exact List.mem_map.mpr ⟨voter, hv, rfl⟩
  · simpa using hc

end Electors

structure Teller (b : Block) (bs : List Block) (X : Replica → Prop) : Prop where
  kept : ∀ r signatures votes, X r → X { r with signatures, votes }
  stores : ∀ r, X r → Stores r.chain (b :: bs)
  reached : ∀ r, X r → b.view ≤ r.view
  current : ∀ r, X r → r.view ≤ b.view.next
  informed : ∀ r, X r → r.highQc.view.toNat + 1 = r.view.toNat

/-- An instance while the next leader counts votes. Only the leader, which has counted some since it
was last to count anew, takes turns that matter. -/
def CountsVotes (b : Block) (bs : List Block) (teller : Seat) (X : Replica → Prop)
    (cs : List Signature) (t : Seat) (r : Replica) : Prop :=
  (t = teller → X r ∧ Tallied (Replica.electorate teller)
    (fun y => teller.policy.keys.verify y b.hash = true) b cs r.votes) ∧
  (t ≠ teller → Resting (b :: bs) 2 r)

structure Counting (C : Cluster) (b : Block) (bs : List Block) (teller : Seat) (X : Replica → Prop)
    (cs : List Signature) (T U : Post) (B : Board) : Prop where
  each : ∀ t ∈ C.seats, CountsVotes b bs teller X cs t (B.replica t.node)
  sent : B.sent = T
  pending : B.pending = U

def votesBy (b : Block) (ts : List Seat) : List Signature :=
  ts.map fun t => t.policy.keys.sign b.hash

theorem turn_each {P' : Seat → Replica → Prop} {input : Input} (hseat : seat ∈ C.seats)
    (hs : P' seat (input.react rules seat (B.replica seat.node)).state)
    (ho : ∀ t ∈ C.seats, t ≠ seat → P' t (B.replica t.node)) :
    ∀ t ∈ C.seats, P' t ((B.turn rules (seat, input)).replica t.node) := by
  intro t ht
  by_cases hn : t.node = seat.node
  · obtain rfl := C.apart t ht seat hseat hn
    rw [B.replica_turn]
    exact hs
  · rw [Board.replica_turn_of_ne hn]
    exact ho t ht fun he => hn (he ▸ rfl)

theorem teller_resting (ha : NoCollision (b :: bs)) :
    Teller b bs fun r => Resting (b :: bs) 2 { r with votes := [] } where
  kept _ _ _ h := { h with }
  stores _ h := h.stores ha
  reached _ h := Nat.le_of_eq (congrArg View.toNat h.view.symm)
  current _ h := Nat.le_trans (Nat.le_of_eq (congrArg View.toNat h.view)) b.view.le_next
  informed _ h := h.informed

theorem teller_awaiting {b' : Block} (ha : NoCollision (b :: bs)) (hv : b'.view = b.view.next) :
    Teller b bs fun r => Awaiting (b :: bs) b' 0 { r with votes := [] } where
  kept _ _ _ h := { h with }
  stores _ h := h.stores ha
  reached _ h := Nat.le_trans b.view.le_next
    (Nat.le_of_eq (congrArg View.toNat (h.view.trans hv).symm))
  current _ h := Nat.le_of_eq (congrArg View.toNat (h.view.trans hv))
  informed _ h := h.informed

section Counters

variable {teller t : Seat} {X : Replica → Prop} {cs : List Signature} {r : Replica}
  (hX : Teller b bs X) (h : CountsVotes b bs teller X cs t r)
include hX h

theorem CountsVotes.signed (signatures : SignatureCache) :
    CountsVotes b bs teller X cs t { r with signatures } :=
  ⟨fun ht => ⟨hX.kept r signatures r.votes (h.1 ht).1, (h.1 ht).2⟩, fun ht => { h.2 ht with }⟩

theorem CountsVotes.standing (ha : NoCollision (b :: bs)) :
    Stores r.chain (b :: bs) ∧ b.view ≤ r.view ∧ r.highQc.view.toNat + 1 = r.view.toNat := by
  by_cases ht : t = teller
  · obtain ⟨hx, -⟩ := h.1 ht
    exact ⟨hX.stores r hx, hX.reached r hx, hX.informed r hx⟩
  · have hr := h.2 ht
    exact ⟨hr.stores ha, Nat.le_of_eq (congrArg View.toNat hr.view.symm), hr.informed⟩

end Counters

section Tellers

variable (rules) {teller voter : Seat} {X : Replica → Prop} {cs : List Signature} {ls : Post}
  (hf : Single C s) (ha : NoCollision (b :: bs)) (hseat : teller ∈ C.seats)
  (hled : scheduledLeader? s b.view.next = some teller.replica)
  (hsch : (s.schedule? b.view).isSome = true)
include hf ha hseat hled hsch

theorem turns_voteMail (hX : Teller b bs X) (hv : voter ∈ C.seats) (hl : VoteMail C b bs voter ls)
    (h : Counting C b bs teller X cs T U B) :
    ∃ B₁, Counting C b bs teller X cs T U B₁ ∧
      B.turns rules (ls.flatMap (Board.tasks s C.seats)) =
        B₁.turn rules (teller, .message voter.replica (.vote (ballot voter b))) := by
  have hballot : ∀ B' : Board,
      B'.turns rules ((balloting voter b).flatMap (Board.tasks s C.seats)) =
        B'.turn rules (teller, .message voter.replica (.vote (ballot voter b))) := by
    intro B'
    unfold balloting
    rw [hf.leader_eq hv, hled, Option.toList_some, List.map_singleton, List.flatMap_singleton,
      deliveries_one (m := .vote (ballot voter b)) hsch voter.replica hf hseat]
    rfl
  obtain rfl | ⟨l, hl, rfl⟩ := hl
  · exact ⟨B, h, hballot B⟩
  · obtain ⟨heach, hsent, hpending⟩ := @turns_belated C s rules B (b :: bs) b.view
      (CountsVotes b bs teller X cs) [l] (List.forall_mem_singleton.mpr hl)
      (fun _ _ signatures h => h.signed hX signatures) (fun _ _ h => h.standing hX ha) h.each
    rw [← List.singleton_append, List.flatMap_append, turns_append, hballot]
    exact ⟨_, ⟨heach, hsent.trans h.sent, hpending.trans h.pending⟩, rfl⟩

theorem voteMail_counted (hX : Teller b bs X) (hv : voter ∈ C.seats) (hl : VoteMail C b bs voter ls)
    (hc : ∀ y ∈ cs, y.signer ≠ voter.replica)
    (hq : cs.length + 1 < (Replica.electorate teller).quorum)
    (h : Counting C b bs teller X cs T U B) :
    Counting C b bs teller X (cs ++ votesBy b [voter]) T U
      (B.turns rules (ls.flatMap (Board.tasks s C.seats))) := by
  obtain ⟨B₁, h₁, he⟩ := turns_voteMail rules hf ha hseat hled hsch hX hv hl h
  obtain ⟨hx, htally⟩ := (h₁.each teller hseat).1 rfl
  obtain ⟨signatures, votes, hr, htally'⟩ := @receive_vote_short rules teller b
    (B₁.replica teller.node) voter cs (hf.verifies hseat hv b.hash) (C.signs voter hv)
    (hf.admits hseat hv hc b.hash) (hX.current _ hx)
    (hX.stores _ hx b List.mem_cons_self) htally hq
  have hreact : (Input.message voter.replica (.vote (ballot voter b))).react rules teller
      (B₁.replica teller.node) =
        { state := { B₁.replica teller.node with signatures, votes }
          effects := [.publish (.receiveVote voter.replica (ballot voter b))] } := hr
  rw [he]
  refine ⟨turn_each hseat ?_ fun t ht hne => ⟨fun h => absurd h hne, (h₁.each t ht).2⟩, ?_, ?_⟩
  · rw [hreact]
    exact ⟨fun _ => ⟨hX.kept _ _ _ hx, htally'⟩, fun h => absurd rfl h⟩
  · unfold Board.turn
    dsimp only
    rw [hreact]
    exact (List.append_nil _).trans h₁.sent
  · unfold Board.turn
    dsimp only
    rw [hreact]
    exact (List.append_nil _).trans h₁.pending

theorem answers_counted {f : Seat → Post} {ts : List Seat} (hX : Teller b bs X)
    (hv : ts ⊆ C.seats) (hl : ∀ t ∈ ts, VoteMail C b bs t (f t)) (hn : (ts.map (·.replica)).Nodup)
    (hc : ∀ y ∈ cs, y.signer ∉ ts.map (·.replica))
    (hq : cs.length + ts.length < (Replica.electorate teller).quorum)
    (h : Counting C b bs teller X cs T U B) :
    Counting C b bs teller X (cs ++ votesBy b ts) T U
      (B.turns rules ((ts.flatMap f).flatMap (Board.tasks s C.seats))) := by
  induction ts generalizing cs B with
  | nil =>
    rw [show votesBy b [] = [] from rfl, List.append_nil]
    exact h
  | cons t ts ih =>
    obtain ⟨ht, hn⟩ := List.nodup_cons.mp hn
    have hmem : t ∈ C.seats := hv List.mem_cons_self
    have hlt : cs.length + 1 < (Replica.electorate teller).quorum := by
      rw [List.length_cons] at hq
      omega
    have h₁ := voteMail_counted rules hf ha hseat hled hsch hX hmem
      (hl t List.mem_cons_self) (fun y hy he => hc y hy (he ▸ List.mem_cons_self)) hlt h
    have h₂ := ih (fun x hx => hv (List.mem_cons_of_mem _ hx))
      (fun x hx => hl x (List.mem_cons_of_mem _ hx)) hn ?_ ?_ h₁
    · rw [List.flatMap_cons, List.flatMap_append, turns_append]
      rwa [List.append_assoc] at h₂
    · intro y hy
      obtain hy | hy := List.mem_append.mp hy
      · exact fun hm => hc y hy (List.mem_cons_of_mem _ hm)
      · obtain rfl := List.mem_singleton.mp hy
        rw [show (t.policy.keys.sign b.hash).signer = t.replica from C.signs t hmem]
        exact ht
    · rw [List.length_append]
      rw [List.length_cons] at hq
      change cs.length + 1 + ts.length < _
      omega

theorem voteMail_completes (hv : voter ∈ C.seats) (hl : VoteMail C b bs voter ls)
    (hc : ∀ y ∈ cs, y.signer ≠ voter.replica)
    (hq : (Replica.electorate teller).quorum ≤ cs.length + 1) (hlt : b.view < b.view.next)
    (h : Counting C b bs teller (fun r => Resting (b :: bs) 2 { r with votes := [] }) cs T [] B) :
    ∃ b' q, Follows b' b ∧ b'.justify = some q ∧ Accepted C q ∧ b'.proposer = teller.replica ∧
      Counting C b bs teller (fun r => Awaiting (b :: bs) b' 0 { r with votes := [] }) []
        (T ++ [offering b']) [offering b']
          (B.turns rules (ls.flatMap (Board.tasks s C.seats))) := by
  obtain ⟨B₁, h₁, he⟩ := turns_voteMail rules hf ha hseat hled hsch (teller_resting ha)
    hv hl h
  obtain ⟨hx, htally⟩ := (h₁.each teller hseat).1 rfl
  have hquorum : teller.policy.quorum = (Replica.electorate teller).quorum := by
    unfold Replica.electorate
    rw [hf.keyed.quorum teller hseat, C.knows teller hseat]
  obtain ⟨b', q, hfollows, hj, hattested, hproposer, hr, htally', hposts⟩ :=
    @receive_vote_quorum rules teller bs b 2 (B₁.replica teller.node) voter cs
      (hf.verifies hseat hv b.hash) (C.signs voter hv) (hf.admits hseat hv hc b.hash) hquorum ha
      hx htally hq hlt ((hf.leader_eq hseat _).trans hled)
  refine ⟨b', q, hfollows, hj, accepted_of_attested hf.keyed hseat hattested, hproposer, ?_⟩
  rw [he]
  refine ⟨turn_each hseat ⟨fun _ => ⟨hr, htally'⟩, fun h => absurd rfl h⟩
    fun t ht hne => ⟨fun h => absurd h hne, (h₁.each t ht).2⟩, ?_, ?_⟩
  · exact congrArg₂ (· ++ ·) h₁.sent hposts
  · exact congrArg₂ (· ++ ·) h₁.pending hposts

end Tellers

/-- The seats before the one whose vote completes a quorum, this one, and those after it. -/
theorem Single.split (hf : Single C s) (hne : C.seats ≠ []) :
    ∃ done voter rest, C.seats = done ++ voter :: rest ∧
      done.length + 1 = quorumSize C.replicas.length ∧
        rest.length < quorumSize C.replicas.length := by
  have hlen : C.replicas.length = C.seats.length := by rw [← hf.seated, List.length_map]
  have hpos := List.length_pos_iff.mpr hne
  rw [hlen]
  obtain ⟨k, hk⟩ : ∃ k, quorumSize C.seats.length = k + 1 := by
    unfold quorumSize
    exact ⟨_, (Nat.sub_add_cancel (by omega)).symm⟩
  have hle : k < C.seats.length ∧ C.seats.length - (k + 1) < k + 1 := by
    unfold quorumSize at hk
    omega
  obtain ⟨voter, rest, hdrop⟩ : ∃ voter rest, C.seats.drop k = voter :: rest :=
    List.exists_cons_of_ne_nil fun h => Nat.not_le_of_lt hle.1 (List.drop_eq_nil_iff.mp h)
  have hrest := congrArg List.length hdrop
  rw [List.length_drop, List.length_cons] at hrest
  refine ⟨C.seats.take k, voter, rest, ?_, ?_, by omega⟩
  · rw [← hdrop, List.take_append_drop]
  · rw [hk, List.length_take, Nat.min_eq_left (Nat.le_of_lt hle.1)]

theorem counting_of_allVoted {teller : Seat} (h : AllVoted C s b bs B) :
    Counting C b bs teller (fun r => Resting (b :: bs) 2 { r with votes := [] }) [] B.sent []
      { B with pending := [] } := by
  refine ⟨fun t ht => ⟨fun _ => ⟨{ h.rested t ht with counted := by simp }, .fresh fun x hx => ?_⟩,
    fun _ => h.rested t ht⟩, rfl, rfl⟩
  have hv : (B.replica t.node).view = b.view := (h.rested t ht).view
  exact hv ▸ (h.rested t ht).counted x hx

section Successors

variable (rules) {teller : Seat} (hf : Single C s) (h : AllVoted C s b bs B)
  (ha : NoCollision (b :: bs))
  (hseat : teller ∈ C.seats) (hled : scheduledLeader? s b.view.next = some teller.replica)
  (hlt : b.view < b.view.next)
include hf h ha hseat hled hlt

/-- As the votes come in, a block gets proposed on top of the one that they are for. -/
theorem votes_counted :
    ∃ b' q cs, Follows b' b ∧ b'.justify = some q ∧ Accepted C q ∧ b'.proposer = teller.replica ∧
      Counting C b bs teller (fun r => Awaiting (b :: bs) b' 0 { r with votes := [] }) cs
        (B.sent ++ [offering b']) [offering b']
          (({ B with pending := [] } : Board).turns rules
            (B.pending.flatMap (Board.tasks s C.seats))) := by
  obtain ⟨schedule, hsome, -⟩ := Option.map_eq_some_iff.mp h.led
  have hsch := Option.isSome_of_eq_some hsome
  have hquorum : (Replica.electorate teller).quorum = quorumSize C.replicas.length := by
    unfold Replica.electorate
    rw [C.knows teller hseat]
  obtain ⟨done, voter, rest, hsplit, hdone, hrest⟩ := hf.split (List.ne_nil_of_mem hseat)
  rw [← hquorum] at hdone hrest
  have hmem : ∀ t, t ∈ done ∨ t = voter ∨ t ∈ rest → t ∈ C.seats := by
    intro t ht
    rw [hsplit]
    simpa using ht
  have hparts : (C.seats.map (·.replica)).Nodup := by
    rw [hf.seated]
    exact hf.replicas
  rw [hsplit, List.map_append, List.map_cons] at hparts
  obtain ⟨hn₁, hn₂, hapart⟩ := List.nodup_append.mp hparts
  obtain ⟨f, hpending, hanswer⟩ := h.pending
  -- Votes add up until one of them completes the quorum; those that come later are counted anew.
  have h₁ := answers_counted rules hf ha hseat hled hsch (teller_resting ha)
    (fun t ht => hmem t (.inl ht)) (fun t ht => hanswer t (hmem t (.inl ht))) hn₁ (by simp)
    (by simp only [List.length_nil]; omega) (counting_of_allVoted h)
  have hlen : (votesBy b done).length = done.length := List.length_map _
  obtain ⟨b', q, hfollows, hj, hacc, hproposer, h₂⟩ := voteMail_completes rules hf ha hseat
    hled hsch (hmem voter (.inr (.inl rfl))) (hanswer voter (hmem voter (.inr (.inl rfl))))
    (fun y hy => by
      obtain ⟨t, ht, rfl⟩ := List.mem_map.mp hy
      rw [show (t.policy.keys.sign b.hash).signer = t.replica from C.signs t (hmem t (.inl ht))]
      exact hapart _ (List.mem_map.mpr ⟨t, ht, rfl⟩) _ List.mem_cons_self)
    (by rw [List.nil_append, hlen]; omega) hlt h₁
  have hview : b.view.next = b'.view := next_of_follows hfollows.view
  have h₃ := answers_counted rules hf ha hseat hled hsch (teller_awaiting ha hview.symm)
    (fun t ht => hmem t (.inr (.inr ht))) (fun t ht => hanswer t (hmem t (.inr (.inr ht))))
    (List.nodup_cons.mp hn₂).2 (by simp) (by simpa using hrest) h₂
  refine ⟨b', q, [] ++ votesBy b rest, hfollows, hj, hacc, hproposer, ?_⟩
  have hflat : C.seats.flatMap f = done.flatMap f ++ (f voter ++ rest.flatMap f) := by
    rw [← List.flatMap_cons, ← List.flatMap_append, ← hsplit]
  rw [hpending, hflat, List.flatMap_append, List.flatMap_append, turns_append, turns_append]
  exact h₃

/-- In the tick after everyone voted, the next leader gets the votes and proposes. -/
theorem proposed_of_allVoted : ∃ b', Proposed C s b' b bs (B.tick rules s C.seats) := by
  obtain ⟨b', q, cs, hfollows, hj, hacc, hproposer, hc⟩ :=
    votes_counted rules hf h ha hseat hled hlt
  have hview : b.view.next = b'.view := next_of_follows hfollows.view
  have hother : ∀ t ∈ C.seats, t ≠ teller → b'.proposer ≠ t.replica :=
    fun t ht hne he => hne (hf.injective ht hseat (he.symm.trans hproposer))
  unfold Board.tick
  rw [turns_append]
  generalize Board.turns rules _ (B.pending.flatMap _) = B₁ at hc ⊢
  have hstate : ∀ t ∈ C.seats, t = teller ∧ Awaiting (b :: bs) b' 0 (B₁.replica t.node) ∨
      t ≠ teller ∧ Resting (b :: bs) 2 (B₁.replica t.node) := by
    intro t ht
    by_cases he : t = teller
    · obtain ⟨hr, htally⟩ := (hc.each t ht).1 he
      have hv : (B₁.replica t.node).view = b'.view := hr.view
      refine .inl ⟨he, { hr with counted := fun x hx => ?_ }⟩
      rw [hv, ← hview]
      exact Nat.lt_of_le_of_lt (htally.bounded x hx) hlt
    · exact .inr ⟨he, (hc.each t ht).2 he⟩
  obtain ⟨hr, hs, hp⟩ := @timers_patient C s rules B₁ hf fun t ht => by
    have htime := hf.timeout t ht
    obtain ⟨-, hr⟩ | ⟨-, hr⟩ := hstate t ht
    · have hle := hr.patient
      omega
    · have hle := hr.patient
      omega
  refine ⟨b', .grow h.line hfollows, ⟨q, hj, hacc⟩, ?_, fun t ht => ?_, ?_,
    .zero, [], [], hp.trans hc.pending, Nat.zero_le _, fun _ _ => Nat.zero_le _, by simp⟩
  · rw [← hview, hled, hproposer]
  · rw [hr t ht]
    obtain ⟨-, hw⟩ | ⟨hne, hw⟩ := hstate t ht
    · exact .inl hw.tick
    · exact .inr ⟨hother t ht hne, hw.tick⟩
  · rw [hs, hc.sent, offers_append, ← List.cons_append, h.recorded]
    exact List.reverse_cons.symm

end Successors

def overture (rules : Rules) (t : Seat) : Post :=
  posts t.replica (Input.react rules t .start {}).effects

theorem start_awaits {teller t : Seat} (hf : Single C s) (hseat : teller ∈ C.seats)
    (ht : t ∈ C.seats) (hled : scheduledLeader? s View.zero.next = some teller.replica) :
    Awaiting [.genesis] (firstBlock teller) 1 (Input.react rules t .start {}).state ∧
      (t = teller → overture rules t = [offering (firstBlock teller)]) ∧
      (t ≠ teller → ∃ l, Belated C [.genesis] View.zero.next l ∧ overture rules t = [l]) := by
  have hl : t.leader View.zero.next = some teller.replica := (hf.leader_eq ht _).trans hled
  by_cases he : t = teller
  · subst he
    obtain ⟨hr, hposts⟩ := start_leading hl
    exact ⟨hr.mono (Nat.zero_le 1), fun _ => hposts, fun h => absurd rfl h⟩
  · have hne : teller.replica ≠ t.replica := fun h => he (hf.injective ht hseat h.symm)
    obtain ⟨hr, hposts⟩ := start_following (b := firstBlock teller) hl hne rfl rfl
    refine ⟨hr.mono (Nat.zero_le 1), fun h => absurd h he, fun _ => ⟨_, ?_, hposts⟩⟩
    refine ⟨t, teller.replica, View.zero.next, .genesis, rfl, View.next_ne_zero _, fun u hu => ?_,
      by decide⟩
    exact ⟨accepted_genesis u hu, .genesis, List.mem_singleton.mpr rfl, rfl, rfl⟩

/-- The block of the first view is on its way among certificates that are no news. -/
theorem start_posts {teller : Seat} (hf : Single C s) (hseat : teller ∈ C.seats)
    (hled : scheduledLeader? s View.zero.next = some teller.replica) :
    ∃ pre post, C.seats.flatMap (overture rules) = pre ++ offering (firstBlock teller) :: post ∧
      ∀ l ∈ pre ++ post, Belated C [.genesis] View.zero.next l := by
  have hawaits := fun t ht => @start_awaits C s rules teller t hf hseat ht hled
  obtain ⟨pre, post, hsplit⟩ := List.append_of_mem hseat
  have hteller : teller ∉ pre ++ post := by
    have hn := List.Nodup.of_map _ hf.nodes
    rw [hsplit] at hn
    exact (List.nodup_cons.mp (List.nodup_middle.mp hn)).1
  refine ⟨pre.flatMap (overture rules), post.flatMap (overture rules), ?_, fun l hl => ?_⟩
  · rw [hsplit, List.flatMap_append, List.flatMap_cons, (hawaits teller hseat).2.1 rfl]
    rfl
  · rw [← List.flatMap_append] at hl
    obtain ⟨t, ht, hl⟩ := List.mem_flatMap.mp hl
    have hmem : t ∈ C.seats := by
      rw [hsplit]
      exact (List.perm_middle.mem_iff).mpr (List.mem_cons_of_mem _ ht)
    obtain ⟨l', hl', he⟩ := (hawaits t hmem).2.2 fun he => hteller (he ▸ ht)
    rw [he] at hl
    exact List.mem_singleton.mp hl ▸ hl'

/-- At the start, the leader of the first view proposes. -/
theorem proposed_start {leader : ReplicaId} (hf : Single C s)
    (hled : scheduledLeader? s View.zero.next = some leader) :
    ∃ b, Proposed C s b .genesis [] (Board.start rules C.seats) := by
  obtain ⟨teller, hseat, rfl⟩ := hf.seat_of_led hled
  obtain ⟨hstate, -, hsent, hpending⟩ := @sweep rules C.seats hf.nodes .initial .start
  obtain ⟨pre, post, hposts, hlate⟩ := @start_posts C s rules teller hf hseat hled
  have hpre := offers_belated fun l hl => hlate l (List.mem_append_left _ hl)
  have hpost := offers_belated fun l hl => hlate l (List.mem_append_right _ hl)
  have hstart : ∀ t ∈ C.seats, Awaiting [.genesis] (firstBlock teller) 1
      ((Board.start rules C.seats).replica t.node) := by
    intro t ht
    rw [show (Board.start rules C.seats).replica t.node = _ from hstate t ht]
    exact (start_awaits hf hseat ht hled).1
  refine ⟨firstBlock teller, .grow .root (firstBlock_follows teller),
    ⟨.genesis, rfl, accepted_genesis⟩,
    hled, fun t ht => .inl (hstart t ht), ?_, View.zero.next, pre, post,
    hpending.trans hposts, Nat.le_refl _,
    fun t ht => Nat.le_of_eq (congrArg View.toNat (hstart t ht).view.symm), hlate⟩
  rw [show (Board.start rules C.seats).sent = _ from hsent.trans hposts, offers_append, hpre,
    offers_offering, hpost]
  rfl

end Equivocation.Proofs.Rounds
