import Equivocation.Proofs.Provenance
import Mathlib.Logic.Function.Basic

namespace Equivocation.Proofs.Boards

open History Turns Lives Commits States Simulation Deployment Routing Steps Provenance

structure Board where
  replica : NodeId → Replica
  sent : Post
  pending : Post

abbrev Task := Seat × Input

namespace Board

variable (rules : Rules) (s : Scenario) (seats : List Seat)

def turn (B : Board) (task : Task) : Board :=
  let t := task.2.react rules task.1 (B.replica task.1.node)
  { replica := Function.update B.replica task.1.node t.state
    sent := B.sent ++ posts task.1.replica t.effects
    pending := B.pending ++ posts task.1.replica t.effects }

def turns (B : Board) (tasks : List Task) : Board := tasks.foldl (turn rules) B

/-- Where nobody is cut off, a message of a scheduled view reaches everyone it is for. -/
def reached (v : View) (whom : Recipients) : List Seat :=
  if (s.schedule? v).isSome then seats.filter fun t => whom.includes t.replica else []

def tasks (l : ReplicaId × Recipients × Message) : List Task :=
  (reached s seats l.2.2.view l.2.1).map fun t => (t, .message l.1 l.2.2)

def tick (B : Board) : Board :=
  turns rules { B with pending := [] }
    (B.pending.flatMap (tasks s seats) ++ seats.map fun t => (t, .tick))

def initial : Board := ⟨fun _ => {}, [], []⟩

@[simp] theorem replica_initial (n : NodeId) : initial.replica n = {} := rfl

def start : Board := turns rules initial (seats.map fun t => (t, .start))

end Board

variable {C : Cluster} {rules : Rules} {wiring : Wiring} {config : RunConfig} {s : Scenario}
  {run run' : Run rules.protocol} {i : Instance rules.protocol} {B : Board} {input : Input}
  {seat : Seat} {seats : List Seat} {tasks : List Task} {S : List Envelope}

@[simp] theorem Board.replica_turn (B : Board) (seat : Seat) (input : Input) :
    (B.turn rules (seat, input)).replica seat.node =
      (input.react rules seat (B.replica seat.node)).state :=
  Function.update_self seat.node _ B.replica

theorem Board.replica_turn_of_ne {n : NodeId} (hn : n ≠ seat.node) :
    (B.turn rules (seat, input)).replica n = B.replica n :=
  Function.update_of_ne hn _ B.replica

theorem turns_append (B : Board) (tasks more : List Task) :
    B.turns rules (tasks ++ more) = (B.turns rules tasks).turns rules more :=
  List.foldl_append

/-- Seats at different nodes take their turns without regard to each other. -/
theorem sweep (hn : (seats.map (·.node)).Nodup) (B : Board) (input : Input) :
    (∀ t ∈ seats, (B.turns rules (seats.map fun t => (t, input))).replica t.node =
      (input.react rules t (B.replica t.node)).state) ∧
    (∀ n, n ∉ seats.map (·.node) →
      (B.turns rules (seats.map fun t => (t, input))).replica n = B.replica n) ∧
    (B.turns rules (seats.map fun t => (t, input))).sent = B.sent ++ seats.flatMap (fun t =>
      posts t.replica (input.react rules t (B.replica t.node)).effects) ∧
    (B.turns rules (seats.map fun t => (t, input))).pending = B.pending ++ seats.flatMap (fun t =>
      posts t.replica (input.react rules t (B.replica t.node)).effects) := by
  induction seats generalizing B with
  | nil => simp [Board.turns]
  | cons seat seats ih =>
    obtain ⟨hseat, hn⟩ := List.nodup_cons.mp hn
    have hother := fun n => @Board.replica_turn_of_ne rules B input seat n
    have hrest : ∀ t ∈ seats, (B.turn rules (seat, input)).replica t.node = B.replica t.node :=
      fun t ht => hother t.node fun he => hseat (List.mem_map.mpr ⟨t, ht, he⟩)
    have hflat : seats.flatMap (fun t => posts t.replica
        (input.react rules t ((B.turn rules (seat, input)).replica t.node)).effects) =
        seats.flatMap fun t => posts t.replica (input.react rules t (B.replica t.node)).effects :=
      List.flatMap_congr fun t ht => by rw [hrest t ht]
    obtain ⟨hin, hout, hsent, hpending⟩ := ih hn (B.turn rules (seat, input))
    rw [hflat] at hsent hpending
    refine ⟨fun t ht => ?_, fun n hne => ?_, ?_, ?_⟩
    · obtain rfl | ht := List.mem_cons.mp ht
      · exact (hout t.node hseat).trans (B.replica_turn t input)
      · exact (hin t ht).trans (by rw [hrest t ht])
    · obtain ⟨hne, hns⟩ := not_or.mp fun h => hne (List.mem_cons.mpr h)
      exact (hout n hns).trans (hother n hne)
    · rw [List.flatMap_cons, ← List.append_assoc]
      exact hsent
    · rw [List.flatMap_cons, ← List.append_assoc]
      exact hpending

structure Shows (C : Cluster) (run : Run rules.protocol) (B : Board) : Prop where
  standing : CorrectSenders C run
  states : ∀ i ∈ run.instances, i.state = B.replica i.seat.node
  commits : ∀ i ∈ run.instances, i.read.commits = i.state.committed
  sent : posted run = B.sent
  pending : run.network.pending.map (fun e => (e.origin, e.recipients, e.message)) = B.pending

theorem Shows.of_eq (h : Shows C run B) (hi : run'.instances = run.instances)
    (hn : run'.network = run.network) : Shows C run' B where
  standing := h.standing.of_eq hi hn
  states := by rw [hi]; exact h.states
  commits := by rw [hi]; exact h.commits
  sent := by
    rw [← h.sent]
    unfold posted
    rw [hn]
  pending := by rw [hn]; exact h.pending

theorem Shows.batch (h : Shows C run B) (wiring : Wiring) (records : List LogRecord) :
    Shows C { run with network := (Network.nextBatch wiring run.network).2, records }
      { B with pending := [] } where
  standing := { h.standing.batch wiring with }
  states := h.states
  commits := h.commits
  sent := h.sent
  pending := rfl

theorem Shows.read (h : Shows C run B) (config : RunConfig) :
    Shows C (run.readEvents config) B where
  standing := h.standing.read config
  states i hi := by
    obtain ⟨j, hj, rfl⟩ := List.mem_map.mp hi
    exact h.states j hj
  commits i hi := by
    obtain ⟨j, hj, rfl⟩ := List.mem_map.mp hi
    exact (List.append_nil _).trans (h.commits j hj)
  sent := h.sent
  pending := h.pending

theorem took_shows (h : Shows C run B) (hi : i ∈ run.instances) (hd : Due wiring run i input) :
    Shows C (took run i.seat (input.react rules i.seat i.state))
      (B.turn rules (i.seat, input)) := by
  obtain ⟨H', hm⟩ := due_moves hd
  have hstate := h.states i hi
  refine ⟨h.standing.took hi hd, fun j hj => ?_, fun j hj => ?_, ?_, ?_⟩
  · obtain ⟨k, hk, hs, ⟨hn, he, -⟩ | ⟨hn, rfl⟩⟩ := mem_took hj
    · rw [he, hs, hn, hstate, B.replica_turn]
    · exact (h.states j hk).trans (Board.replica_turn_of_ne hn).symm
  · obtain ⟨k, hk, hs, ⟨hn, he, -, hc⟩ | ⟨hn, rfl⟩⟩ := mem_took hj
    · have hki : k.state = i.state := by rw [h.states k hk, hn, hstate]
      rw [hc, he, h.commits k hk, hki]
      exact (moves_committed hm).symm
    · exact h.commits j hk
  · rw [posted_took, h.sent, hstate]
    rfl
  · unfold took
    rw [foldl_post]
    dsimp only
    rw [List.map_append, letters_posts, h.pending, hstate]
    rfl

structure Live (S : List Envelope) (run : Run rules.protocol) : Prop where
  started : ∀ i ∈ run.instances, i.state.view ≠ .zero
  since : S ⊆ run.network.sent

theorem Live.took {S : List Envelope} (h : Live S run) (hi : i ∈ run.instances)
    (hd : Due wiring run i input) :
    Live S (took run i.seat (input.react rules i.seat i.state)) where
  started := started_took hd (h.started i hi) h.started
  since := List.Subset.trans h.since (subset_sent_took _ _)

theorem sequence_shows {α β : Type} {step : β → Run rules.protocol → Run.Step rules.protocol}
    {f : α → β} {task : α → Task} {P : Run rules.protocol → Prop} {xs : List α}
    (hs : ∀ x ∈ xs, ∀ run B, P run → Shows C run B →
      ∃ run', step (f x) run = .ok run' ∧ P run' ∧ Shows C run' (B.turn rules (task x)))
    (hp : P run) (h : Shows C run B) :
    ∃ run', Run.sequence step (xs.map f) run = .ok run' ∧ P run' ∧
      Shows C run' (B.turns rules (xs.map task)) := by
  induction xs generalizing run B with
  | nil => exact ⟨run, rfl, hp, h⟩
  | cons x xs ih =>
    obtain ⟨run₁, h₁, hp₁, hs₁⟩ := hs x List.mem_cons_self run B hp h
    obtain ⟨run₂, h₂, hp₂, hs₂⟩ := ih (fun y hy => hs y (List.mem_cons_of_mem _ hy)) hp₁ hs₁
    exact ⟨run₂, by rw [List.map_cons, Run.sequence, h₁]; exact h₂, hp₂, hs₂⟩

theorem act_shows {turn : Seat → Replica → Turn Replica}
    (ht : ∀ seat r, turn seat r = input.react rules seat r) (hseat : seat ∈ C.seats)
    (hd : ∀ i ∈ run.instances, i.seat = seat → Due wiring run i input) (h : Shows C run B) :
    ∃ i ∈ run.instances, i.seat = seat ∧ Due wiring run i input ∧
      run.act seat.node turn = .ok (took run seat (input.react rules seat i.state)) ∧
      Shows C (took run seat (input.react rules seat i.state)) (B.turn rules (seat, input)) := by
  have hapart : ∀ i ∈ run.instances, i.seat.node = seat.node → i.seat = seat :=
    fun i hi hn => C.apart _ (h.standing.mem_seats hi) _ hseat hn
  obtain ⟨hno, -⟩ | ⟨i, hi, hn, hdue, he⟩ := act_due ht fun i hi hn => hd i hi (hapart i hi hn)
  · rw [← h.standing.seats] at hseat
    obtain ⟨i, hi, rfl⟩ := List.mem_map.mp hseat
    exact absurd rfl (hno i hi)
  · obtain rfl := hapart i hi hn
    exact ⟨i, hi, rfl, hdue, he, took_shows h hi hdue⟩

structure Joined (C : Cluster) (wiring : Wiring) : Prop where
  injection : wiring.injection = none
  nodes : wiring.nodes = C.seats.map fun t => (t.node, t.replica)
  connected : ∀ v schedule, wiring.scenario.schedule? v = some schedule →
    ∀ t ∈ C.seats, ∀ u ∈ C.seats, schedule.connected t.node u.node = true

def addressed (s : Scenario) (seats : List Seat) (es : List Envelope) : List (Envelope × Seat) :=
  es.flatMap fun e => (Board.reached s seats e.message.view e.recipients).map (e, ·)

theorem timers_shows (wiring : Wiring) (hl : Live S run) (h : Shows C run B) :
    ∃ run', Run.sequence (fun n => Run.act n rules.protocol.tick) run.nodes run = .ok run' ∧
      Live S run' ∧ Shows C run' (B.turns rules (C.seats.map fun t => (t, .tick))) := by
  have hturn : ∀ seat r, rules.protocol.tick seat r = Input.tick.react rules seat r :=
    fun _ _ => rfl
  have hnodes : run.nodes = C.seats.map (·.node) := by
    rw [← h.standing.seats, List.map_map]
    rfl
  rw [hnodes]
  refine sequence_shows (fun t ht run B hl h => ?_) hl h
  obtain ⟨i, hmem, rfl, hd, hact, hs⟩ :=
    act_shows hturn ht (fun i hi _ => (.tick (hl.started i hi) : Due wiring _ i .tick)) h
  exact ⟨_, hact, hl.took hmem hd, hs⟩

theorem deliver_eq (d : Delivery) (run : Run rules.protocol) :
    ∃ noted : Run rules.protocol, noted.instances = run.instances ∧
      noted.network = run.network ∧
        Run.deliver d run =
          noted.act d.receiver fun seat r => rules.protocol.receive seat d.origin d.message r := by
  refine ⟨_, ?_, ?_, rfl⟩
  · rfl
  · rfl

theorem tasks_addressed (s : Scenario) (seats : List Seat) (es : List Envelope) :
    (es.map fun e => (e.origin, e.recipients, e.message)).flatMap (Board.tasks s seats) =
      (addressed s seats es).map fun x => (x.2, .message x.1.origin x.1.message) := by
  unfold addressed
  rw [List.map_flatMap, List.flatMap_map]
  refine List.flatMap_congr fun e _ => ?_
  unfold Board.tasks
  rw [List.map_map]
  rfl

section Joint

variable (hj : Joined C wiring)
include hj

theorem receivers_eq {e : Envelope} (he : ∃ t ∈ C.seats, t.node = e.sender ∧ t.replica = e.origin) :
    receivers wiring e =
      (Board.reached wiring.scenario C.seats e.message.view e.recipients).map (·.node) := by
  obtain ⟨t, ht, hs, -⟩ := he
  unfold receivers Network.addressees Board.reached
  rw [carried_eq hj.injection, hj.nodes, List.filter_map, List.map_map]
  cases hsch : wiring.scenario.schedule? e.message.view with
  | none => rfl
  | some schedule =>
    dsimp only
    rw [List.filter_eq_self.mpr]
    · rfl
    · intro n hmem
      obtain ⟨u, hu, rfl⟩ := List.mem_map.mp hmem
      exact hs ▸ hj.connected _ _ hsch t ht u (List.mem_filter.mp hu).1

theorem deliveries_addressed {es : List Envelope}
    (hs : ∀ e ∈ es, ∃ t ∈ C.seats, t.node = e.sender ∧ t.replica = e.origin) :
    es.flatMap (Routing.deliveries wiring) =
      (addressed wiring.scenario C.seats es).map fun x =>
        ⟨x.1.ordinal, x.2.node, x.1.origin, x.1.message⟩ := by
  unfold addressed
  rw [List.map_flatMap]
  refine List.flatMap_congr fun e he => ?_
  unfold Routing.deliveries
  rw [receivers_eq hj (hs e he), carried_eq hj.injection, List.map_map, List.map_map]
  rfl

theorem deliver_shows {es : List Envelope} (hes : es ⊆ S) {x : Envelope × Seat}
    (hx : x ∈ addressed wiring.scenario C.seats es) (hl : Live S run) (h : Shows C run B) :
    ∃ run', Run.deliver ⟨x.1.ordinal, x.2.node, x.1.origin, x.1.message⟩ run = .ok run' ∧
      Live S run' ∧ Shows C run' (B.turn rules (x.2, .message x.1.origin x.1.message)) := by
  obtain ⟨e, he, hx⟩ := List.mem_flatMap.mp hx
  obtain ⟨t, ht, rfl⟩ := List.mem_map.mp hx
  have hsent := hl.since (hes he)
  have hseat : t ∈ C.seats := by
    unfold Board.reached at ht
    split at ht
    · exact (List.mem_filter.mp ht).1
    · cases ht
  have hreach : t.node ∈ receivers wiring e := by
    rw [receivers_eq hj (h.standing.senders e hsent)]
    exact List.mem_map.mpr ⟨t, ht, rfl⟩
  have hturn : ∀ seat r, rules.protocol.receive seat e.origin e.message r =
      (Input.message e.origin e.message).react rules seat r := fun _ _ => rfl
  obtain ⟨noted, hi, hn, he'⟩ := deliver_eq ⟨e.ordinal, t.node, e.origin, e.message⟩ run
  have hl' : Live S noted := ⟨hi ▸ hl.started, hn ▸ hl.since⟩
  have hs' : Shows C noted B := h.of_eq hi hn
  have hcarried := carried_eq hj.injection e
  obtain ⟨i, hmem, rfl, hd, hact, hs⟩ := act_shows hturn hseat (fun i _ hit => by
    have hd := @Due.message rules wiring noted i e (hl'.since (hes he)) (hit ▸ hreach)
      (hcarried ▸ h.standing.possible e hsent)
    rw [hcarried] at hd
    exact hd) hs'
  exact ⟨_, he'.trans hact, hl'.took hmem hd, hs⟩

theorem deliveries_shows {es : List Envelope} (hes : es ⊆ S) (hl : Live S run)
    (h : Shows C run B) :
    ∃ run', Run.sequence Run.deliver (es.flatMap (Routing.deliveries wiring)) run = .ok run' ∧
      Live S run' ∧
        Shows C run' (B.turns rules ((es.map fun e => (e.origin, e.recipients, e.message)).flatMap
          (Board.tasks wiring.scenario C.seats))) := by
  rw [deliveries_addressed hj fun e he => h.standing.senders e (hl.since (hes he)),
    tasks_addressed]
  exact sequence_shows (fun x hx _ _ hl h => deliver_shows hj hes hx hl h) hl h

theorem tick_shows (hl : Live [] run) (h : Shows C run B) :
    ∃ run', Run.tick config wiring run = .ok run' ∧ Live [] run' ∧
      Shows C run' (B.tick rules wiring.scenario C.seats) := by
  have hb := h.batch wiring (run.records ++ (Network.nextBatch wiring run.network).1.remarks)
  have hlive : Live run.network.sent { run with
      network := (Network.nextBatch wiring run.network).2
      records := run.records ++ (Network.nextBatch wiring run.network).1.remarks } :=
    ⟨hl.started, List.Subset.refl _⟩
  obtain ⟨run₁, h₁, hl₁, hs₁⟩ := deliveries_shows hj h.standing.pending hlive hb
  rw [← deliveries_nextBatch] at h₁
  obtain ⟨run₂, h₂, hl₂, hs₂⟩ := timers_shows wiring hl₁ hs₁
  have hs₃ := hs₂.read config
  rw [h.pending, ← turns_append] at hs₃
  refine ⟨{ run₂.readEvents config with ticks := (run₂.readEvents config).ticks + 1 }, ?_,
    ⟨fun i hi => ?_, List.nil_subset _⟩, hs₃.of_eq rfl rfl⟩
  · unfold Run.tick
    dsimp only
    rw [h₁]
    dsimp only
    rw [h₂]
  · obtain ⟨j, hj, rfl⟩ := List.mem_map.mp hi
    exact hl₂.started j hj

/-- A run without a deadline ends after some ticks, before its budget only when it is finished. -/
theorem loop_shows (hd : config.deadlinePassed = false) (budget : Nat) (hl : Live [] run)
    (h : Shows C run B) :
    ∃ last k, Run.loop config wiring budget run = .ok last ∧ k ≤ budget ∧
      Shows C last ((Board.tick rules wiring.scenario C.seats)^[k] B) ∧
        (k < budget → last.finished wiring = true) := by
  induction budget generalizing run B with
  | zero => exact ⟨run, 0, rfl, Nat.le_refl _, h, fun hk => absurd hk (Nat.lt_irrefl _)⟩
  | succ budget ih =>
    rw [Run.loop, hd]
    by_cases hf : run.finished wiring = true
    · exact ⟨run, 0, by simp [hf], Nat.zero_le _, h, fun _ => hf⟩
    · obtain ⟨run₁, he, hl₁, h₁⟩ := @tick_shows C rules wiring config run B hj hl h
      obtain ⟨last, k, hlast, hk, hs, hfin⟩ := ih hl₁ h₁
      have hfin' : k + 1 < budget + 1 → last.finished wiring = true :=
        fun hlt => hfin (Nat.lt_of_succ_lt_succ hlt)
      refine ⟨last, k + 1, ?_, Nat.succ_le_succ hk, hs, hfin'⟩
      rw [if_neg (by simp), if_neg hf, he]
      exact hlast

end Joint

theorem finished_shows (h : Shows C run B) (hf : run.finished wiring = true) {t : Seat}
    (ht : t ∈ C.seats) : wiring.scenario.lastView < (B.replica t.node).view := by
  rw [← h.standing.seats] at ht
  obtain ⟨i, hi, rfl⟩ := List.mem_map.mp ht
  rw [← h.states i hi]
  exact of_decide_eq_true (List.all_eq_true.mp hf i hi)

theorem starts_shows (wiring : Wiring) (h : Shows C run .initial) :
    ∃ run', Run.sequence (fun n => Run.act n rules.protocol.start) run.nodes run = .ok run' ∧
      Shows C run' (Board.start rules C.seats) := by
  have hturn : ∀ seat r, rules.protocol.start seat r = Input.start.react rules seat r := by
    simp only [Rules.protocol, Input.react, implies_true]
  have hnodes : run.nodes = C.seats.map (·.node) := by
    rw [← h.standing.seats, List.map_map]
    rfl
  have hstep : ∀ t ∈ C.seats, ∀ (run : Run rules.protocol) B, True → Shows C run B →
      ∃ run', run.act t.node rules.protocol.start = .ok run' ∧ True ∧
        Shows C run' (B.turn rules (t, .start)) := by
    intro t ht run B _ h
    obtain ⟨i, -, -, -, hact, hs⟩ :=
      act_shows hturn ht (fun i _ _ => (.start : Due wiring _ i .start)) h
    exact ⟨_, hact, trivial, hs⟩
  have hall : ∃ run', Run.sequence (fun n => Run.act n rules.protocol.start)
      (C.seats.map (·.node)) run = .ok run' ∧ True ∧
        Shows C run' (Board.start rules C.seats) := sequence_shows hstep trivial h
  rw [hnodes]
  obtain ⟨run', he, -, hs⟩ := hall
  exact ⟨run', he, hs⟩

section Runs

variable {scheme : Scheme} (hv : config.validate s = .ok ())

theorem opened_shows (rules : Rules) :
    Shows (cluster scheme s config hv) (opened scheme s config rules.protocol) .initial where
  standing := opened_correctSenders hv rules
  states i hi := opened_created rules i hi
  commits i hi := by
    obtain ⟨x, -, rfl⟩ := List.mem_map.mp hi
    rfl
  sent := rfl
  pending := rfl

end Runs

end Equivocation.Proofs.Boards
