import Equivocation.Network
import Mathlib.Data.List.Basic
import Mathlib.Data.List.Nodup

namespace Equivocation.Proofs.Routing

section Batches

variable (wiring : Wiring)

def carried (e : Envelope) : Message := (Network.replacement? wiring e).getD e.message

def receivers (e : Envelope) : List NodeId :=
  match wiring.scenario.schedule? (carried wiring e).view with
  | none => []
  | some schedule => (Network.addressees wiring e).filter fun n => schedule.connected e.sender n

def deliveries (e : Envelope) : List Delivery :=
  (receivers wiring e).map fun n => ⟨e.ordinal, n, e.origin, carried wiring e⟩

variable {wiring} {e : Envelope} {d : Delivery} {net : Network}

theorem carried_eq (hi : wiring.injection = none) (e : Envelope) :
    carried wiring e = e.message := by
  unfold carried Network.replacement?
  rw [hi]
  rfl

theorem carried_cases (wiring : Wiring) (e : Envelope) :
    carried wiring e = e.message ∨
      ∃ i, wiring.injection = some i ∧ i.ordinal = e.ordinal ∧
        carried wiring e = i.replacement := by
  unfold carried Network.replacement?
  cases wiring.injection with
  | none => exact .inl rfl
  | some i =>
    dsimp only
    split
    · rename_i h
      exact .inr ⟨i, rfl, h, rfl⟩
    · exact .inl rfl

theorem carried_injected {i : Injection} (hi : wiring.injection = some i)
    (ho : e.ordinal = i.ordinal) : carried wiring e = i.replacement := by
  unfold carried Network.replacement?
  rw [hi]
  dsimp only
  rw [if_pos ho.symm]
  rfl

theorem mem_deliveries :
    d ∈ deliveries wiring e ↔
      ∃ n ∈ receivers wiring e, d = ⟨e.ordinal, n, e.origin, carried wiring e⟩ := by
  unfold deliveries
  rw [List.mem_map]
  simp only [eq_comm]

theorem scheduled_of_receiver {n : NodeId} (hn : n ∈ receivers wiring e) :
    ∃ schedule, wiring.scenario.schedule? (carried wiring e).view = some schedule := by
  unfold receivers at hn
  split at hn
  · cases hn
  · exact ⟨_, ‹_›⟩

theorem node_of_receiver {n : NodeId} (hn : n ∈ receivers wiring e) :
    ∃ r, (n, r) ∈ wiring.nodes ∧ e.recipients.includes r = true := by
  unfold receivers at hn
  split at hn
  · cases hn
  · obtain ⟨⟨m, r⟩, hm, rfl⟩ := List.mem_map.mp (List.mem_filter.mp hn).1
    obtain ⟨hm, hr⟩ := List.mem_filter.mp hm
    exact ⟨r, hm, hr⟩

theorem foldl_append_deliveries (bs : List Network.Batch) (b : Network.Batch) :
    (bs.foldl .append b).deliveries = b.deliveries ++ bs.flatMap (·.deliveries) := by
  induction bs generalizing b with
  | nil => simp
  | cons x bs ih =>
    rw [List.foldl_cons, ih, List.flatMap_cons, Network.Batch.append, List.append_assoc]

theorem foldl_append_log (bs : List Network.Batch) (b : Network.Batch) :
    (bs.foldl .append b).log = b.log ++ bs.flatMap (·.log) := by
  induction bs generalizing b with
  | nil => simp
  | cons x bs ih =>
    rw [List.foldl_cons, ih, List.flatMap_cons, Network.Batch.append, List.append_assoc]

theorem foldl_append_injected (bs : List Network.Batch) (c : Network.Batch) :
    (bs.foldl .append c).injected = (c.injected || bs.any (·.injected)) := by
  induction bs generalizing c with
  | nil => simp
  | cons b bs ih =>
    rw [List.foldl_cons, ih, List.any_cons, Network.Batch.append, Bool.or_assoc]

theorem flatMap_route {ns : List NodeId} (schedule : ViewSchedule) (m : Message) (injected : Bool) :
    (ns.map (Network.route schedule e m injected)).flatMap (·.deliveries) =
      (ns.filter fun n => schedule.connected e.sender n).map
        fun n => ⟨e.ordinal, n, e.origin, m⟩ := by
  induction ns with
  | nil => rfl
  | cons n ns ih =>
    rw [List.map_cons, List.flatMap_cons, ih, List.filter_cons]
    unfold Network.route
    cases schedule.connected e.sender n <;> rfl

theorem delivered_route {schedule : ViewSchedule} {m : Message} {injected : Bool} {k : Nat}
    {a n r : NodeId} :
    .delivered k a n ∈ (Network.route schedule e m injected r).log ↔
      schedule.connected e.sender r = true ∧ e.ordinal = k ∧ e.sender = a ∧ r = n := by
  unfold Network.route
  cases schedule.connected e.sender r with
  | false => simp
  | true => simp [eq_comm]

theorem deliveries_resolve (e : Envelope) :
    (Network.resolve wiring e).deliveries = deliveries wiring e := by
  have hs : ∀ b : Network.Batch, ∀ c : Bool, b.deliveries = [] →
      ((if c then b else {} : Network.Batch)).deliveries = [] := by
    intro b c hb
    cases c
    · rfl
    · exact hb
  unfold Network.resolve deliveries receivers carried
  dsimp only
  rw [Network.Batch.append, hs _ _ rfl, List.nil_append]
  cases wiring.scenario.schedule? _ with
  | none => rfl
  | some schedule =>
    dsimp only
    rw [foldl_append_deliveries, flatMap_route]
    rfl

theorem log_resolve (wiring : Wiring) (e : Envelope) :
    (Network.resolve wiring e).log =
      (if (Network.replacement? wiring e).isSome then [.injected e.ordinal (carried wiring e)]
        else []) ++
      match wiring.scenario.schedule? (carried wiring e).view with
      | none => [.unscheduled e.ordinal (carried wiring e).view]
      | some schedule => (Network.addressees wiring e).flatMap fun n =>
        (Network.route schedule e (carried wiring e)
          (Network.replacement? wiring e).isSome n).log := by
  unfold Network.resolve carried
  dsimp only
  rw [Network.Batch.append]
  cases wiring.scenario.schedule? _ with
  | none => cases (Network.replacement? wiring e).isSome <;> rfl
  | some schedule =>
    dsimp only
    rw [foldl_append_log, List.nil_append, List.flatMap_map]
    cases (Network.replacement? wiring e).isSome <;> rfl

theorem delivered_resolve {k : Nat} {a n : NodeId} :
    .delivered k a n ∈ (Network.resolve wiring e).log ↔
      e.ordinal = k ∧ e.sender = a ∧ n ∈ receivers wiring e := by
  rw [log_resolve, List.mem_append, or_iff_right (by split <;> simp)]
  unfold receivers
  cases wiring.scenario.schedule? _ with
  | none => simp
  | some schedule =>
    dsimp only
    rw [List.mem_flatMap]
    constructor
    · rintro ⟨r, hr, hd⟩
      obtain ⟨hc, hk, ha, rfl⟩ := delivered_route.mp hd
      exact ⟨hk, ha, List.mem_filter.mpr ⟨hr, hc⟩⟩
    · rintro ⟨hk, ha, hn⟩
      obtain ⟨hn, hc⟩ := List.mem_filter.mp hn
      exact ⟨n, hn, delivered_route.mpr ⟨hc, hk, ha, rfl⟩⟩

theorem deliveries_nextBatch (wiring : Wiring) (net : Network) :
    (Network.nextBatch wiring net).1.deliveries = net.pending.flatMap (deliveries wiring) := by
  unfold Network.nextBatch
  dsimp only
  rw [foldl_append_deliveries, List.nil_append, List.flatMap_map]
  simp only [deliveries_resolve]

theorem log_nextBatch (wiring : Wiring) (net : Network) :
    (Network.nextBatch wiring net).2.log =
      net.log ++ net.pending.flatMap fun e => (Network.resolve wiring e).log := by
  unfold Network.nextBatch
  dsimp only
  rw [foldl_append_log, List.nil_append, List.flatMap_map]

theorem delivered_nextBatch {k : Nat} {a n : NodeId} :
    .delivered k a n ∈ (Network.nextBatch wiring net).2.log ↔
      .delivered k a n ∈ net.log ∨
        ∃ e ∈ net.pending, e.ordinal = k ∧ e.sender = a ∧ n ∈ receivers wiring e := by
  rw [log_nextBatch, List.mem_append, List.mem_flatMap]
  simp only [delivered_resolve]

theorem sent_route {e' : Envelope} {schedule : ViewSchedule} {m : Message} {injected : Bool}
    {r : NodeId} : .sent e' ∉ (Network.route schedule e m injected r).log := by
  unfold Network.route
  split <;> simp

theorem sent_resolve {e' : Envelope} : .sent e' ∉ (Network.resolve wiring e).log := by
  rw [log_resolve, List.mem_append, or_iff_right (by split <;> simp)]
  cases wiring.scenario.schedule? _ with
  | none => simp
  | some schedule =>
    dsimp only
    rw [List.mem_flatMap]
    rintro ⟨r, -, he⟩
    exact sent_route he

theorem sent_nextBatch :
    .sent e ∈ (Network.nextBatch wiring net).2.log ↔ .sent e ∈ net.log := by
  rw [log_nextBatch, List.mem_append, List.mem_flatMap]
  exact or_iff_left fun ⟨_, _, h⟩ => sent_resolve h

theorem injected_route {schedule : ViewSchedule} {m : Message} {injected : Bool} {r : NodeId} :
    (Network.route schedule e m injected r).injected =
      (schedule.connected e.sender r && injected) := by
  unfold Network.route
  cases schedule.connected e.sender r <;> rfl

theorem injected_resolve (e : Envelope) :
    (Network.resolve wiring e).injected = true ↔
      (Network.replacement? wiring e).isSome = true ∧ ∃ r, r ∈ receivers wiring e := by
  have hs : ∀ b : Network.Batch, ∀ c : Bool, b.injected = false →
      ((if c then b else {} : Network.Batch)).injected = false := by
    intro b c hb
    cases c
    · rfl
    · exact hb
  unfold Network.resolve receivers carried
  dsimp only
  rw [Network.Batch.append, hs _ _ rfl, Bool.false_or]
  cases wiring.scenario.schedule? _ with
  | none => simp
  | some schedule =>
    dsimp only
    rw [foldl_append_injected, List.any_map]
    simp only [Function.comp_apply, List.any_eq_true, injected_route, Bool.and_eq_true,
      Bool.false_or, List.mem_filter]
    constructor
    · rintro ⟨r, hr, hc, hi⟩
      exact ⟨hi, r, hr, hc⟩
    · rintro ⟨hi, r, hr, hc⟩
      exact ⟨r, hr, hc, hi⟩

theorem injected_resolve_iff {i : Injection} (hi : wiring.injection = some i) (e : Envelope) :
    (Network.resolve wiring e).injected = true ↔
      ∃ d ∈ deliveries wiring e, d.ordinal = i.ordinal ∧ d.message = i.replacement := by
  have hr : (Network.replacement? wiring e).isSome = true ↔ i.ordinal = e.ordinal := by
    unfold Network.replacement?
    rw [hi]
    dsimp only
    split <;> simp_all
  rw [injected_resolve, hr]
  constructor
  · rintro ⟨ho, r, hr⟩
    exact ⟨_, mem_deliveries.mpr ⟨r, hr, rfl⟩, ho.symm, carried_injected hi ho.symm⟩
  · rintro ⟨d, hd, ho, -⟩
    obtain ⟨r, hr, rfl⟩ := mem_deliveries.mp hd
    exact ⟨ho.symm, r, hr⟩

theorem injected_nextBatch {i : Injection} (hi : wiring.injection = some i) (net : Network) :
    (Network.nextBatch wiring net).2.injected = true ↔
      net.injected = true ∨ ∃ d ∈ (Network.nextBatch wiring net).1.deliveries,
        d.ordinal = i.ordinal ∧ d.message = i.replacement := by
  rw [deliveries_nextBatch]
  unfold Network.nextBatch
  dsimp only
  rw [foldl_append_injected, Bool.false_or, Bool.or_eq_true, List.any_map, List.any_eq_true]
  refine or_congr_right ?_
  simp only [Function.comp_apply, injected_resolve_iff hi, List.mem_flatMap]
  constructor
  · rintro ⟨e, he, d, hd, h⟩
    exact ⟨d, ⟨e, he, hd⟩, h⟩
  · rintro ⟨d, ⟨e, he, hd⟩, h⟩
    exact ⟨e, he, d, hd, h⟩

end Batches

section Posting

def letters (sender : NodeId) (origin : ReplicaId) : Nat → List (Recipients × Message) →
    List Envelope
  | _, [] => []
  | k, m :: ms => ⟨k + 1, sender, origin, m.1, m.2⟩ :: letters sender origin (k + 1) ms

variable {n : NodeId} {origin : ReplicaId} {k : Nat} {ms : List (Recipients × Message)}
  {net : Network} {e : Envelope}

theorem mem_letters (he : e ∈ letters n origin k ms) :
    e.sender = n ∧ e.origin = origin ∧ (e.recipients, e.message) ∈ ms := by
  induction ms generalizing k with
  | nil => cases he
  | cons m ms ih =>
    rcases List.mem_cons.mp he with rfl | he
    · exact ⟨rfl, rfl, List.mem_cons_self⟩
    · obtain ⟨hs, ho, hm⟩ := ih he
      exact ⟨hs, ho, List.mem_cons_of_mem _ hm⟩

theorem ordinals_letters (n : NodeId) (origin : ReplicaId) (k : Nat)
    (ms : List (Recipients × Message)) :
    (letters n origin k ms).map (·.ordinal) = List.range' (k + 1) ms.length := by
  induction ms generalizing k with
  | nil => rfl
  | cons m ms ih =>
    rw [letters, List.map_cons, ih, List.length_cons, List.range'_succ]

theorem length_letters (n : NodeId) (origin : ReplicaId) (k : Nat)
    (ms : List (Recipients × Message)) : (letters n origin k ms).length = ms.length := by
  have h := congrArg List.length (ordinals_letters n origin k ms)
  rwa [List.length_map, List.length_range'] at h

theorem foldl_post (n : NodeId) (origin : ReplicaId) (ms : List (Recipients × Message))
    (net : Network) :
    ms.foldl (Network.post n origin) net =
      { net with
        sent := net.sent ++ letters n origin net.sent.length ms
        pending := net.pending ++ letters n origin net.sent.length ms
        log := net.log ++ (letters n origin net.sent.length ms).map .sent } := by
  induction ms generalizing net with
  | nil => simp [letters]
  | cons m ms ih =>
    rw [List.foldl_cons, ih]
    simp [Network.post, letters]

end Posting

structure Orderly (wiring : Wiring) (resolved : List Envelope) (net : Network) : Prop where
  filed : net.sent = resolved ++ net.pending
  numbered : net.sent.map (·.ordinal) = List.range' 1 net.sent.length
  logged : ∀ k a n, .delivered k a n ∈ net.log ↔
    ∃ e ∈ resolved, e.ordinal = k ∧ e.sender = a ∧ n ∈ receivers wiring e

variable {wiring : Wiring} {resolved : List Envelope} {net : Network}

theorem orderly_empty (wiring : Wiring) : Orderly wiring [] {} := ⟨rfl, rfl, by simp⟩

/-- The messages on record and those that wait tell which ones are resolved. -/
theorem Orderly.resolved_eq {resolved' : List Envelope} (h : Orderly wiring resolved net)
    (h' : Orderly wiring resolved' net) : resolved = resolved' :=
  List.append_cancel_right (h.filed.symm.trans h'.filed)

theorem Orderly.ordinal_inj (h : Orderly wiring resolved net) {e e' : Envelope}
    (he : e ∈ net.sent) (he' : e' ∈ net.sent) (ho : e.ordinal = e'.ordinal) : e = e' := by
  refine List.inj_on_of_nodup_map ?_ he he' ho
  rw [h.numbered]
  exact List.nodup_range'

theorem Orderly.pending_sent (h : Orderly wiring resolved net) {e : Envelope}
    (he : e ∈ net.pending) : e ∈ net.sent :=
  h.filed ▸ List.mem_append_right _ he

theorem Orderly.nodup (h : Orderly wiring resolved net) :
    (resolved.map (·.ordinal) ++ net.pending.map (·.ordinal)).Nodup := by
  rw [← List.map_append, ← h.filed, h.numbered]
  exact List.nodup_range'

theorem Orderly.not_pending (h : Orderly wiring resolved net) {e e' : Envelope}
    (he : e ∈ resolved) (he' : e' ∈ net.pending) : e'.ordinal ≠ e.ordinal := by
  intro ho
  exact List.disjoint_of_nodup_append h.nodup (List.mem_map_of_mem he)
    (ho ▸ List.mem_map_of_mem he')

theorem Orderly.waits_once (h : Orderly wiring resolved net) {e e' : Envelope}
    {before after : List Envelope} (hp : net.pending = before ++ e :: after)
    (he : e' ∈ before ++ after) : e'.ordinal ≠ e.ordinal := by
  have hn := h.nodup.of_append_right
  rw [hp, List.map_append, List.map_cons, List.nodup_middle, ← List.map_append] at hn
  intro ho
  exact (List.nodup_cons.mp hn).1 (ho ▸ List.mem_map_of_mem he)

theorem Orderly.posted (h : Orderly wiring resolved net) (n : NodeId) (origin : ReplicaId)
    (ms : List (Recipients × Message)) :
    Orderly wiring resolved (ms.foldl (Network.post n origin) net) := by
  rw [foldl_post]
  refine ⟨?_, ?_, fun k a m => ?_⟩
  · dsimp only
    rw [h.filed, List.append_assoc]
  · dsimp only
    rw [List.map_append, h.numbered, ordinals_letters, List.length_append, length_letters,
      Nat.add_comm net.sent.length 1, List.range'_append_1]
  · dsimp only
    rw [← h.logged, List.mem_append]
    simp

theorem Orderly.batched (h : Orderly wiring resolved net) :
    Orderly wiring net.sent (Network.nextBatch wiring net).2 where
  filed := (List.append_nil _).symm
  numbered := h.numbered
  logged k a n := by
    rw [delivered_nextBatch, h.logged, h.filed]
    simp only [List.mem_append, or_and_right, exists_or]

end Equivocation.Proofs.Routing
