import Equivocation.Proofs.Commits
import Equivocation.Proofs.States

namespace Equivocation.Proofs.Simulation

open History Turns Lives Worlds Commits States

variable {C : Cluster} {rules : Rules} {run run' : Run rules.protocol} {W W' : World}
  {config : RunConfig} {wiring : Wiring}

/-- A run of the protocol shows the states, the events, the commits and the messages of a reachable
world. -/
structure Mirrors (C : Cluster) (rules : Rules) (run : Run rules.protocol) (W : World) : Prop where
  reachable : Reachable rules C W
  seats : run.instances.map (·.seat) = C.seats
  states : ∀ i ∈ run.instances, i.state = W.replica i.seat.node
  commits : ∀ i ∈ run.instances, i.read.commits = (W.replica i.seat.node).committed
  published : ∀ i ∈ run.instances, ∀ e ∈ i.unread, (i.seat.node, .publish e) ∈ W.trace
  sent : ∀ e ∈ run.network.sent,
    ∃ t ∈ C.seats, t.replica = e.origin ∧ ∃ whom, (t.node, .send whom e.message) ∈ W.trace
  recorded : ∀ n whom m, (n, .send whom m) ∈ W.trace → ∃ e ∈ run.network.sent, e.message = m
  pending : ∀ e ∈ run.network.pending, e ∈ run.network.sent

theorem Mirrors.mem_seats (hm : Mirrors C rules run W) {i : Instance rules.protocol}
    (hi : i ∈ run.instances) : i.seat ∈ C.seats := by
  rw [← hm.seats]
  exact List.mem_map.mpr ⟨i, hi, rfl⟩

def proposed (sent : List Envelope) : List Block :=
  sent.filterMap fun e =>
    match e.message with
    | .propose p => some p.block
    | _ => none

theorem mem_proposed {sent : List Envelope} {b : Block} :
    b ∈ proposed sent ↔ ∃ e ∈ sent, e.message = .propose ⟨b⟩ := by
  unfold proposed
  rw [List.mem_filterMap]
  constructor
  · rintro ⟨e, he, hb⟩
    split at hb
    · rename_i p hp
      obtain rfl := Option.some.inj hb
      exact ⟨e, he, hp⟩
    · cases hb
  · rintro ⟨e, he, hp⟩
    exact ⟨e, he, by rw [hp]⟩

theorem known_iff_proposed {T : Trace} {sent : List Envelope} {b : Block}
    (hrecorded : ∀ n whom m, (n, .send whom m) ∈ T → ∃ e ∈ sent, e.message = m)
    (hsent : ∀ e ∈ sent, ∃ n whom, (n, .send whom e.message) ∈ T) :
    Known T b ↔ b ∈ .genesis :: proposed sent := by
  rw [List.mem_cons, mem_proposed]
  constructor
  · rintro (rfl | ⟨n, whom, hm⟩)
    · exact .inl rfl
    · exact .inr (hrecorded n whom _ hm)
  · rintro (rfl | ⟨e, he, hm⟩)
    · exact known_genesis
    · obtain ⟨n, whom, hs⟩ := hsent e he
      exact .inr ⟨n, whom, hm ▸ hs⟩

section Posting

variable (n : NodeId) (origin : ReplicaId)

theorem mem_sent_foldl (ms : List (Recipients × Message)) (net : Network) {e : Envelope}
    (he : e ∈ (ms.foldl (Network.post n origin) net).sent) :
    e ∈ net.sent ∨ e.origin = origin ∧ (e.recipients, e.message) ∈ ms := by
  induction ms generalizing net with
  | nil => exact .inl he
  | cons m ms ih =>
    rcases ih _ he with he | ⟨ho, hm⟩
    · rcases List.mem_append.mp he with he | he
      · exact .inl he
      · rw [List.mem_singleton.mp he]
        exact .inr ⟨rfl, List.mem_cons_self⟩
    · exact .inr ⟨ho, List.mem_cons_of_mem _ hm⟩

theorem subset_sent_foldl (ms : List (Recipients × Message)) (net : Network) :
    net.sent ⊆ (ms.foldl (Network.post n origin) net).sent := by
  induction ms generalizing net with
  | nil => exact List.Subset.refl _
  | cons m ms ih =>
    exact List.Subset.trans (List.subset_append_left _ _) (ih (Network.post n origin net m))

theorem recorded_foldl (ms : List (Recipients × Message)) (net : Network) :
    ∀ m ∈ ms, ∃ e ∈ (ms.foldl (Network.post n origin) net).sent, e.message = m.2 := by
  induction ms generalizing net with
  | nil => exact fun m hm => absurd hm List.not_mem_nil
  | cons x ms ih =>
    intro m hm
    rcases List.mem_cons.mp hm with rfl | hm
    · exact ⟨⟨net.sent.length + 1, n, origin, m.1, m.2⟩,
        subset_sent_foldl n origin ms _ (List.mem_append_right _ List.mem_cons_self), rfl⟩
    · exact ih _ m hm

theorem pending_foldl (ms : List (Recipients × Message)) (net : Network)
    (hp : ∀ e ∈ net.pending, e ∈ net.sent) :
    ∀ e ∈ (ms.foldl (Network.post n origin) net).pending,
      e ∈ (ms.foldl (Network.post n origin) net).sent := by
  induction ms generalizing net with
  | nil => exact hp
  | cons m ms ih =>
    refine ih _ fun e he => ?_
    rcases List.mem_append.mp he with he | he
    · exact List.mem_append_left _ (hp e he)
    · exact List.mem_append_right _ he

end Posting

theorem mem_turn_sent {t : Turn Replica} {whom : Recipients} {m : Message} :
    (whom, m) ∈ t.sent ↔ .send whom m ∈ t.effects := by
  unfold Turn.sent
  rw [List.mem_filterMap]
  constructor
  · rintro ⟨e, he, hm⟩
    cases e with
    | send w' m' =>
      cases hm
      exact he
    | publish e => cases hm
    | remark r => cases hm
  · exact fun he => ⟨_, he, rfl⟩

theorem mem_turn_events {t : Turn Replica} {e : Event} (he : e ∈ t.events) :
    .publish e ∈ t.effects := by
  obtain ⟨f, hf, he⟩ := List.mem_filterMap.mp he
  cases f with
  | publish e' =>
    cases he
    exact hf
  | send w m => cases he
  | remark r => cases he

theorem read_update (i : Instance rules.protocol) (t : Turn Replica) :
    ({ i with state := t.state, unread := i.unread ++ t.events } :
        Instance rules.protocol).read.commits =
      i.read.commits ++ t.effects.filterMap commit? := by
  unfold Instance.read Turn.events
  dsimp only
  rw [List.filterMap_append, List.append_assoc, List.filterMap_filterMap]
  congr 2
  refine List.filterMap_congr fun e _ => ?_
  cases e with
  | publish e => cases e <;> rfl
  | send => rfl
  | remark => rfl

def took (run : Run rules.protocol) (seat : Seat) (t : Turn Replica) : Run rules.protocol :=
  { run with
    instances := run.instances.map fun j =>
      if j.seat.node = seat.node then
        { j with state := t.state, unread := j.unread ++ t.events }
      else j
    network := t.sent.foldl (Network.post seat.node seat.replica) run.network
    records := run.records ++ t.remarks }

theorem act_eq {n : NodeId} {i : Instance rules.protocol} {turn : Seat → Replica → Turn Replica}
    (hf : run.instances.find? (·.seat.node = n) = some i)
    (hh : (turn i.seat i.state).halt = none) :
    run.act n turn = .ok (took run i.seat (turn i.seat i.state)) := by
  obtain rfl : i.seat.node = n := by
    have h := List.find?_some hf
    exact of_decide_eq_true h
  unfold Run.act
  rw [hf]
  dsimp only
  rw [hh]
  rfl

theorem mem_took {seat : Seat} {t : Turn Replica} {i : Instance rules.protocol}
    (hi : i ∈ (took run seat t).instances) :
    ∃ j ∈ run.instances, i.seat = j.seat ∧
      (j.seat.node = seat.node ∧ i.state = t.state ∧ i.unread = j.unread ++ t.events ∧
          i.read.commits = j.read.commits ++ t.effects.filterMap commit? ∨
        j.seat.node ≠ seat.node ∧ i = j) := by
  obtain ⟨j, hj, rfl⟩ := List.mem_map.mp hi
  refine ⟨j, hj, ?_⟩
  split
  · rename_i hn
    exact ⟨rfl, .inl ⟨hn, rfl, rfl, read_update j t⟩⟩
  · rename_i hn
    exact ⟨rfl, .inr ⟨hn, rfl⟩⟩

theorem took_mirrors (hm : Mirrors C rules run W) {seat : Seat} {input : Input}
    (hseat : seat ∈ C.seats) (ha : Admitted C W seat input) :
    Mirrors C rules (took run seat (input.react rules seat (W.replica seat.node)))
      (W.after seat (input.react rules seat (W.replica seat.node))) := by
  have hr := Reachable.step hm.reachable hseat ha
  have hcom := reachable_committed hr
  obtain ⟨H', hmoves⟩ := turn_moves (reachable_possible hm.reachable) ha
  have hnew := moves_committed hmoves
  generalize input.react rules seat (W.replica seat.node) = t at hr hcom hnew hmoves
  have hsub : W.trace ⊆ (W.after seat t).trace := List.subset_append_left _ _
  have hsend : ∀ whom m, .send whom m ∈ t.effects →
      (seat.node, .send whom m) ∈ (W.after seat t).trace :=
    fun whom m he => List.mem_append_right _ (List.mem_map.mpr ⟨_, he, rfl⟩)
  refine ⟨hr, ?_, fun i hi => ?_, fun i hi => ?_, fun i hi e he => ?_, fun e he => ?_,
    fun n whom m hmem => ?_, ?_⟩
  · rw [← hm.seats]
    unfold took
    rw [List.map_map]
    refine List.map_congr_left fun j _ => ?_
    dsimp only [Function.comp_apply]
    split <;> rfl
  · obtain ⟨j, hj, hs, ⟨hn, he, -⟩ | ⟨hn, rfl⟩⟩ := mem_took hi
    · rw [he, hs, hn, World.replica_after]
    · rw [hm.states i hj, World.replica_after_of_ne _ _ _ hn]
  · obtain ⟨j, hj, hs, ⟨hn, -, -, he⟩ | ⟨hn, rfl⟩⟩ := mem_took hi
    · rw [he, hs, hn, World.replica_after, hm.commits j hj, hn]
      exact hnew.symm
    · rw [hm.commits i hj, World.replica_after_of_ne _ _ _ hn]
  · obtain ⟨j, hj, hs, ⟨hn, -, hu, -⟩ | ⟨hn, rfl⟩⟩ := mem_took hi
    · rw [hs]
      rcases List.mem_append.mp (hu ▸ he) with he | he
      · exact hsub (hm.published j hj e he)
      · rw [hn]
        exact List.mem_append_right _ (List.mem_map.mpr ⟨_, mem_turn_events he, rfl⟩)
    · exact hsub (hm.published i hj e he)
  · rcases mem_sent_foldl seat.node seat.replica t.sent run.network he with he | ⟨ho, he⟩
    · obtain ⟨u, hu, hru, whom, hmem⟩ := hm.sent e he
      exact ⟨u, hu, hru, whom, hsub hmem⟩
    · exact ⟨seat, hseat, ho.symm, e.recipients, hsend _ _ (mem_turn_sent.mp he)⟩
  · rcases Soundness.mem_tag hmem with hmem | ⟨-, hmem⟩
    · obtain ⟨e, he, hem⟩ := hm.recorded n whom m hmem
      exact ⟨e, subset_sent_foldl seat.node seat.replica t.sent run.network he, hem⟩
    · exact recorded_foldl seat.node seat.replica t.sent run.network _ (mem_turn_sent.mpr hmem)
  · exact pending_foldl seat.node seat.replica t.sent run.network hm.pending

theorem act_mirrors (hm : Mirrors C rules run W) {n : NodeId} {input : Input}
    {turn : Seat → Replica → Turn Replica} (ht : ∀ seat r, turn seat r = input.react rules seat r)
    (ha : ∀ seat ∈ C.seats, seat.node = n → Admitted C W seat input) :
    ∃ run', run.act n turn = .ok run' ∧
      (Mirrors C rules run' W ∧ (∀ seat ∈ C.seats, seat.node ≠ n) ∨
        ∃ seat ∈ C.seats, seat.node = n ∧
          Mirrors C rules run' (W.after seat (input.react rules seat (W.replica seat.node)))) := by
  cases hf : run.instances.find? (·.seat.node = n) with
  | none =>
    refine ⟨run, by unfold Run.act; rw [hf], .inl ⟨hm, fun seat hs hn => ?_⟩⟩
    rw [← hm.seats] at hs
    obtain ⟨i, hi, rfl⟩ := List.mem_map.mp hs
    exact List.find?_eq_none.mp hf i hi (decide_eq_true hn)
  | some i =>
    have hi := List.mem_of_find?_eq_some hf
    have hn := List.find?_some hf
    have hn : i.seat.node = n := of_decide_eq_true hn
    have hseat := hm.mem_seats hi
    have hadm := ha i.seat hseat hn
    have hr : turn i.seat i.state = input.react rules i.seat (W.replica i.seat.node) :=
      (ht i.seat i.state).trans (congrArg (input.react rules i.seat) (hm.states i hi))
    have hh := turn_not_halted hm.reachable hadm
    rw [← hr] at hh
    refine ⟨_, act_eq hf hh, .inr ⟨i.seat, hseat, hn, ?_⟩⟩
    rw [hr]
    exact took_mirrors hm hseat hadm

def Started (C : Cluster) (W : World) : Prop :=
  ∀ seat ∈ C.seats, (W.replica seat.node).view ≠ .zero

def Ongoing (C : Cluster) (rules : Rules) (T : Trace) (run : Run rules.protocol) : Prop :=
  ∃ W, Mirrors C rules run W ∧ Started C W ∧ T ⊆ W.trace

variable {T : Trace}

theorem Mirrors.of_eq (hm : Mirrors C rules run W) (hi : run'.instances = run.instances)
    (hs : run'.network.sent = run.network.sent)
    (hp : ∀ e ∈ run'.network.pending, e ∈ run'.network.sent) : Mirrors C rules run' W where
  reachable := hm.reachable
  seats := by rw [hi]; exact hm.seats
  states := by rw [hi]; exact hm.states
  commits := by rw [hi]; exact hm.commits
  published := by rw [hi]; exact hm.published
  sent := by rw [hs]; exact hm.sent
  recorded := by rw [hs]; exact hm.recorded
  pending := hp

theorem started_after (hm : Mirrors C rules run W) {seat : Seat} {input : Input}
    (ha : Admitted C W seat input) {t : Seat} (hv : (W.replica t.node).view ≠ .zero) :
    ((W.after seat (input.react rules seat (W.replica seat.node))).replica t.node).view ≠
      .zero := by
  obtain ⟨H', hmoves⟩ := turn_moves (reachable_possible hm.reachable) ha
  by_cases hn : t.node = seat.node
  · rw [hn, World.replica_after]
    exact moves_started hmoves (hn ▸ hv)
  · rw [World.replica_after_of_ne _ _ _ hn]
    exact hv

theorem act_ongoing {n : NodeId} {input : Input} {turn : Seat → Replica → Turn Replica}
    (ht : ∀ seat r, turn seat r = input.react rules seat r)
    (ha : ∀ W, Started C W → T ⊆ W.trace → ∀ seat ∈ C.seats, Admitted C W seat input)
    (ho : Ongoing C rules T run) : ∃ run', run.act n turn = .ok run' ∧ Ongoing C rules T run' := by
  obtain ⟨W, hm, hs, hT⟩ := ho
  have ha := fun seat hseat => ha W hs hT seat hseat
  obtain ⟨run', he, ⟨hm', -⟩ | ⟨seat, hseat, -, hm'⟩⟩ :=
    act_mirrors hm ht fun seat hseat _ => ha seat hseat
  · exact ⟨run', he, W, hm', hs, hT⟩
  · exact ⟨run', he, _, hm', fun t htm => started_after hm (ha seat hseat) (hs t htm),
      fun x hx => List.subset_append_left _ _ (hT hx)⟩

def Shown (C : Cluster) (rules : Rules) (runs : List (Run rules.protocol)) (T : Trace) : Prop :=
  ∀ run ∈ runs, ∃ W, Mirrors C rules run W ∧ W.trace ⊆ T

def PassedThrough (C : Cluster) (rules : Rules) (T : Trace) (runs : List (Run rules.protocol))
    (run : Run rules.protocol) : Prop :=
  ∃ W, Mirrors C rules run W ∧ Started C W ∧ T ⊆ W.trace ∧ Shown C rules runs W.trace

theorem Shown.mono {runs : List (Run rules.protocol)} {T' : Trace} (hs : Shown C rules runs T)
    (ht : T ⊆ T') : Shown C rules runs T' :=
  fun run hr => (hs run hr).imp fun _ hm => ⟨hm.1, fun _ hx => ht (hm.2 hx)⟩

theorem Shown.append {runs runs' : List (Run rules.protocol)} (hs : Shown C rules runs T)
    (hs' : Shown C rules runs' T) : Shown C rules (runs ++ runs') T :=
  fun run hr => (List.mem_append.mp hr).elim (hs run) (hs' run)

theorem Shown.cons {runs : List (Run rules.protocol)} (hm : Mirrors C rules run W)
    (hw : W.trace ⊆ T) (hs : Shown C rules runs T) : Shown C rules (run :: runs) T := by
  intro run' hr
  rcases List.mem_cons.mp hr with rfl | hr
  · exact ⟨W, hm, hw⟩
  · exact hs run' hr

theorem sequence_passedThrough {α : Type} {step : α → Run rules.protocol → Run.Step rules.protocol}
    {xs : List α}
    (hs : ∀ x ∈ xs, ∀ T' run, T ⊆ T' → Ongoing C rules T' run →
      ∃ run', step x run = .ok run' ∧ Ongoing C rules T' run')
    (hm : Mirrors C rules run W) (hst : Started C W) (hT : T ⊆ W.trace) :
    ∃ run', Run.sequence step xs run = .ok run' ∧
      PassedThrough C rules W.trace (sequenceStates step xs run) run' := by
  induction xs generalizing run W with
  | nil =>
    exact ⟨run, rfl, W, hm, hst, List.Subset.refl _,
      .cons hm (List.Subset.refl _) (by simp [Shown])⟩
  | cons x xs ih =>
    obtain ⟨run₁, h₁, W₁, hm₁, hst₁, hT₁⟩ :=
      hs x List.mem_cons_self W.trace run hT ⟨W, hm, hst, List.Subset.refl _⟩
    obtain ⟨run₂, h₂, W₂, hm₂, hst₂, hT₂, hshown⟩ :=
      ih (fun y hy => hs y (List.mem_cons_of_mem _ hy)) hm₁ hst₁ (List.Subset.trans hT hT₁)
    refine ⟨run₂, by rw [Run.sequence, h₁]; exact h₂, W₂, hm₂, hst₂, List.Subset.trans hT₁ hT₂, ?_⟩
    rw [sequenceStates, h₁]
    exact .cons hm (List.Subset.trans hT₁ hT₂) hshown

theorem deliver_ongoing {d : Delivery}
    (hd : ∃ t ∈ C.seats, t.replica = d.origin ∧ ∃ whom, (t.node, .send whom d.message) ∈ T)
    (ho : Ongoing C rules T run) :
    ∃ run', Run.deliver d run = .ok run' ∧ Ongoing C rules T run' := by
  obtain ⟨W, hm, hs, hT⟩ := ho
  obtain ⟨t, ht, hr, whom, hmem⟩ := hd
  exact @act_ongoing C rules _ T d.receiver (.message d.origin d.message) _ (fun _ _ => rfl)
    (fun _ _ hT _ _ => ⟨t, ht, hr, whom, hT hmem⟩) ⟨W, hm.of_eq rfl rfl hm.pending, hs, hT⟩

theorem mem_foldl_append {bs : List Network.Batch} {b : Network.Batch} {d : Delivery}
    (hd : d ∈ (bs.foldl Network.Batch.append b).deliveries) :
    d ∈ b.deliveries ∨ ∃ b' ∈ bs, d ∈ b'.deliveries := by
  induction bs generalizing b with
  | nil => exact .inl hd
  | cons x bs ih =>
    rcases ih hd with hd | ⟨b', hb, hd⟩
    · rcases List.mem_append.mp hd with hd | hd
      · exact .inl hd
      · exact .inr ⟨x, List.mem_cons_self, hd⟩
    · exact .inr ⟨b', List.mem_cons_of_mem _ hb, hd⟩

/-- Without an injection, what is delivered is what was sent. -/
theorem mem_resolve (hi : wiring.injection = none) {e : Envelope} {d : Delivery}
    (hd : d ∈ (Network.resolve wiring e).deliveries) :
    d.origin = e.origin ∧ d.message = e.message := by
  have hr : Network.replacement? wiring e = none := by rw [Network.replacement?, hi]
  unfold Network.resolve at hd
  rw [hr] at hd
  dsimp only [Option.getD_none, Option.isSome_none] at hd
  rcases List.mem_append.mp hd with hd | hd
  · cases hd
  · split at hd
    · cases hd
    · rename_i schedule _
      rcases mem_foldl_append hd with hd | ⟨b, hb, hd⟩
      · cases hd
      · obtain ⟨n, -, rfl⟩ := List.mem_map.mp hb
        unfold Network.route at hd
        split at hd
        · rw [List.mem_singleton.mp hd]
          exact ⟨rfl, rfl⟩
        · cases hd

theorem mem_nextBatch (hi : wiring.injection = none) {net : Network} {d : Delivery}
    (hd : d ∈ (Network.nextBatch wiring net).1.deliveries) :
    ∃ e ∈ net.pending, d.origin = e.origin ∧ d.message = e.message := by
  rcases mem_foldl_append hd with hd | ⟨b, hb, hd⟩
  · cases hd
  · obtain ⟨e, he, rfl⟩ := List.mem_map.mp hb
    exact ⟨e, he, mem_resolve hi hd⟩

theorem readEvents_mirrors (hm : Mirrors C rules run W) :
    Mirrors C rules (run.readEvents config) W where
  reachable := hm.reachable
  seats := by
    rw [← hm.seats]
    exact List.map_map
  states i hi := by
    obtain ⟨j, hj, rfl⟩ := List.mem_map.mp hi
    exact hm.states j hj
  commits i hi := by
    obtain ⟨j, hj, rfl⟩ := List.mem_map.mp hi
    exact (List.append_nil _).trans (hm.commits j hj)
  published i hi e he := by
    obtain ⟨j, hj, rfl⟩ := List.mem_map.mp hi
    exact absurd he List.not_mem_nil
  sent := hm.sent
  recorded := hm.recorded
  pending := hm.pending

theorem deliveries_passedThrough (hi : wiring.injection = none) {net : Network}
    (hn : ∀ e ∈ net.pending,
      ∃ t ∈ C.seats, t.replica = e.origin ∧ ∃ whom, (t.node, .send whom e.message) ∈ W.trace)
    (hm : Mirrors C rules run W) (hs : Started C W) :
    ∃ run', Run.sequence Run.deliver (Network.nextBatch wiring net).1.deliveries run = .ok run' ∧
      PassedThrough C rules W.trace
        (sequenceStates Run.deliver (Network.nextBatch wiring net).1.deliveries run) run' := by
  refine sequence_passedThrough (fun d hd T' run hT ho => deliver_ongoing ?_ ho) hm hs
    (List.Subset.refl _)
  obtain ⟨e, he, hor, hme⟩ := mem_nextBatch hi hd
  obtain ⟨t, ht, hr, whom, hmem⟩ := hn e he
  rw [hor, hme]
  exact ⟨t, ht, hr, whom, hT hmem⟩

theorem timers_passedThrough (hm : Mirrors C rules run W) (hs : Started C W) (ns : List NodeId) :
    ∃ run', Run.sequence (fun n => Run.act n rules.protocol.tick) ns run = .ok run' ∧
      PassedThrough C rules W.trace (sequenceStates (fun n => Run.act n rules.protocol.tick) ns run)
        run' :=
  sequence_passedThrough (fun n _ T' run _ ho =>
    @act_ongoing C rules run T' n .tick _ (fun _ _ => rfl)
    (fun _ hs _ seat hseat => hs seat hseat) ho) hm hs (List.Subset.refl _)

theorem tick_passedThrough (hi : wiring.injection = none) (hm : Mirrors C rules run W)
    (hs : Started C W) :
    ∃ run', Run.tick config wiring run = .ok run' ∧
      PassedThrough C rules W.trace (tickStates wiring run) run' := by
  have hnet : Mirrors C rules { run with
      network := (Network.nextBatch wiring run.network).2
      records := run.records ++ (Network.nextBatch wiring run.network).1.remarks } W :=
    hm.of_eq rfl rfl fun e he => absurd he List.not_mem_nil
  obtain ⟨run₁, h₁, W₁, hm₁, hs₁, hT₁, hshown₁⟩ :=
    deliveries_passedThrough hi (fun e he => hm.sent e (hm.pending e he)) hnet hs
  obtain ⟨run₂, h₂, W₂, hm₂, hs₂, hT₂, hshown₂⟩ := timers_passedThrough hm₁ hs₁ run₁.nodes
  have hread : Mirrors C rules (run₂.readEvents config) W₂ := readEvents_mirrors hm₂
  refine ⟨{ run₂.readEvents config with ticks := (run₂.readEvents config).ticks + 1 }, ?_, W₂,
    hread.of_eq rfl rfl hread.pending, hs₂, List.Subset.trans hT₁ hT₂, ?_⟩
  · unfold Run.tick
    dsimp only
    rw [h₁]
    dsimp only
    rw [h₂]
  · unfold tickStates
    dsimp only
    rw [h₁]
    exact (hshown₁.mono hT₂).append hshown₂

theorem loop_passedThrough (hi : wiring.injection = none) (budget : Nat)
    (hm : Mirrors C rules run W) (hs : Started C W) :
    ∃ run', PassedThrough C rules W.trace (loopStates config wiring budget run) run' ∧
      (Run.loop config wiring budget run = .ok run' ∨
        config.deadlinePassed = true ∧
          ∃ e, Run.loop config wiring budget run = .error (e, run')) := by
  have hhere : PassedThrough C rules W.trace [run] run :=
    ⟨W, hm, hs, List.Subset.refl _, .cons hm (List.Subset.refl _) (by simp [Shown])⟩
  induction budget generalizing run W with
  | zero => exact ⟨run, hhere, .inl rfl⟩
  | succ budget ih =>
    rw [Run.loop, loopStates]
    by_cases hd : config.deadlinePassed = true
    · rw [if_pos hd, if_pos (by simp [hd])]
      exact ⟨run, hhere, .inr ⟨hd, _, rfl⟩⟩
    · rw [if_neg hd]
      by_cases hf : run.finished wiring = true
      · rw [if_pos hf, if_pos (by simp [hf])]
        exact ⟨run, hhere, .inl rfl⟩
      · rw [if_neg hf, if_neg (by simp [hd, hf])]
        obtain ⟨run₁, he, W₁, hm₁, hs₁, hT₁, hshown₁⟩ :=
          @tick_passedThrough C rules run W config wiring hi hm hs
        rw [he]
        obtain ⟨run₂, ⟨W₂, hm₂, hs₂, hT₂, hshown₂⟩, hend⟩ := ih hm₁ hs₁
          ⟨W₁, hm₁, hs₁, List.Subset.refl _, .cons hm₁ (List.Subset.refl _) (by simp [Shown])⟩
        exact ⟨run₂, ⟨W₂, hm₂, hs₂, List.Subset.trans hT₁ hT₂,
          .cons hm (List.Subset.trans hT₁ hT₂) ((hshown₁.mono hT₂).append hshown₂)⟩, hend⟩

def StartingWorld (C : Cluster) (ns : List NodeId) (W : World) : Prop :=
  ∀ seat ∈ C.seats, seat.node ∈ ns ∧ W.replica seat.node = {} ∨ (W.replica seat.node).view ≠ .zero

theorem start_mirrors {n : NodeId} {ns : List NodeId} (hm : Mirrors C rules run W)
    (hs : StartingWorld C (n :: ns) W) :
    ∃ run' W', run.act n rules.protocol.start = .ok run' ∧ Mirrors C rules run' W' ∧
      W.trace ⊆ W'.trace ∧ StartingWorld C ns W' := by
  have hstart : ∀ seat r, rules.protocol.start seat r = Input.start.react rules seat r := by
    simp only [Rules.protocol, Input.react, implies_true]
  obtain ⟨run', he, ⟨hm', hn⟩ | ⟨seat, hseat, rfl, hm'⟩⟩ :=
    act_mirrors hm (n := n) hstart fun _ _ _ => trivial
  · refine ⟨run', W, he, hm', List.Subset.refl _, fun t ht => (hs t ht).imp_left fun h => ⟨?_, h.2⟩⟩
    exact (List.mem_cons.mp h.1).resolve_left (hn t ht)
  · refine ⟨run', _, he, hm', List.subset_append_left _ _, fun t ht => ?_⟩
    by_cases hn : t.node = seat.node
    · obtain rfl := C.apart t ht seat hseat hn
      refine .inr ?_
      rcases hs t ht with ⟨-, hz⟩ | hv
      · rw [World.replica_after, hz, Input.react]
        exact start_view t
      · have ha : Admitted C W t .start := trivial
        exact started_after hm ha hv
    · rw [World.replica_after_of_ne _ _ _ hn]
      exact (hs t ht).imp_left fun h => ⟨(List.mem_cons.mp h.1).resolve_left hn, h.2⟩

theorem starts_passedThrough (ns : List NodeId) (hm : Mirrors C rules run W)
    (hs : StartingWorld C ns W) :
    ∃ run', Run.sequence (fun n => Run.act n rules.protocol.start) ns run = .ok run' ∧
      PassedThrough C rules W.trace
        (sequenceStates (fun n => Run.act n rules.protocol.start) ns run)
        run' := by
  induction ns generalizing run W with
  | nil =>
    refine ⟨run, rfl, W, hm, fun seat hseat => ?_, List.Subset.refl _,
      .cons hm (List.Subset.refl _) (by simp [Shown])⟩
    exact (hs seat hseat).resolve_left fun h => absurd h.1 List.not_mem_nil
  | cons n ns ih =>
    obtain ⟨run₁, W₁, he, hm₁, hT₁, hs₁⟩ := start_mirrors hm hs
    obtain ⟨run₂, he₂, W₂, hm₂, hs₂, hT₂, hshown⟩ := ih hm₁ hs₁
    rw [Run.sequence, sequenceStates, he]
    exact ⟨run₂, he₂, W₂, hm₂, hs₂, List.Subset.trans hT₁ hT₂,
      .cons hm (List.Subset.trans hT₁ hT₂) hshown⟩

end Equivocation.Proofs.Simulation
