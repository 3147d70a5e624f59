import Equivocation.Proofs.Timeline

namespace Equivocation.Proofs.Handover

open States Routing Timeline

section Instances

variable {p : Protocol}

def tookTurn (i : Instance p) (t : Turn p.State) : Instance p :=
  { i with state := t.state, unread := i.unread ++ t.events }

def hear (i : Instance p) (d : Delivery) : Instance p :=
  if i.seat.node = d.receiver then tookTurn i (p.receive i.seat d.origin d.message i.state) else i

def elapse (i : Instance p) : Instance p := tookTurn i (p.tick i.seat i.state)

variable {config : RunConfig} {wiring : Wiring} {run run' : Run p}
  {turn : Seat → p.State → Turn p.State} {n : NodeId} {ns : List NodeId} {d : Delivery}
  {ds : List Delivery}

theorem seat_hear (i : Instance p) (d : Delivery) : (hear i d).seat = i.seat := by
  unfold hear
  split <;> rfl

theorem seat_hears (i : Instance p) (ds : List Delivery) : (ds.foldl hear i).seat = i.seat := by
  induction ds generalizing i with
  | nil => rfl
  | cons d ds ih => exact (ih _).trans (seat_hear i d)

theorem nodes_map {f : Instance p → Instance p} (hf : ∀ i, (f i).seat = i.seat)
    (h : run'.instances = run.instances.map f) : run'.nodes = run.nodes := by
  unfold Run.nodes
  rw [h, List.map_map]
  exact List.map_congr_left fun i _ => congrArg Seat.node (hf i)

theorem act_instances (hn : run.nodes.Nodup) (h : run.act n turn = .ok run') :
    run'.instances = run.instances.map fun i =>
      if i.seat.node = n then tookTurn i (turn i.seat i.state) else i := by
  obtain ⟨hf, heq⟩ | ⟨i, hf, rfl⟩ := act_ok h
  · rw [heq]
    have hne : ∀ i ∈ run.instances, ¬ i.seat.node = n := by simpa using hf
    refine (List.map_id' _).symm.trans (List.map_congr_left fun i hi => ?_)
    rw [if_neg (hne i hi)]
  · refine List.map_congr_left fun j hj => ?_
    by_cases hjn : j.seat.node = n
    · have hin : i.seat.node = n := by simpa using List.find?_some hf
      obtain rfl := List.inj_on_of_nodup_map hn hj (List.mem_of_find?_eq_some hf)
        (hjn.trans hin.symm)
      rfl
    · rw [if_neg hjn, if_neg hjn]

theorem deliver_instances (hn : run.nodes.Nodup) (h : Run.deliver d run = .ok run') :
    run'.instances = run.instances.map fun i => hear i d := by
  obtain ⟨handed, hi, -, ha⟩ := deliver_ok h
  have hnodes : handed.nodes = run.nodes := congrArg (List.map _) hi
  rw [act_instances (hnodes ▸ hn) ha, hi]
  rfl

theorem deliveries_instances (hn : run.nodes.Nodup)
    (h : Run.sequence Run.deliver ds run = .ok run') :
    run'.instances = run.instances.map fun i => ds.foldl hear i := by
  induction ds generalizing run with
  | nil =>
    rw [← Except.ok.inj h]
    exact (List.map_id' _).symm
  | cons d ds ih =>
    obtain ⟨next, hd, hds⟩ := sequence_cons h
    have hi := deliver_instances hn hd
    have hnodes := nodes_map (fun i => seat_hear i d) hi
    rw [ih (hnodes ▸ hn) hds, hi, List.map_map]
    rfl

theorem acts_instances (hn : run.nodes.Nodup) (hns : ns.Nodup)
    (h : Run.sequence (fun n => Run.act n turn) ns run = .ok run') :
    run'.instances = run.instances.map fun i =>
      if i.seat.node ∈ ns then tookTurn i (turn i.seat i.state) else i := by
  induction ns generalizing run with
  | nil => simp [← Except.ok.inj h]
  | cons n ns ih =>
    obtain ⟨hne, hns⟩ := List.nodup_cons.mp hns
    obtain ⟨next, hx, hxs⟩ := sequence_cons h
    have hi := act_instances hn hx
    have hnodes := nodes_map (fun i => by split <;> rfl) hi
    rw [ih (hnodes ▸ hn) hns hxs, hi, List.map_map]
    refine List.map_congr_left fun i _ => ?_
    by_cases hin : i.seat.node = n
    · have hnot : (tookTurn i (turn i.seat i.state)).seat.node ∉ ns := hin ▸ hne
      rw [Function.comp_apply, if_pos hin, if_neg hnot, if_pos (List.mem_cons.mpr (.inl hin))]
    · rw [Function.comp_apply, if_neg hin]
      exact if_congr ((List.mem_cons.trans (or_iff_right hin)).symm) rfl rfl

/-- What a tick does to an instance: it is handed its messages, its timer moves on, and its events
are read. -/
theorem tick_instances (hn : run.nodes.Nodup) (h : Run.tick config wiring run = .ok run') :
    run'.instances = run.instances.map fun i =>
      (elapse ((run.network.pending.flatMap (deliveries wiring)).foldl hear i)).read := by
  obtain ⟨run₁, run₂, h₁, h₂, rfl⟩ := tick_ok h
  rw [deliveries_nextBatch] at h₁
  have hi₁ := deliveries_instances (by exact hn) h₁
  dsimp only at hi₁
  have hn₁ : run₁.nodes = run.nodes := nodes_map (fun i => seat_hears i _) hi₁
  have hi₂ := acts_instances (hn₁ ▸ hn) (hn₁ ▸ hn) h₂
  unfold Run.readEvents
  dsimp only
  rw [hi₂, hi₁, List.map_map, List.map_map]
  refine List.map_congr_left fun i hi => ?_
  have hmem : ((run.network.pending.flatMap (deliveries wiring)).foldl hear i).seat.node ∈
      run₁.nodes := by
    rw [seat_hears, hn₁]
    exact List.mem_map_of_mem hi
  rw [Function.comp_apply, Function.comp_apply, if_pos hmem]
  rfl

end Instances

section Runs

variable {p : Protocol} {scheme : Scheme} {s : Scenario} {config : RunConfig} {w : Wiring}
  {run run' : Run p} {ds : List Delivery} {k : Nat}

theorem act_frame {n : NodeId} {turn : Seat → p.State → Turn p.State}
    (h : run.act n turn = .ok run') :
    run'.nodes = run.nodes ∧ run'.ticks = run.ticks ∧ run'.received = run.received := by
  obtain ⟨-, rfl⟩ | ⟨i, -, rfl⟩ := act_ok h
  · exact ⟨rfl, rfl, rfl⟩
  · refine ⟨nodes_map (fun j => ?_) rfl, rfl, rfl⟩
    split <;> rfl

theorem acts_frame {ns : List NodeId} {turn : Seat → p.State → Turn p.State}
    (h : Run.sequence (fun n => Run.act n turn) ns run = .ok run') :
    run'.nodes = run.nodes ∧ run'.ticks = run.ticks ∧ run'.received = run.received :=
  sequence_invariant
    (P := fun r => r.nodes = run.nodes ∧ r.ticks = run.ticks ∧ r.received = run.received)
    (fun _ _ _ h hp =>
      have ⟨hn, ht, hr⟩ := act_frame h
      ⟨hn.trans hp.1, ht.trans hp.2.1, hr.trans hp.2.2⟩) h ⟨rfl, rfl, rfl⟩

def seen (p : Protocol) (ds : List Delivery) : List (NodeId × ReplicaId × Message) :=
  if p.watched then ds.map fun d => (d.receiver, d.origin, d.message) else []

theorem seen_append (p : Protocol) (ds ds' : List Delivery) :
    seen p (ds ++ ds') = seen p ds ++ seen p ds' := by
  unfold seen
  split
  · exact List.map_append
  · rfl

theorem deliver_frame {d : Delivery} (h : Run.deliver d run = .ok run') :
    run'.nodes = run.nodes ∧ run'.ticks = run.ticks ∧
      run'.received = run.received ++ seen p [d] := by
  unfold Run.deliver at h
  exact act_frame h

theorem deliveries_frame (h : Run.sequence Run.deliver ds run = .ok run') :
    run'.nodes = run.nodes ∧ run'.ticks = run.ticks ∧
      run'.received = run.received ++ seen p ds := by
  induction ds generalizing run with
  | nil =>
    rw [← Except.ok.inj h]
    refine ⟨rfl, rfl, ?_⟩
    unfold seen
    split <;> exact (List.append_nil _).symm
  | cons d ds ih =>
    obtain ⟨next, hd, hds⟩ := sequence_cons h
    obtain ⟨hn, ht, hr⟩ := deliver_frame hd
    obtain ⟨hn', ht', hr'⟩ := ih hds
    refine ⟨hn'.trans hn, ht'.trans ht, ?_⟩
    rw [hr', hr, List.append_assoc, ← seen_append, List.singleton_append]

theorem tick_frame (h : Run.tick config w run = .ok run') :
    run'.nodes = run.nodes ∧ run'.ticks = run.ticks + 1 ∧
      run'.received = run.received ++ seen p (run.network.pending.flatMap (deliveries w)) := by
  obtain ⟨run₁, run₂, h₁, h₂, rfl⟩ := tick_ok h
  rw [deliveries_nextBatch] at h₁
  obtain ⟨hn₁, ht₁, hr₁⟩ := deliveries_frame h₁
  obtain ⟨hn₂, ht₂, hr₂⟩ := acts_frame h₂
  refine ⟨Eq.trans (nodes_map (fun _ => ?_) rfl) (hn₂.trans hn₁), ?_, hr₂.trans hr₁⟩
  · rfl
  · exact congrArg (· + 1) (ht₂.trans ht₁)

theorem started_frame (h : started scheme s config p = .ok run) :
    run.nodes = (wiring s config).nodes.map (·.1) ∧ run.ticks = 0 ∧ run.received = [] := by
  obtain ⟨hn, ht, hr⟩ := acts_frame h
  exact ⟨hn.trans List.map_map, ht, hr⟩

theorem performed_frame (h : performed scheme s config p k = some run) :
    run.nodes = (wiring s config).nodes.map (·.1) ∧ run.ticks = k := by
  induction k generalizing run with
  | zero =>
    obtain ⟨hn, ht, -⟩ := started_frame (performed_zero.mp h)
    exact ⟨hn, ht⟩
  | succ k ih =>
    obtain ⟨before, hb, -, htick⟩ := performed_succ.mp h
    obtain ⟨hn, ht⟩ := ih hb
    obtain ⟨hn', ht', -⟩ := tick_frame htick
    exact ⟨hn'.trans hn, ht'.trans (congrArg (· + 1) ht)⟩

def resultOf (config : RunConfig) (w : Wiring) (last : Run p) : RunResult :=
  let run := last.readEvents config
  { sent := run.network.sent
    log := run.network.log
    commitLog := run.commitLog
    injected := run.network.injected
    ticks := run.ticks
    verdict := run.commitLog.judge (twinNodes config.twins w.nodes) }

theorem runProtocol_ok {r : RunResult} (h : (runProtocol scheme s config p).result = .ok r) :
    config.validate s = .ok () ∧ ∃ last, performed scheme s config p r.ticks = some last ∧
      ¬ GoesOn s config r.ticks last ∧ r = resultOf config (wiring s config) last ∧
      (runProtocol scheme s config p).received = last.received := by
  cases hv : config.validate s with
  | error e =>
    unfold runProtocol at h
    rw [hv] at h
    cases h
  | ok u =>
    rw [runProtocol_eq scheme p hv] at h ⊢
    cases hc : (opened scheme s config p).complete config (wiring s config) with
    | error stop =>
      rw [hc] at h
      cases h
    | ok last =>
      obtain ⟨j, hj, hdue⟩ := complete_ok hc
      rw [hc] at h
      have hr : resultOf config (wiring s config) last = r := Except.ok.inj h
      have ht : r.ticks = j := hr ▸ (performed_frame hj).2
      subst ht
      exact ⟨rfl, last, hj, hdue, hr.symm, rfl⟩

theorem runProtocol_resultOf {last : Run p} (hv : config.validate s = .ok ())
    (h : performed scheme s config p k = some last) (hdue : ¬ GoesOn s config k last)
    (hd : config.deadlinePassed = false) :
    (runProtocol scheme s config p).result = .ok (resultOf config (wiring s config) last) := by
  rw [runProtocol_eq scheme p hv, complete_eq_loop h]
  cases hb : config.ticks - k with
  | zero => rfl
  | succ b =>
    have hf : last.finished (wiring s config) = true := by
      by_contra hf
      exact hdue ⟨by omega, hd, by simpa using hf⟩
    rw [Run.loop, if_neg (by simp [hd]), if_pos hf]
    rfl

theorem performed_le {last : Run p} {j : Nat} (h : performed scheme s config p k = some last)
    (hdue : ¬ GoesOn s config k last) (h' : performed scheme s config p j = some run) : j ≤ k := by
  by_contra hk
  obtain ⟨before, hb, hd⟩ := performed_lt h' (by omega : k < j)
  exact hdue (Option.some.inj (hb.symm.trans h) ▸ hd)

end Runs

end Equivocation.Proofs.Handover
