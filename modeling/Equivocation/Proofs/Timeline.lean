import Equivocation.Proofs.Routing
import Equivocation.Proofs.States

namespace Equivocation.Proofs.Timeline

open States Routing

def GoesOn {p : Protocol} (s : Scenario) (config : RunConfig) (k : Nat) (run : Run p) : Prop :=
  k < config.ticks ∧ config.deadlinePassed = false ∧ run.finished (wiring s config) = false

instance {p : Protocol} (s : Scenario) (config : RunConfig) (k : Nat) (run : Run p) :
    Decidable (GoesOn s config k run) :=
  inferInstanceAs (Decidable (_ ∧ _ ∧ _))

section Performances

variable (scheme : Scheme) (s : Scenario) (config : RunConfig) (p : Protocol)

def started : Run.Step p :=
  Run.sequence (fun n => Run.act n p.start) (opened scheme s config p).nodes
    (opened scheme s config p)

def performed : Nat → Option (Run p)
  | 0 => (started scheme s config p).toOption
  | k + 1 =>
    (performed k).bind fun run =>
      if GoesOn s config k run then (Run.tick config (wiring s config) run).toOption else none

end Performances

section Steps

variable {p : Protocol} {config : RunConfig} {wiring : Wiring} {run run' : Run p} {n : NodeId}
  {turn : Seat → p.State → Turn p.State}

def moved (run : Run p) (n : NodeId) (i : Instance p) (t : Turn p.State) : Run p :=
  { run with
    instances := run.instances.map fun j =>
      if j.seat.node = n then { j with state := t.state, unread := j.unread ++ t.events } else j
    network := t.sent.foldl (Network.post n i.seat.replica) run.network
    records := run.records ++ t.remarks }

theorem act_ok (h : run.act n turn = .ok run') :
    run.instances.find? (·.seat.node = n) = none ∧ run' = run ∨
      ∃ i, run.instances.find? (·.seat.node = n) = some i ∧
        run' = moved run n i (turn i.seat i.state) := by
  unfold Run.act at h
  cases hf : run.instances.find? (·.seat.node = n) with
  | none =>
    rw [hf] at h
    exact .inl ⟨rfl, (Except.ok.inj h).symm⟩
  | some i =>
    rw [hf] at h
    dsimp only at h
    split at h
    · exact .inr ⟨i, rfl, (Except.ok.inj h).symm⟩
    · cases h

/-- Handing over a message is a turn, apart from what is recorded about it. -/
theorem deliver_ok {d : Delivery} (h : Run.deliver d run = .ok run') :
    ∃ handed : Run p, handed.instances = run.instances ∧ handed.network = run.network ∧
      handed.act d.receiver (fun seat s => p.receive seat d.origin d.message s) = .ok run' := by
  unfold Run.deliver at h
  dsimp only at h
  refine ⟨_, ?_, ?_, h⟩
  · rfl
  · rfl

theorem tick_ok (h : Run.tick config wiring run = .ok run') :
    ∃ run₁ run₂,
      Run.sequence Run.deliver (Network.nextBatch wiring run.network).1.deliveries
        { run with
          network := (Network.nextBatch wiring run.network).2
          records := run.records ++ (Network.nextBatch wiring run.network).1.remarks } = .ok run₁ ∧
      Run.sequence (fun n => Run.act n p.tick) run₁.nodes run₁ = .ok run₂ ∧
      run' = { run₂.readEvents config with ticks := run₂.ticks + 1 } := by
  unfold Run.tick at h
  dsimp only at h
  split at h
  · cases h
  · rename_i run₁ h₁
    split at h
    · cases h
    · rename_i run₂ h₂
      exact ⟨run₁, run₂, h₁, h₂, (Except.ok.inj h).symm⟩

theorem sequence_cons {α : Type} {step : α → Run p → Run.Step p} {x : α} {xs : List α}
    (h : Run.sequence step (x :: xs) run = .ok run') :
    ∃ next, step x run = .ok next ∧ Run.sequence step xs next = .ok run' := by
  rw [Run.sequence] at h
  cases hx : step x run with
  | error stop =>
    rw [hx] at h
    cases h
  | ok next =>
    rw [hx] at h
    exact ⟨next, rfl, h⟩

theorem sequence_invariant {α : Type} {step : α → Run p → Run.Step p} {P : Run p → Prop}
    (hstep : ∀ x run run', step x run = .ok run' → P run → P run') {xs : List α}
    (h : Run.sequence step xs run = .ok run') (hp : P run) : P run' := by
  induction xs generalizing run with
  | nil => exact Except.ok.inj h ▸ hp
  | cons x xs ih =>
    obtain ⟨next, hx, hxs⟩ := sequence_cons h
    exact ih hxs (hstep x run next hx hp)

end Steps

section Performed

variable {p : Protocol} {scheme : Scheme} {s : Scenario} {config : RunConfig} {run run' : Run p}
  {k : Nat}

theorem toOption_eq_some {ε α : Type} {step : Except ε α} {next : α} :
    step.toOption = some next ↔ step = .ok next := by
  cases step with
  | error stop => exact ⟨nofun, nofun⟩
  | ok last =>
    exact ⟨fun h => congrArg _ (Option.some.inj h), fun h => congrArg _ (Except.ok.inj h)⟩

theorem performed_zero :
    performed scheme s config p 0 = some run ↔ started scheme s config p = .ok run :=
  toOption_eq_some

theorem performed_succ :
    performed scheme s config p (k + 1) = some run' ↔
      ∃ run, performed scheme s config p k = some run ∧ GoesOn s config k run ∧
        Run.tick config (wiring s config) run = .ok run' := by
  rw [performed, Option.bind_eq_some_iff]
  refine exists_congr fun run => and_congr_right fun _ => ?_
  split
  · rename_i h
    exact toOption_eq_some.trans (and_iff_right h).symm
  · rename_i h
    exact ⟨nofun, fun h' => absurd h'.1 h⟩

/-- What starting the instances and each tick preserve holds at any time. -/
theorem performed_invariant {P : Run p → Prop}
    (hstart : ∀ run, started scheme s config p = .ok run → P run)
    (htick : ∀ run run', Run.tick config (wiring s config) run = .ok run' → P run → P run')
    (h : performed scheme s config p k = some run) : P run := by
  induction k generalizing run with
  | zero => exact hstart run (performed_zero.mp h)
  | succ k ih =>
    obtain ⟨before, hb, -, ht⟩ := performed_succ.mp h
    exact htick before run ht (ih hb)

theorem performed_lt {j : Nat} (h : performed scheme s config p k = some run) (hj : j < k) :
    ∃ before, performed scheme s config p j = some before ∧ GoesOn s config j before := by
  induction k generalizing run with
  | zero => cases hj
  | succ k ih =>
    obtain ⟨before, hb, hdue, -⟩ := performed_succ.mp h
    rcases Nat.lt_succ_iff_lt_or_eq.mp hj with hj | rfl
    · exact ih hb hj
    · exact ⟨before, hb, hdue⟩

theorem loop_goesOn {budget : Nat} (h : GoesOn s config k run) :
    Run.loop config (wiring s config) (budget + 1) run =
      (Run.tick config (wiring s config) run).bind (Run.loop config (wiring s config) budget) := by
  rw [Run.loop, if_neg (by simp [h.2.1]), if_neg (by simp [h.2.2])]
  cases Run.tick config (wiring s config) run with
  | error stop => rfl
  | ok next => rfl

theorem complete_error {stop : RunError × Run p} (h : started scheme s config p = .error stop) :
    (opened scheme s config p).complete config (wiring s config) = .error stop := by
  unfold Run.complete
  rw [show Run.sequence _ _ _ = .error stop from h]

theorem complete_eq_loop (h : performed scheme s config p k = some run) :
    (opened scheme s config p).complete config (wiring s config) =
      Run.loop config (wiring s config) (config.ticks - k) run := by
  induction k generalizing run with
  | zero =>
    unfold Run.complete
    rw [show Run.sequence _ _ _ = .ok run from performed_zero.mp h]
    rfl
  | succ k ih =>
    obtain ⟨before, hb, hdue, ht⟩ := performed_succ.mp h
    have hk : config.ticks - k = config.ticks - (k + 1) + 1 := by
      have := hdue.1
      omega
    rw [ih hb, hk, loop_goesOn hdue, ht, Except.bind]

theorem loop_ok {budget : Nat} {last : Run p} (hk : k + budget = config.ticks)
    (h : performed scheme s config p k = some run)
    (hl : Run.loop config (wiring s config) budget run = .ok last) :
    ∃ j, performed scheme s config p j = some last ∧ ¬ GoesOn s config j last := by
  induction budget generalizing k run with
  | zero =>
    rw [← Except.ok.inj hl]
    exact ⟨k, h, fun hdue => absurd hdue.1 (by omega)⟩
  | succ budget ih =>
    by_cases hdue : GoesOn s config k run
    · rw [loop_goesOn hdue] at hl
      cases ht : Run.tick config (wiring s config) run with
      | error stop =>
        rw [ht] at hl
        cases hl
      | ok next =>
        rw [ht] at hl
        exact ih (by omega) (performed_succ.mpr ⟨run, h, hdue, ht⟩) hl
    · rw [Run.loop] at hl
      split at hl
      · cases hl
      · split at hl
        · rw [← Except.ok.inj hl]
          exact ⟨k, h, hdue⟩
        · rename_i hd hf
          exact absurd ⟨by omega, by simpa using hd, by simpa using hf⟩ hdue

/-- A run that ends well ends in a state that it has performed all its ticks for. -/
theorem complete_ok {last : Run p}
    (h : (opened scheme s config p).complete config (wiring s config) = .ok last) :
    ∃ j, performed scheme s config p j = some last ∧ ¬ GoesOn s config j last := by
  cases hs : started scheme s config p with
  | error stop =>
    rw [complete_error hs] at h
    cases h
  | ok run =>
    have h₀ := performed_zero.mpr hs
    rw [complete_eq_loop h₀] at h
    exact loop_ok (Nat.zero_add _) h₀ h

end Performed

section Networks

variable {p : Protocol} {scheme : Scheme} {s : Scenario} {config : RunConfig} {w : Wiring}
  {run run' : Run p} {n : NodeId} {turn : Seat → p.State → Turn p.State} {P : Network → Prop}
  (hpost : ∀ (net : Network) (n : NodeId) (r : ReplicaId) (ms : List (Recipients × Message)),
    P net → P (ms.foldl (Network.post n r) net))
include hpost

theorem act_network (h : run.act n turn = .ok run') (hp : P run.network) : P run'.network := by
  obtain ⟨-, rfl⟩ | ⟨i, -, rfl⟩ := act_ok h
  · exact hp
  · exact hpost _ _ _ _ hp

theorem acts_network (turn : Seat → p.State → Turn p.State) {ns : List NodeId}
    (h : Run.sequence (fun n => Run.act n turn) ns run = .ok run') (hp : P run.network) :
    P run'.network :=
  sequence_invariant (P := fun run => P run.network) (fun _ _ _ => act_network hpost) h hp

theorem deliveries_network {ds : List Delivery} (h : Run.sequence Run.deliver ds run = .ok run')
    (hp : P run.network) : P run'.network := by
  refine sequence_invariant (P := fun run => P run.network) (fun d run run' h hp => ?_) h hp
  obtain ⟨handed, -, hn, ha⟩ := deliver_ok h
  exact act_network hpost ha (hn ▸ hp)

theorem tick_network (hbatch : P (Network.nextBatch w run.network).2)
    (h : Run.tick config w run = .ok run') : P run'.network := by
  obtain ⟨run₁, run₂, h₁, h₂, rfl⟩ := tick_ok h
  have hp₁ := deliveries_network hpost h₁ hbatch
  have hp₂ := acts_network hpost p.tick h₂ hp₁
  exact hp₂

/-- What posting and batching preserve holds of the network at any time. -/
theorem performed_network (hinit : P {})
    (hbatch : ∀ net, P net → P (Network.nextBatch (wiring s config) net).2) {k : Nat}
    (h : performed scheme s config p k = some run) : P run.network := by
  refine performed_invariant (P := fun run => P run.network) (fun run hs => ?_)
    (fun run run' ht hp => tick_network hpost (hbatch _ hp) ht) h
  exact acts_network hpost p.start hs hinit

end Networks

section Books

variable {p : Protocol} {scheme : Scheme} {s : Scenario} {config : RunConfig} {w : Wiring}
  {run run' : Run p} {resolved : List Envelope} {k : Nat}

theorem act_orderly {n : NodeId} {turn : Seat → p.State → Turn p.State}
    (h : run.act n turn = .ok run') (ho : Orderly w resolved run.network) :
    Orderly w resolved run'.network :=
  act_network (fun _ n r ms h => h.posted n r ms) h ho

theorem tick_orderly (h : Run.tick config w run = .ok run') (ho : Orderly w resolved run.network) :
    Orderly w run.network.sent run'.network :=
  tick_network (fun _ n r ms h => h.posted n r ms) ho.batched h

theorem performed_orderly (h : performed scheme s config p k = some run) :
    ∃ resolved, Orderly (wiring s config) resolved run.network :=
  performed_network (P := fun net => ∃ resolved, Orderly (wiring s config) resolved net)
    (fun _ n r ms ⟨resolved, h⟩ => ⟨resolved, h.posted n r ms⟩) ⟨[], orderly_empty _⟩
    (fun net ⟨_, h⟩ => ⟨net.sent, h.batched⟩) h

theorem performed_resolved {j : Nat} (h : performed scheme s config p j = some run)
    (h' : performed scheme s config p k = some run') (hj : j < k) :
    ∃ resolved, Orderly (wiring s config) resolved run'.network ∧
      run.network.sent ⊆ resolved := by
  induction k generalizing run' with
  | zero => cases hj
  | succ k ih =>
    obtain ⟨before, hb, -, ht⟩ := performed_succ.mp h'
    rcases Nat.lt_succ_iff_lt_or_eq.mp hj with hj | rfl
    · obtain ⟨resolved, ho, hsub⟩ := ih hb hj
      refine ⟨before.network.sent, tick_orderly ht ho, fun e he => ?_⟩
      rw [ho.filed]
      exact List.mem_append_left _ (hsub he)
    · obtain ⟨resolved, ho⟩ := performed_orderly hb
      rw [Option.some.inj (h.symm.trans hb)]
      exact ⟨before.network.sent, tick_orderly ht ho, List.Subset.refl _⟩

theorem performed_sent {j : Nat} {e : Envelope}
    (h : performed scheme s config p j = some run)
    (h' : performed scheme s config p k = some run') (hj : j ≤ k) (he : e ∈ run.network.sent) :
    e ∈ run'.network.sent := by
  rcases Nat.lt_or_eq_of_le hj with hj | rfl
  · obtain ⟨resolved, ho, hsub⟩ := performed_resolved h h' hj
    rw [ho.filed]
    exact List.mem_append_left _ (hsub he)
  · rwa [Option.some.inj (h'.symm.trans h)]

theorem performed_logged (h : performed scheme s config p k = some run) (e : Envelope) :
    .sent e ∈ run.network.log ↔ e ∈ run.network.sent := by
  refine performed_network (P := fun net => .sent e ∈ net.log ↔ e ∈ net.sent)
    (fun net n r ms h => ?_) (by simp) (fun net h => sent_nextBatch.trans h) h
  rw [foldl_post]
  dsimp only
  rw [List.mem_append, List.mem_append, h]
  simp

end Books

end Equivocation.Proofs.Timeline
