import Equivocation.Proofs.Timeline

namespace Equivocation.Proofs.Echoes

open States Routing Timeline

def Inserted (x : Network.Entry) (xs ys : List Network.Entry) : Prop :=
  ∃ before after, xs = before ++ after ∧ ys = before ++ x :: after

section Relations

variable {p : Protocol} (x : Network.Entry)

/-- The books of two networks, of which the second has one line more in its log. -/
structure Echo (net net' : Network) : Prop where
  sent : net'.sent = net.sent
  pending : net'.pending = net.pending
  log : Inserted x net.log net'.log

structure RunEcho (run run' : Run p) : Prop where
  instances : run'.instances = run.instances
  ticks : run'.ticks = run.ticks
  network : Echo x run.network run'.network

inductive StepEcho : Run.Step p → Run.Step p → Prop
  | ok {run run' : Run p} (h : RunEcho x run run') : StepEcho (.ok run) (.ok run')
  | error {run run' : Run p} (e : RunError) : StepEcho (.error (e, run)) (.error (e, run'))

end Relations

variable {p : Protocol} {net net' : Network} {run run' : Run p} {x : Network.Entry}

theorem Inserted.append {xs ys : List Network.Entry} (h : Inserted x xs ys)
    (zs : List Network.Entry) : Inserted x (xs ++ zs) (ys ++ zs) := by
  obtain ⟨before, after, rfl, rfl⟩ := h
  exact ⟨before, after ++ zs, List.append_assoc _ _ _, List.append_assoc _ _ _⟩

theorem Echo.posted (h : Echo x net net') (n : NodeId) (r : ReplicaId)
    (ms : List (Recipients × Message)) :
    Echo x (ms.foldl (Network.post n r) net) (ms.foldl (Network.post n r) net') := by
  rw [foldl_post, foldl_post]
  refine ⟨?_, ?_, ?_⟩
  · dsimp only
    rw [h.sent]
  · dsimp only
    rw [h.sent, h.pending]
  · dsimp only
    rw [h.sent]
    exact h.log.append _

theorem Echo.batched (h : Echo x net net') (w : Wiring) :
    (Network.nextBatch w net').1 = (Network.nextBatch w net).1 ∧
      Echo x (Network.nextBatch w net).2 (Network.nextBatch w net').2 := by
  unfold Network.nextBatch
  rw [h.pending]
  exact ⟨rfl, h.sent, rfl, h.log.append _⟩

theorem act_echo (h : RunEcho x run run') (n : NodeId) (turn : Seat → p.State → Turn p.State) :
    StepEcho x (run.act n turn) (run'.act n turn) := by
  unfold Run.act
  rw [h.instances]
  cases run.instances.find? (·.seat.node = n) with
  | none => exact .ok h
  | some i =>
    dsimp only
    cases (turn i.seat i.state).halt with
    | none => exact .ok ⟨rfl, h.ticks, h.network.posted ..⟩
    | some halt => exact .error _

theorem deliver_echo (h : RunEcho x run run') (d : Delivery) :
    StepEcho x (Run.deliver d run) (Run.deliver d run') := by
  unfold Run.deliver
  dsimp only
  refine act_echo ?_ _ _
  exact ⟨h.instances, h.ticks, h.network⟩

theorem sequence_echo {α : Type} {step : α → Run p → Run.Step p}
    (hstep : ∀ y run run', RunEcho x run run' → StepEcho x (step y run) (step y run'))
    (ys : List α) (h : RunEcho x run run') :
    StepEcho x (Run.sequence step ys run) (Run.sequence step ys run') := by
  induction ys generalizing run run' with
  | nil => exact .ok h
  | cons y ys ih =>
    rw [Run.sequence, Run.sequence]
    have hy := hstep y run run' h
    revert hy
    generalize step y run = r, step y run' = r'
    intro hy
    cases hy with
    | ok h => exact ih h
    | error e => exact .error e

theorem tick_echo {w w' : Wiring} (c c' : RunConfig) (hi : run'.instances = run.instances)
    (ht : run'.ticks = run.ticks)
    (hd : (Network.nextBatch w' run'.network).1.deliveries =
      (Network.nextBatch w run.network).1.deliveries)
    (hn : Echo x (Network.nextBatch w run.network).2 (Network.nextBatch w' run'.network).2) :
    StepEcho x (Run.tick c w run) (Run.tick c' w' run') := by
  unfold Run.tick
  dsimp only
  rw [hd]
  have h₀ : RunEcho x
      { run with
        network := (Network.nextBatch w run.network).2
        records := run.records ++ (Network.nextBatch w run.network).1.remarks }
      { run' with
        network := (Network.nextBatch w' run'.network).2
        records := run'.records ++ (Network.nextBatch w' run'.network).1.remarks } :=
    ⟨hi, ht, hn⟩
  have h₁ := sequence_echo (fun d _ _ h => deliver_echo h d)
    (Network.nextBatch w run.network).1.deliveries h₀
  revert h₁
  generalize Run.sequence _ _ _ = r, Run.sequence _ _ _ = r'
  intro h₁
  cases h₁ with
  | error e => exact .error e
  | @ok run₁ run₁' h₁ =>
    have hnodes : run₁'.nodes = run₁.nodes := by
      unfold Run.nodes
      rw [h₁.instances]
    dsimp only
    rw [hnodes]
    have h₂ := sequence_echo (fun n _ _ h => act_echo h n p.tick) run₁.nodes h₁
    revert h₂
    generalize Run.sequence _ _ _ = r, Run.sequence _ _ _ = r'
    intro h₂
    cases h₂ with
    | error e => exact .error e
    | ok h₂ =>
      refine .ok ⟨?_, ?_, h₂.network⟩
      · exact congrArg (List.map Instance.read) h₂.instances
      · exact congrArg (· + 1) h₂.ticks

end Equivocation.Proofs.Echoes
