import Equivocation.Proofs.Agreement
import Equivocation.Proofs.Echoes
import Mathlib.Data.Nat.Find

namespace Equivocation.Proofs.Substitution

open States Routing Timeline Echoes

def rigged (config : RunConfig) (inj : Option Injection) : RunConfig :=
  { config with injection := inj }

def Aimed (n : Nat) (inj : Option Injection) : Prop := ∀ i ∈ inj, i.ordinal = n

theorem aimed_none (n : Nat) : Aimed n none := nofun

theorem aimed_some (i : Injection) : Aimed i.ordinal (some i) := by
  rintro _ ⟨⟩
  rfl

section Accounts

variable (scheme : Scheme) (s : Scenario) (config : RunConfig) (p : Protocol)

def EverSent (e : Envelope) : Prop :=
  ∃ k run, performed scheme s config p k = some run ∧ e ∈ run.network.sent

/-- From some time on, the books of a run have a message under its number and no other. -/
def OnRecord (e : Envelope) : Prop :=
  ∃ k, (performed scheme s config p k).isSome ∧
    ∀ j run, k ≤ j → performed scheme s config p j = some run →
      ∀ e' : Envelope, e'.ordinal = e.ordinal →
        (e' ∈ run.network.sent ↔ e' = e) ∧ (.sent e' ∈ run.network.log ↔ e' = e)

def Batched (e : Envelope) : Prop :=
  ∃ k run, performed scheme s config p k = some run ∧ GoesOn s config k run ∧
    e ∈ run.network.pending

def Handed (d : Delivery) : Prop :=
  ∃ k run, performed scheme s config p k = some run ∧ GoesOn s config k run ∧
    d ∈ (Network.nextBatch (wiring s config) run.network).1.deliveries

end Accounts

inductive Neutral (x : Network.Entry) : Except RunError RunResult → Except RunError RunResult → Prop
  | error (e : RunError) : Neutral x (.error e) (.error e)
  | ok {r r' : RunResult} (sent : r'.sent = r.sent) (ticks : r'.ticks = r.ticks)
    (commitLog : r'.commitLog = r.commitLog) (verdict : r'.verdict = r.verdict)
    (log : Inserted x r.log r'.log) : Neutral x (.ok r) (.ok r')

variable {p : Protocol} {scheme : Scheme} {s : Scenario} {config : RunConfig} {w : Wiring}
  {nodes : List (NodeId × ReplicaId)} {a b : Option Injection} {i : Injection} {j k n : Nat}
  {e e' : Envelope} {net net' : Network} {run run' : Run p} {x : Network.Entry}

section Coincidence

theorem resolve_other (ha : ∀ i ∈ a, i.ordinal ≠ e.ordinal) :
    Network.resolve ⟨s, nodes, a⟩ e = Network.resolve ⟨s, nodes, none⟩ e := by
  have hr : Network.replacement? ⟨s, nodes, a⟩ e = none := by
    unfold Network.replacement?
    cases a with
    | none => rfl
    | some i => exact if_neg (ha i rfl)
  unfold Network.resolve
  rw [hr]
  rfl

theorem nextBatch_other (ha : Aimed n a) (hb : Aimed n b)
    (hp : ∀ e ∈ net.pending, e.ordinal ≠ n) :
    Network.nextBatch ⟨s, nodes, a⟩ net = Network.nextBatch ⟨s, nodes, b⟩ net := by
  have hm : net.pending.map (Network.resolve ⟨s, nodes, a⟩) =
      net.pending.map (Network.resolve ⟨s, nodes, b⟩) := by
    refine List.map_congr_left fun e he => ?_
    rw [resolve_other fun i hi => (ha i hi).trans_ne (hp e he).symm,
      resolve_other fun i hi => (hb i hi).trans_ne (hp e he).symm]
  unfold Network.nextBatch
  rw [hm]

theorem tick_other (s : Scenario) (config : RunConfig) (ha : Aimed n a) (hb : Aimed n b)
    (hp : ∀ e ∈ run.network.pending, e.ordinal ≠ n) :
    Run.tick (rigged config a) (wiring s (rigged config a)) run =
      Run.tick (rigged config b) (wiring s (rigged config b)) run := by
  have hn : Network.nextBatch (wiring s (rigged config a)) run.network =
      Network.nextBatch (wiring s (rigged config b)) run.network := nextBatch_other ha hb hp
  unfold Run.tick
  rw [hn]
  rfl

/-- Until message `n` is taken up, it does not matter what is to be injected for it. -/
theorem performed_eq (ha : Aimed n a) (hb : Aimed n b)
    (h : ∀ j < k, ∀ run, performed scheme s (rigged config a) p j = some run →
      ∀ e ∈ run.network.pending, e.ordinal ≠ n) :
    performed scheme s (rigged config b) p k = performed scheme s (rigged config a) p k := by
  induction k with
  | zero => rfl
  | succ k ih =>
    rw [performed, performed, ih fun j hj => h j (Nat.lt_succ_of_lt hj)]
    refine Option.bind_congr fun run hr => ?_
    rw [tick_other s config hb ha (h k k.lt_succ_self run hr)]
    rfl

end Coincidence

section Records

theorem recorded (h : performed scheme s config p k = some run) (he : e ∈ run.network.sent) :
    OnRecord scheme s config p e := by
  refine ⟨k, by rw [h]; rfl, fun j run' hj h' e' hn => ?_⟩
  obtain ⟨resolved, ho⟩ := performed_orderly h'
  have hs : e' ∈ run'.network.sent ↔ e' = e := by
    constructor
    · intro he'
      exact ho.ordinal_inj he' (performed_sent h h' hj he) hn
    · rintro rfl
      exact performed_sent h h' hj he
  exact ⟨hs, (performed_logged h' e').trans hs⟩

theorem first_everSent (h : EverSent scheme s config p e) :
    ∃ k run, performed scheme s config p k = some run ∧ e ∈ run.network.sent ∧
      ∀ j < k, ∀ run, performed scheme s config p j = some run →
        ∀ e' ∈ run.network.pending, e'.ordinal ≠ e.ordinal := by
  classical
  obtain ⟨run, hr, he⟩ := Nat.find_spec h
  refine ⟨Nat.find h, run, hr, he, fun j hj run' hr' e' he' hn => ?_⟩
  obtain ⟨resolved', ho'⟩ := performed_orderly hr'
  obtain ⟨resolved, ho⟩ := performed_orderly hr
  have hs' := ho'.pending_sent he'
  have he'' := ho.ordinal_inj (performed_sent hr' hr (Nat.le_of_lt hj) hs') he hn
  exact Nat.find_min h hj ⟨run', hr', he'' ▸ hs'⟩

theorem onRecord_both (ha : Aimed n a) (hb : Aimed n b)
    (hn : e.ordinal = n) (h : EverSent scheme s (rigged config a) p e) :
    OnRecord scheme s (rigged config a) p e ∧ OnRecord scheme s (rigged config b) p e := by
  obtain ⟨k, run, hr, he, hearlier⟩ := first_everSent h
  have hsame := performed_eq ha hb fun j hj run hr e' he' => hn ▸ hearlier j hj run hr e' he'
  exact ⟨recorded hr he, recorded (hsame.trans hr) he⟩

end Records

section Reports

/-- A run has injected its message once a batch has brought the message to an instance. -/
theorem performed_injected (hi : config.injection = some i)
    (h : performed scheme s config p k = some run) :
    run.network.injected = true ↔
      ∃ j < k, ∃ before, performed scheme s config p j = some before ∧
        ∃ d ∈ (Network.nextBatch (wiring s config) before.network).1.deliveries,
          d.ordinal = i.ordinal ∧ d.message = i.replacement := by
  have hpost : ∀ (c : Bool) (net : Network) (n : NodeId) (r : ReplicaId)
      (ms : List (Recipients × Message)), net.injected = c →
        (ms.foldl (Network.post n r) net).injected = c := by
    intro c net n r ms h
    rwa [foldl_post]
  induction k generalizing run with
  | zero =>
    have hs := acts_network (hpost false) p.start (performed_zero.mp h) rfl
    simp [hs]
  | succ k ih =>
    obtain ⟨before, hb, -, ht⟩ := performed_succ.mp h
    have hw : (wiring s config).injection = some i := hi
    have hn : run.network.injected =
        (Network.nextBatch (wiring s config) before.network).2.injected :=
      tick_network (hpost _) rfl ht
    rw [hn]
    refine (injected_nextBatch hw _).trans ((or_congr_left (ih hb)).trans ?_)
    constructor
    · rintro (⟨j, hj, hd⟩ | hd)
      · exact ⟨j, Nat.lt_succ_of_lt hj, hd⟩
      · exact ⟨k, k.lt_succ_self, before, hb, hd⟩
    · rintro ⟨j, hj, before', hb', hd⟩
      rcases Nat.lt_succ_iff_lt_or_eq.mp hj with hj | rfl
      · exact .inl ⟨j, hj, before', hb', hd⟩
      · rw [Option.some.inj (hb'.symm.trans hb)] at hd
        exact .inr hd

theorem injected_iff (hi : config.injection = some i)
    (h : performed scheme s config p k = some run) (hlast : ¬ GoesOn s config k run) :
    run.network.injected = true ↔
      ∃ d, Handed scheme s config p d ∧ d.ordinal = i.ordinal ∧ d.message = i.replacement := by
  rw [performed_injected hi h]
  constructor
  · rintro ⟨j, hj, before, hb, d, hd, hm⟩
    obtain ⟨before', hb', hdue⟩ := performed_lt h hj
    rw [Option.some.inj (hb'.symm.trans hb)] at hdue
    exact ⟨d, ⟨j, before, hb, hdue, hd⟩, hm⟩
  · rintro ⟨d, ⟨j, before, hb, hdue, hd⟩, hm⟩
    refine ⟨j, ?_, before, hb, d, hd, hm⟩
    rcases Nat.lt_trichotomy j k with hj | rfl | hj
    · exact hj
    · exact absurd (Option.some.inj (hb.symm.trans h) ▸ hdue) hlast
    · obtain ⟨run', h', hdue'⟩ := performed_lt hb hj
      exact absurd (Option.some.inj (h'.symm.trans h) ▸ hdue') hlast

end Reports

section Neutrality

variable {resolved : List Envelope}

theorem log_route (v : ViewSchedule) (m : Message) (c c' : Bool) (r : NodeId) :
    (Network.route v e m c r).log = (Network.route v e m c' r).log := by
  unfold Network.route
  split <;> rfl

theorem carried_same (hm : e.ordinal = i.ordinal → e.message = i.replacement) :
    carried ⟨s, nodes, some i⟩ e = e.message := by
  rcases carried_cases ⟨s, nodes, some i⟩ e with h | ⟨j, hj, ho, h⟩
  · exact h
  · cases hj
    exact h.trans (hm ho.symm).symm

/-- To put a message in its own place adds a line to what its log has to say. -/
theorem log_resolve_same (hn : e.ordinal = i.ordinal) (hm : e.message = i.replacement) :
    (Network.resolve ⟨s, nodes, some i⟩ e).log =
      .injected e.ordinal e.message :: (Network.resolve ⟨s, nodes, none⟩ e).log := by
  have hr : (Network.replacement? ⟨s, nodes, some i⟩ e).isSome = true :=
    congrArg Option.isSome (if_pos hn.symm)
  rw [log_resolve, log_resolve, carried_same fun _ => hm, if_pos hr, hr]
  refine congrArg (Network.Entry.injected e.ordinal e.message :: ·) ?_
  rw [carried_eq rfl]
  dsimp only
  cases s.schedule? e.message.view with
  | none => rfl
  | some v => exact List.flatMap_congr fun r _ => log_route v e.message true false r

theorem deliveries_same (hm : e.ordinal = i.ordinal → e.message = i.replacement) :
    deliveries ⟨s, nodes, some i⟩ e = deliveries ⟨s, nodes, none⟩ e := by
  unfold deliveries receivers
  rw [carried_same hm]
  rfl

theorem nextBatch_same (s : Scenario) (nodes : List (NodeId × ReplicaId))
    (ho : Orderly w resolved net) (he : e ∈ net.pending) (hn : e.ordinal = i.ordinal)
    (hm : e.message = i.replacement) :
    (Network.nextBatch ⟨s, nodes, some i⟩ net).1.deliveries =
        (Network.nextBatch ⟨s, nodes, none⟩ net).1.deliveries ∧
      Echo (.injected e.ordinal e.message) (Network.nextBatch ⟨s, nodes, none⟩ net).2
        (Network.nextBatch ⟨s, nodes, some i⟩ net).2 := by
  have hd : ∀ e' ∈ net.pending, e'.ordinal = i.ordinal → e'.message = i.replacement := by
    intro e' he' hn'
    rw [ho.ordinal_inj (ho.pending_sent he') (ho.pending_sent he) (hn'.trans hn.symm), hm]
  constructor
  · rw [deliveries_nextBatch, deliveries_nextBatch]
    exact List.flatMap_congr fun e' he' => deliveries_same (hd e' he')
  · obtain ⟨before, after, hp⟩ := List.append_of_mem he
    have hother : ∀ e' ∈ before ++ after, (Network.resolve ⟨s, nodes, some i⟩ e').log =
        (Network.resolve ⟨s, nodes, none⟩ e').log := by
      intro e' he'
      rw [resolve_other fun j hj hji => ho.waits_once hp he' ?_]
      rw [hn, ← hji, aimed_some i j hj]
    have hbefore := List.flatMap_congr fun e' he' => hother e' (List.mem_append_left after he')
    have hafter := List.flatMap_congr fun e' he' => hother e' (List.mem_append_right before he')
    refine ⟨rfl, rfl, net.log ++ before.flatMap fun e' => (Network.resolve ⟨s, nodes, none⟩ e').log,
      (Network.resolve ⟨s, nodes, none⟩ e).log ++
        after.flatMap fun e' => (Network.resolve ⟨s, nodes, none⟩ e').log, ?_, ?_⟩
    · rw [log_nextBatch, hp, List.flatMap_append, List.flatMap_cons, List.append_assoc]
    · rw [log_nextBatch, hp, List.flatMap_append, List.flatMap_cons, log_resolve_same hn hm,
        hbefore, hafter, List.append_assoc, List.cons_append]

/-- Once a message has been taken up, its injection makes no difference to a tick. -/
theorem later_tick_echo (config : RunConfig) (h : RunEcho x run run')
    (ho : Orderly w resolved run.network) (he : e ∈ resolved) (hn : e.ordinal = i.ordinal) :
    StepEcho x (Run.tick (rigged config none) (wiring s (rigged config none)) run)
      (Run.tick (rigged config (some i)) (wiring s (rigged config (some i))) run') := by
  have hp : ∀ e' ∈ run'.network.pending, e'.ordinal ≠ i.ordinal := by
    rw [h.network.pending, ← hn]
    exact fun e' he' => ho.not_pending he he'
  have hb : Network.nextBatch (wiring s (rigged config (some i))) run'.network =
      Network.nextBatch (wiring s (rigged config none)) run'.network :=
    nextBatch_other (aimed_some i) (aimed_none _) hp
  obtain ⟨hbatch, hnet⟩ := h.network.batched (wiring s (rigged config none))
  rw [← hb] at hbatch hnet
  exact tick_echo (rigged config none) (rigged config (some i)) h.instances h.ticks
    (congrArg _ hbatch) hnet

theorem loop_echo (h : RunEcho x run run')
    (ho : Orderly (wiring s (rigged config none)) resolved run.network) (he : e ∈ resolved)
    (hn : e.ordinal = i.ordinal) (budget : Nat) :
    StepEcho x (Run.loop (rigged config none) (wiring s (rigged config none)) budget run)
      (Run.loop (rigged config (some i)) (wiring s (rigged config (some i))) budget run') := by
  induction budget generalizing run run' resolved with
  | zero => exact .ok h
  | succ budget ih =>
    rw [Run.loop, Run.loop]
    have hd : (rigged config (some i)).deadlinePassed = (rigged config none).deadlinePassed := rfl
    have hf : run'.finished (wiring s (rigged config (some i))) =
        run.finished (wiring s (rigged config none)) := by
      unfold Run.finished
      rw [h.instances]
      rfl
    rw [hd, hf]
    split
    · rw [h.ticks]
      exact .error _
    · split
      · exact .ok h
      · have ht := later_tick_echo (s := s) config h ho he hn
        revert ht
        generalize hr : Run.tick _ _ run = r, Run.tick _ _ run' = r'
        intro ht
        cases ht with
        | error e => exact .error e
        | ok h =>
          refine ih h (tick_orderly hr ho) ?_
          rw [ho.filed]
          exact List.mem_append_left _ he

end Neutrality

section Outcomes

theorem validate_rigged (config : RunConfig) (inj : Option Injection) (s : Scenario) :
    (rigged config inj).validate s = config.validate s :=
  @validate_congr config (rigged config inj) rfl rfl s

theorem outcome_echo {r r' : Run.Step p} {w w' : Wiring}
    (hw : w'.nodes = w.nodes) (h : StepEcho x r r') :
    Neutral x (Run.outcome (rigged config a) w r).result
      (Run.outcome (rigged config b) w' r').result := by
  cases h with
  | error e => exact .error e
  | @ok run run' h =>
    have hc : (run'.readEvents (rigged config b)).commitLog =
        (run.readEvents (rigged config a)).commitLog := by
      unfold Run.commitLog Run.readEvents
      rw [h.instances]
    refine .ok h.network.sent h.ticks hc ?_ h.network.log
    dsimp only
    rw [hc, hw]
    rfl

end Outcomes

section Runs

/-- From the batch on in which a message is put in its own place, the runs differ by a line. -/
theorem complete_echo (hb : Batched scheme s (rigged config none) p e) (hn : e.ordinal = i.ordinal)
    (hm : e.message = i.replacement) :
    StepEcho (.injected e.ordinal e.message)
      ((opened scheme s (rigged config none) p).complete (rigged config none)
        (wiring s (rigged config none)))
      ((opened scheme s (rigged config (some i)) p).complete (rigged config (some i))
        (wiring s (rigged config (some i)))) := by
  obtain ⟨k, run, hr, hdue, he⟩ := hb
  obtain ⟨resolved, ho⟩ := performed_orderly hr
  -- Until now no batch had a message of this number, so both runs are at `run`.
  have hearlier : ∀ j < k, ∀ run, performed scheme s (rigged config none) p j = some run →
      ∀ e' ∈ run.network.pending, e'.ordinal ≠ i.ordinal := by
    intro j hj run' hr' e' he' hn'
    obtain ⟨resolved', ho'⟩ := performed_orderly hr'
    obtain ⟨resolved, ho, hsub⟩ := performed_resolved hr' hr hj
    exact ho.not_pending (hsub (ho'.pending_sent he')) he (hn.trans hn'.symm)
  have hr' : performed scheme s (rigged config (some i)) p k = some run :=
    (performed_eq (aimed_none _) (aimed_some i) hearlier).trans hr
  have hdue' : GoesOn s (rigged config (some i)) k run := hdue
  obtain ⟨budget, hbudget⟩ := Nat.exists_eq_succ_of_ne_zero (Nat.sub_ne_zero_of_lt hdue.1)
  have hbudget' : (rigged config (some i)).ticks - k = budget + 1 := hbudget
  rw [complete_eq_loop hr, complete_eq_loop hr', hbudget, hbudget', loop_goesOn hdue,
    loop_goesOn hdue']
  obtain ⟨hd, hnet⟩ := nextBatch_same s (wiring s config).nodes ho he hn hm
  have ht := tick_echo (rigged config none) (rigged config (some i)) rfl rfl hd hnet
  change StepEcho _ (Run.tick _ (wiring s (rigged config none)) _)
    (Run.tick _ (wiring s (rigged config (some i))) _) at ht
  revert ht
  generalize htick : Run.tick (rigged config none) _ run = r,
    Run.tick (rigged config (some i)) _ run = r'
  intro ht
  cases ht with
  | error e => exact .error e
  | ok h => exact loop_echo h (tick_orderly htick ho) (ho.pending_sent he) hn budget

theorem loop_other
    (h : ∀ e, Batched scheme s (rigged config none) p e → e.ordinal ≠ i.ordinal) {budget : Nat}
    (hk : k + budget = config.ticks) (hr : performed scheme s (rigged config none) p k = some run) :
    Run.loop (rigged config (some i)) (wiring s (rigged config (some i))) budget run =
      Run.loop (rigged config none) (wiring s (rigged config none)) budget run := by
  induction budget generalizing k run with
  | zero => rfl
  | succ budget ih =>
    by_cases hdue : GoesOn s (rigged config none) k run
    · have hdue' : GoesOn s (rigged config (some i)) k run := hdue
      have ht := tick_other s config (aimed_some i) (aimed_none _) fun e he =>
        h e ⟨k, run, hr, hdue, he⟩
      rw [loop_goesOn hdue, loop_goesOn hdue', ht]
      cases htick : Run.tick (rigged config none) (wiring s (rigged config none)) run with
      | error stop => rfl
      | ok next => exact ih (by omega) (performed_succ.mpr ⟨run, hr, hdue, htick⟩)
    · rw [Run.loop, Run.loop]
      have hd : (rigged config (some i)).deadlinePassed = (rigged config none).deadlinePassed := rfl
      have hf : run.finished (wiring s (rigged config (some i))) =
        run.finished (wiring s (rigged config none)) := rfl
      rw [hd, hf]
      split
      · rfl
      · split
        · rfl
        · rename_i hd hf
          have hlt : k < config.ticks := by omega
          exact absurd ⟨hlt, by simpa using hd, by simpa using hf⟩ hdue

theorem complete_other
    (h : ∀ e, Batched scheme s (rigged config none) p e → e.ordinal ≠ i.ordinal) :
    (opened scheme s (rigged config (some i)) p).complete (rigged config (some i))
        (wiring s (rigged config (some i))) =
      (opened scheme s (rigged config none) p).complete (rigged config none)
        (wiring s (rigged config none)) := by
  cases hs : started scheme s (rigged config none) p with
  | error stop =>
    have hs' : started scheme s (rigged config (some i)) p = .error stop := hs
    rw [complete_error hs, complete_error hs']
  | ok run =>
    have hr := performed_zero.mpr hs
    have hr' : performed scheme s (rigged config (some i)) p 0 = some run := hr
    rw [complete_eq_loop hr, complete_eq_loop hr']
    exact loop_other h (Nat.zero_add _) hr

end Runs

section Injections

structure Confined (scheme : Scheme) (s : Scenario) (config : RunConfig) (p : Protocol)
    (i : Injection) : Prop where
  /-- Up to the batch that takes up the message, the runs are the same. -/
  coincide : ∀ k, (∀ j < k, ∀ run, performed scheme s (rigged config none) p j = some run →
      ∀ e ∈ run.network.pending, e.ordinal ≠ i.ordinal) →
    performed scheme s (rigged config (some i)) p k = performed scheme s (rigged config none) p k
  /-- The books of both runs have the message as it was sent. -/
  recorded : ∀ e : Envelope, e.ordinal = i.ordinal →
    EverSent scheme s (rigged config none) p e ∨ EverSent scheme s (rigged config (some i)) p e →
      OnRecord scheme s (rigged config none) p e ∧ OnRecord scheme s (rigged config (some i)) p e
  /-- A run that ends well says whether the replacement has reached an instance. -/
  injected : ∀ r, (runProtocol scheme s (rigged config (some i)) p).result = .ok r →
    (r.injected = true ↔ ∃ d, Handed scheme s (rigged config (some i)) p d ∧
      d.ordinal = i.ordinal ∧ d.message = i.replacement)
  /-- A message that no batch takes up is not replaced. -/
  unbatched : (∀ e, Batched scheme s (rigged config none) p e → e.ordinal ≠ i.ordinal) →
    runProtocol scheme s (rigged config (some i)) p = runProtocol scheme s (rigged config none) p
  /-- To put a message in its own place does nothing but add a line to the log. -/
  neutral : ∀ e : Envelope, Batched scheme s (rigged config none) p e → e.ordinal = i.ordinal →
    e.message = i.replacement →
      Neutral (.injected e.ordinal e.message)
        (runProtocol scheme s (rigged config none) p).result
        (runProtocol scheme s (rigged config (some i)) p).result

theorem runProtocol_rigged {inj : Option Injection} (hv : config.validate s = .ok ()) :
    runProtocol scheme s (rigged config inj) p =
      Run.outcome (rigged config inj) (wiring s (rigged config inj))
        ((opened scheme s (rigged config inj) p).complete (rigged config inj)
          (wiring s (rigged config inj))) :=
  runProtocol_eq scheme p ((validate_rigged config inj s).trans hv)

theorem runProtocol_invalid {inj : Option Injection} {e : RunError}
    (hv : config.validate s = .error e) :
    runProtocol scheme s (rigged config inj) p = { result := .error e } := by
  unfold runProtocol
  rw [validate_rigged, hv]

end Injections

section Hasty

open Agreement (plainScheme)

def hasty : RunConfig where
  replicas := 4
  twins := 0
  ticks := 1
  protocol := Rules.simple.name
  viewTimeout := 1
  cacheCapacity := 0

def hastyRun (inj : Option Injection) : Except RunError RunResult :=
  (runProtocol plainScheme (.baseline 4 2) (rigged hasty inj) Rules.simple.protocol).result

def sameNewView : Injection := ⟨2, .newView ⟨.ofNat 1, ⟨some .genesis, none⟩⟩⟩

def complaint : Injection :=
  ⟨9, .timeout ⟨.ofNat 1, ⟨.ofNat 1, plainScheme.sign (.ofNat 1) (View.ofNat 1).hash⟩, .genesis⟩⟩

theorem not_inserted_self (xs : List Network.Entry) : ¬ Inserted x xs xs := by
  rintro ⟨before, after, h₁, h₂⟩
  have h := congrArg List.length (h₁.symm.trans h₂)
  simp at h

end Hasty

end Equivocation.Proofs.Substitution
