import Equivocation.Proofs.Merging
import Equivocation.Proofs.Replay

namespace Equivocation.Proofs.Accounts

open Campaign Merging Drawing
open DrawnMessages (draws_message)
open Replay (trial attempt_of_passed attempt_of_failed supplied_short hastyCampaign strayVote
  strayFault)

inductive Deed where
  | made (made : Except Crash Message) (seed : Option Nat)
  | ran (campaign : Campaign) (message : Message) (seed : Option Nat)

def run (campaign : Campaign) (m : Message) : RunOutcome :=
  runRegistered campaign.scheme campaign.scenario
    { campaign.config with injection := some ⟨1, m⟩ } campaign.registry

def Clean (campaign : Campaign) (m : Message) : Prop :=
  ∃ result, (run campaign m).result = .ok result ∧ result.verdict.safe = true ∧
    result.verdict.commits = campaign.expected

namespace Deed

def isRun : Deed → Bool
  | made .. => false
  | ran .. => true

def blame? : Deed → Option Occurrence
  | made (.ok _) _ => none
  | made (.error c) seed => some ⟨⟨c.site, c.text, ""⟩, "prepare", placeholder, seed⟩
  | ran campaign m seed => (trial campaign m).map fun f => ⟨f, "try_execute", m, seed⟩

def failed (d : Deed) : Bool := d.blame?.isSome

/-- A deed is counted as it is begun, and once more if it has failed. -/
def begun (d : Deed) : Note := if d.isRun then .counts 1 0 0 0 else .counts 0 0 1 0

def broken (d : Deed) : Note := if d.isRun then .counts 0 1 0 0 else .counts 0 0 0 1

def notes (d : Deed) : List Note :=
  match d.blame? with
  | none => [d.begun]
  | some o => [d.begun, d.broken, .occurrence o]

def remarks : Deed → List LogRecord
  | made .. => []
  | ran campaign m _ =>
    (run campaign m).records ++ (trial campaign m).toList.map fun f =>
      ⟨.debug, s!"fuzz run failed at {f.location}: {f.text} ({f.detail})"⟩

end Deed

structure Does (before after : Progress) (ds : List Deed) : Prop where
  log : after.log = (ds.flatMap Deed.notes).foldl note before.log
  records : after.records = before.records ++ ds.flatMap Deed.remarks

def tried (campaign : Campaign) (seed : Option Nat) (made : Except Crash Message) : List Deed :=
  .made made seed :: made.toOption.toList.map fun m => .ran campaign m seed

def draws : Nat → MessageSource → MayDiverge (List (Except Crash Message))
  | 0, _ => return []
  | n + 1, source => do
    let (made, source) ← source.next
    return made :: (← draws n source)

def deeds (campaign : Campaign) (s : Progress) : Campaign.Step → MayDiverge (List Deed)
  | .attempt m seed => some [.ran campaign m seed]
  | .prepare made seed => some [.made made seed]
  | .fuzzSeed seed =>
    (Message.ofSeed seed campaign.config.replicas).map (tried campaign (some seed))
  | .fuzz seed ranges n =>
    (draws n ((s.sources.get? seed).getD (.ofSeed seed ranges))).map
      (·.flatMap (tried campaign none))

/-- The logs of any steps of any campaigns, and of merging them, with all that was done for them. -/
inductive LogOfDeeds : List Deed → FaultLog → Prop
  | fresh : LogOfDeeds [] {}
  | step {ds ds' : List Deed} {s s' : Progress} {answer : Answer} (campaign : Campaign)
      (call : Campaign.Step) (before : LogOfDeeds ds s.log)
      (returned : campaign.step s call = some (answer, s'))
      (did : deeds campaign s call = some ds') : LogOfDeeds (ds ++ ds') s'.log
  | merge {ds ds' : List Deed} {log log' : FaultLog} (first : LogOfDeeds ds log)
      (second : LogOfDeeds ds' log') : LogOfDeeds (ds ++ ds') (log.merge log')

/-- Deeds that have failed are counted once, among their kind, among the errors and in the record of
their fault. -/
structure Balanced (ds : List Deed) (log : FaultLog) : Prop where
  scenarios : log.totalScenarios = ds.countP fun d => d.isRun
  failedScenarios : log.failedScenarios = ds.countP fun d => d.isRun && d.failed
  messages : log.totalMessages = ds.countP fun d => !d.isRun
  failedMessages : log.failedMessages = ds.countP fun d => !d.isRun && d.failed
  errors : log.errors = ds.countP Deed.failed
  errors_eq : log.errors = log.failedScenarios + log.failedMessages
  occurrences : (log.records.map (·.occurrences)).sum = log.errors
  scenarios_le : log.failedScenarios ≤ log.totalScenarios
  messages_le : log.failedMessages ≤ log.totalMessages
  recorded : ∀ r ∈ log.records,
    r.occurrences = (ds.filterMap Deed.blame?).countP fun o => (o.toRecord 1).key = r.key
  complete : ∀ d ∈ ds, ∀ o, d.blame? = some o → ∃ r ∈ log.records, r.key = (o.toRecord 1).key
  counters : ds.length < 0x10000000000000000 → log.counters =
    .ok [log.totalScenarios, log.failedScenarios, log.totalMessages, log.failedMessages, log.errors,
      log.unique]

variable {campaign : Campaign} {m : Message} {seed : Option Nat} {s s' s'' : Progress} {d : Deed}
  {ds ds' : List Deed} {log log' : FaultLog} {made : Except Crash Message}

section Runs

theorem trial_eq (campaign : Campaign) (m : Message) :
    trial campaign m = failure? campaign.expected (run campaign m).result := rfl

theorem failure?_eq_none_iff {expected : Nat} {outcome : Except RunError RunResult} :
    failure? expected outcome = none ↔
      ∃ result, outcome = .ok result ∧ result.verdict.safe = true ∧
        result.verdict.commits = expected := by
  cases outcome with
  | error e => simp [failure?]
  | ok result =>
    cases hc : result.verdict.conflict with
    | some conflict => simp [failure?, Verdict.safe, hc]
    | none => simp [failure?, Verdict.safe, hc]

theorem clean_iff : Clean campaign m ↔ trial campaign m = none := failure?_eq_none_iff.symm

instance : Decidable (Clean campaign m) := decidable_of_iff _ clean_iff.symm

def passes (campaign : Campaign) : Except Crash Message → Bool
  | .ok m => decide (Clean campaign m)
  | .error _ => false

def answerTo (campaign : Campaign) (s : Progress) : Campaign.Step → MayDiverge Answer
  | .attempt m _ => some (.passed (decide (Clean campaign m)))
  | .prepare made _ => some (.prepared made.toOption)
  | .fuzzSeed seed =>
    (Message.ofSeed seed campaign.config.replicas).map fun made => .passed (passes campaign made)
  | .fuzz seed ranges n =>
    (draws n ((s.sources.get? seed).getD (.ofSeed seed ranges))).map fun _ => .done

theorem exists_fault_of_not_clean (h : ¬ Clean campaign m) : ∃ f, trial campaign m = some f :=
  Option.ne_none_iff_exists'.mp fun ht => h (clean_iff.mpr ht)

theorem trial_of_crash {c : Crash} (h : (run campaign m).result = .error (.crash c)) :
    trial campaign m = some ⟨c.site, c.text, ""⟩ := by
  rw [trial_eq, h]
  rfl

end Runs

section Steps

theorem Does.refl (s : Progress) : Does s s [] := ⟨rfl, (List.append_nil _).symm⟩

theorem Does.trans (h : Does s s' ds) (h' : Does s' s'' ds') : Does s s'' (ds ++ ds') where
  log := by rw [h'.log, h.log, List.flatMap_append, List.foldl_append]
  records := by rw [h'.records, h.records, List.flatMap_append, List.append_assoc]

theorem records_attempt (campaign : Campaign) (m : Message) (seed : Option Nat) (s : Progress) :
    (campaign.attempt m seed s).2.records =
      s.records ++ (Deed.ran campaign m seed).remarks := by
  unfold attempt Deed.remarks trial run
  dsimp only
  split
  next hf => simp [hf]
  next f hf => simp [hf]

theorem does_attempt (campaign : Campaign) (m : Message) (seed : Option Nat) (s : Progress) :
    Does s (campaign.attempt m seed s).2 [.ran campaign m seed] where
  log := by
    cases ht : trial campaign m with
    | none =>
      rw [(attempt_of_passed ht).2]
      simp [Deed.notes, Deed.blame?, Deed.begun, Deed.isRun, ht, note]
    | some f =>
      rw [(attempt_of_failed ht).2]
      simp [Deed.notes, Deed.blame?, Deed.begun, Deed.broken, Deed.isRun, ht, note]
  records := by rw [records_attempt, List.flatMap_singleton]

theorem does_prepare (made : Except Crash Message) (seed : Option Nat) (s : Progress) :
    Does s (prepare made seed s).2 [.made made seed] := by
  cases made with
  | ok m => exact ⟨rfl, (List.append_nil _).symm⟩
  | error c => exact ⟨rfl, (List.append_nil _).symm⟩

theorem does_attemptMade (campaign : Campaign) (made : Except Crash Message) (seed : Option Nat)
    (s : Progress) : Does s (campaign.attemptMade made seed s).2 (tried campaign seed made) := by
  have hp := does_prepare made seed s
  cases made with
  | error c => exact hp
  | ok m => exact hp.trans (does_attempt campaign m seed _)

theorem does_fuzz (campaign : Campaign) (n : Nat) (source : MessageSource) (s : Progress) :
    Option.Rel (fun r mades => Does s r.2 (mades.flatMap (tried campaign none)))
      (campaign.fuzz n source s) (draws n source) := by
  induction n generalizing source s with
  | zero => exact .some (.refl s)
  | succ n ih =>
    rw [fuzz, draws]
    cases source.next with
    | none => exact .none
    | some drawn =>
      -- The source goes on to its next message even if this one cannot be made.
      have hfirst := does_attemptMade campaign drawn.1 none s
      have hrest := ih drawn.2 (campaign.attemptMade drawn.1 none s).2
      change Option.Rel _ (campaign.fuzz n drawn.2 (campaign.attemptMade drawn.1 none s).2)
        ((draws n drawn.2).bind fun mades => some (drawn.1 :: mades))
      generalize campaign.fuzz n drawn.2 (campaign.attemptMade drawn.1 none s).2 = x at hrest ⊢
      generalize draws n drawn.2 = y at hrest ⊢
      cases hrest with
      | none => exact .none
      | some h => exact .some (hfirst.trans h)

theorem does_step (campaign : Campaign) (s : Progress) (call : Campaign.Step) :
    Option.Rel (fun r ds => Does s r.2 ds) (campaign.step s call) (deeds campaign s call) := by
  cases call with
  | attempt m seed => exact .some (does_attempt campaign m seed s)
  | prepare made seed => exact .some (does_prepare made seed s)
  | fuzzSeed seed =>
    unfold Campaign.step Campaign.fuzzSeed deeds
    dsimp only
    cases Message.ofSeed seed campaign.config.replicas with
    | none => exact .none
    | some made => exact .some (does_attemptMade campaign made (some seed) s)
  | fuzz seed ranges n =>
    have hd := does_fuzz campaign n ((s.sources.get? seed).getD (.ofSeed seed ranges)) s
    unfold Campaign.step deeds
    dsimp only
    generalize campaign.fuzz n ((s.sources.get? seed).getD (.ofSeed seed ranges)) s = x at hd ⊢
    generalize draws n ((s.sources.get? seed).getD (.ofSeed seed ranges)) = y at hd ⊢
    cases hd with
    | none => exact .none
    | some h => exact .some ⟨h.log, h.records⟩

theorem exists_step {call : Campaign.Step} (hd : deeds campaign s call = some ds) :
    ∃ r, campaign.step s call = some r ∧ Does s r.2 ds := by
  have h := does_step campaign s call
  rw [hd] at h
  generalize campaign.step s call = x at h ⊢
  cases h with
  | some h => exact ⟨_, rfl, h⟩

theorem does_of_step {call : Campaign.Step} {a : Answer}
    (hs : campaign.step s call = some (a, s')) (hd : deeds campaign s call = some ds) :
    Does s s' ds := by
  obtain ⟨r, hr, h⟩ := exists_step hd
  obtain rfl := Option.some.inj (hr.symm.trans hs)
  exact h

theorem answer_attempt (campaign : Campaign) (m : Message) (seed : Option Nat) (s : Progress) :
    (campaign.attempt m seed s).1 = decide (Clean campaign m) := by
  by_cases hc : Clean campaign m
  · rw [(attempt_of_passed (clean_iff.mp hc)).1, decide_eq_true hc]
  · obtain ⟨f, hf⟩ := exists_fault_of_not_clean hc
    rw [(attempt_of_failed hf).1, decide_eq_false hc]

theorem answer_attemptMade (campaign : Campaign) (made : Except Crash Message) (seed : Option Nat)
    (s : Progress) : (campaign.attemptMade made seed s).1 = passes campaign made := by
  cases made with
  | ok m => exact answer_attempt campaign m seed _
  | error c => rfl

theorem answer_step (campaign : Campaign) (s : Progress) (call : Campaign.Step) :
    (campaign.step s call).map (·.1) = answerTo campaign s call := by
  cases call with
  | attempt m seed => exact congrArg (some ∘ Answer.passed) (answer_attempt campaign m seed s)
  | prepare made seed => cases made <;> rfl
  | fuzzSeed seed =>
    unfold Campaign.step Campaign.fuzzSeed answerTo
    dsimp only
    cases Message.ofSeed seed campaign.config.replicas with
    | none => rfl
    | some made =>
      exact congrArg (some ∘ Answer.passed) (answer_attemptMade campaign made (some seed) s)
  | fuzz seed ranges n =>
    have hd := does_fuzz campaign n ((s.sources.get? seed).getD (.ofSeed seed ranges)) s
    unfold Campaign.step answerTo
    dsimp only
    generalize campaign.fuzz n ((s.sources.get? seed).getD (.ofSeed seed ranges)) s = x at hd ⊢
    generalize draws n ((s.sources.get? seed).getD (.ofSeed seed ranges)) = y at hd ⊢
    cases hd with
    | none => rfl
    | some _ => rfl

end Steps

section Tallies

def tallies (ds : List Deed) : Nat × Nat × Nat × Nat × Nat :=
  (ds.countP fun d => d.isRun, ds.countP fun d => d.isRun && d.failed,
    ds.countP fun d => !d.isRun, ds.countP fun d => !d.isRun && d.failed, ds.countP Deed.failed)

theorem tallies_append (ds ds' : List Deed) : tallies (ds ++ ds') = tallies ds + tallies ds' := by
  simp [tallies]

theorem tally_notes (d : Deed) (log : FaultLog) :
    tally (d.notes.foldl note log) = tally log + tallies [d] := by
  cases hr : d.isRun <;> cases hb : d.blame? <;>
    simp [tally, tallies, Deed.notes, Deed.failed, Deed.begun, Deed.broken, note, FaultLog.count,
      FaultLog.record, hr, hb]

theorem tally_deeds (ds : List Deed) (log : FaultLog) :
    tally ((ds.flatMap Deed.notes).foldl note log) = tally log + tallies ds := by
  induction ds generalizing log with
  | nil => rfl
  | cons d ds ih =>
    rw [List.flatMap_cons, List.foldl_append, ih, tally_notes, add_assoc, ← tallies_append]
    rfl

theorem Does.tally (h : Does s s' ds) : tally s'.log = tally s.log + tallies ds := by
  rw [h.log, tally_deeds]

theorem countP_failed (ds : List Deed) : ds.countP Deed.failed =
    ds.countP (fun d => d.isRun && d.failed) + ds.countP fun d => !d.isRun && d.failed := by
  induction ds with
  | nil => rfl
  | cons d ds ih =>
    cases hr : d.isRun <;> simp only [List.countP_cons, ih, hr] <;> grind

theorem countP_isRun_tried (campaign : Campaign) (seed : Option Nat)
    (mades : List (Except Crash Message)) :
    (mades.flatMap (tried campaign seed)).countP (fun d => d.isRun) =
      mades.countP fun made => made.toOption.isSome := by
  induction mades with
  | nil => rfl
  | cons made mades ih =>
    rw [List.flatMap_cons, List.countP_append, ih, List.countP_cons, Nat.add_comm]
    cases made <;> rfl

theorem countP_made_tried (campaign : Campaign) (seed : Option Nat)
    (mades : List (Except Crash Message)) :
    (mades.flatMap (tried campaign seed)).countP (fun d => !d.isRun) = mades.length := by
  induction mades with
  | nil => rfl
  | cons made mades ih =>
    rw [List.flatMap_cons, List.countP_append, ih, List.length_cons, Nat.add_comm]
    cases made <;> rfl

end Tallies

section Logs

/-- However a log was gathered, it is as if all deeds had been noted in it one after the other. -/
theorem LogOfDeeds.eq_logOf (h : LogOfDeeds ds log) : log = logOf (ds.flatMap Deed.notes) := by
  induction h with
  | fresh => rfl
  | step campaign call before done deeds ih =>
    rw [(does_of_step done deeds).log, ih, List.flatMap_append]
    exact List.foldl_append.symm
  | merge first second ih ih' => rw [List.flatMap_append, logOf_append, ← ih, ← ih']

theorem occurrences_notes (d : Deed) : occurrences d.notes = d.blame?.toList := by
  cases hr : d.isRun <;> cases hb : d.blame? <;>
    simp [occurrences, Deed.notes, Deed.begun, Deed.broken, hr, hb] <;> rfl

theorem occurrences_deeds (ds : List Deed) :
    occurrences (ds.flatMap Deed.notes) = ds.filterMap Deed.blame? := by
  induction ds with
  | nil => rfl
  | cons d ds ih =>
    rw [List.flatMap_cons, occurrences_append, ih, occurrences_notes]
    cases hb : d.blame? <;> simp [hb]

theorem unique_le (notes : List Note) :
    (logOf notes).unique ≤ (occurrences notes).length := by
  have hone : ∀ n ∈ (logOf notes).records.map (·.occurrences), 1 ≤ n := by
    intro n hn
    obtain ⟨r, hr, rfl⟩ := List.mem_map.mp hn
    obtain ⟨o, ho, hro, -⟩ := (stands_of_mem hr).smallest
    rw [hro]
    exact List.length_pos_of_mem ho
  have hle := List.length_le_sum_of_one_le _ hone
  rw [occurrences_sum, List.length_map, FaultLog.records, List.length_map] at hle
  exact hle

theorem counters_of_le {n : Nat} (hn : n < 0x10000000000000000) (hs : log.totalScenarios ≤ n)
    (hm : log.totalMessages ≤ n) (hfs : log.failedScenarios ≤ log.totalScenarios)
    (hfm : log.failedMessages ≤ log.totalMessages) (he : log.errors ≤ n)
    (hu : log.unique ≤ log.errors) : log.counters =
      .ok [log.totalScenarios, log.failedScenarios, log.totalMessages, log.failedMessages,
        log.errors, log.unique] := by
  refine if_pos ?_
  simp only [List.all_cons, List.all_nil, Bool.and_eq_true, decide_eq_true_eq, and_true]
  omega

theorem LogOfDeeds.balanced (h : LogOfDeeds ds log) : Balanced ds log := by
  have hlog := h.eq_logOf
  have ht : tally log = tallies ds := by
    rw [hlog]
    exact (tally_deeds ds {}).trans (zero_add _)
  obtain ⟨hs, hfs, hm, hfm, he⟩ : log.totalScenarios = _ ∧ log.failedScenarios = _ ∧
      log.totalMessages = _ ∧ log.failedMessages = _ ∧ log.errors = _ := by
    simpa only [tally, tallies, Prod.mk.injEq] using ht
  have hfs' : log.failedScenarios ≤ log.totalScenarios := by
    rw [hs, hfs]
    exact List.countP_mono_left fun d _ hd => (Bool.and_eq_true_iff.mp hd).1
  have hfm' : log.failedMessages ≤ log.totalMessages := by
    rw [hm, hfm]
    exact List.countP_mono_left fun d _ hd => (Bool.and_eq_true_iff.mp hd).1
  have hos := occurrences_deeds ds
  have hlen : (occurrences (ds.flatMap Deed.notes)).length = log.errors := by
    rw [hos, he]
    exact List.length_filterMap_eq_countP
  have hu : log.unique ≤ log.errors := by
    rw [← hlen, hlog]
    exact unique_le _
  refine ⟨hs, hfs, hm, hfm, he, ?_, ?_, hfs', hfm', fun r hr => ?_, fun d hd o ho => ?_,
    fun hn => ?_⟩
  · rw [he, hfs, hfm, countP_failed]
  · rw [← hlen, hlog, occurrences_sum]
  · rw [hlog] at hr
    rw [← hos, occurrences_of_mem hr]
  · have hm : o ∈ occurrences (ds.flatMap Deed.notes) := by
      rw [hos]
      exact List.mem_filterMap.mpr ⟨d, hd, ho⟩
    rw [hlog]
    exact exists_mem_records hm
  · exact counters_of_le hn (hs ▸ List.countP_le_length) (hm ▸ List.countP_le_length) hfs' hfm'
      (he ▸ List.countP_le_length) hu

end Logs

structure Counts (n : Nat) (mades : List (Except Crash Message)) (before after : Progress) :
    Prop where
  messages : after.log.totalMessages = before.log.totalMessages + n
  scenarios : after.log.totalScenarios =
    before.log.totalScenarios + mades.countP fun made => made.toOption.isSome

/-- However steps follow each other, and however logs are merged, what fails is counted once. A run
is told to have passed just if it is clean, and crashes end up in the log. -/
structure Accountable : Prop where
  gathered : ∀ ds log, LogOfDeeds ds log → Balanced ds log
  answered : ∀ (campaign : Campaign) s call,
    (campaign.step s call).map (·.1) = answerTo campaign s call
  noted : ∀ (campaign : Campaign) s call,
    Option.Rel (fun r ds => Does s r.2 ds) (campaign.step s call) (deeds campaign s call)
  clean : ∀ campaign m seed (s : Progress), Clean campaign m →
    (campaign.attempt m seed s).1 = true ∧
      (campaign.attempt m seed s).2.log = s.log.count 1 0 0 0
  unclean : ∀ campaign m seed (s : Progress), ¬ Clean campaign m →
    (campaign.attempt m seed s).1 = false ∧ ∃ f, (campaign.attempt m seed s).2.log =
      ((s.log.count 1 0 0 0).count 0 1 0 0).record f "try_execute" m seed
  crashed : ∀ campaign m seed (s : Progress) c, (run campaign m).result = .error (.crash c) →
    (campaign.attempt m seed s).1 = false ∧ (campaign.attempt m seed s).2.log =
      ((s.log.count 1 0 0 0).count 0 1 0 0).record ⟨c.site, c.text, ""⟩ "try_execute" m seed
  unmade : ∀ c seed (s : Progress), (prepare (.error c) seed s).1 = none ∧
    (prepare (.error c) seed s).2.log = ((s.log.count 0 0 1 0).count 0 0 0 1).record
      ⟨c.site, c.text, ""⟩ "prepare" placeholder seed
  seeded : ∀ (campaign : Campaign) s seed made,
    Message.ofSeed seed campaign.config.replicas = some made →
      ∃ r, campaign.step s (.fuzzSeed seed) = some r ∧ Counts 1 [made] s r.2
  fuzzed : ∀ (campaign : Campaign) s seed ranges n mades,
    draws n ((s.sources.get? seed).getD (.ofSeed seed ranges)) = some mades →
      ∃ r, campaign.step s (.fuzz seed ranges n) = some r ∧ Counts n mades s r.2
  drawn : ∀ n (source : MessageSource), Fair source.cursor → (draws n source).isSome

theorem length_of_draws {n : Nat} {source : MessageSource} {mades : List (Except Crash Message)}
    (h : draws n source = some mades) : mades.length = n := by
  induction n generalizing source mades with
  | zero =>
    obtain rfl := Option.some.inj h
    rfl
  | succ n ih =>
    obtain ⟨drawn, -, h⟩ := Option.bind_eq_some_iff.mp h
    obtain ⟨rest, hrest, h⟩ := Option.bind_eq_some_iff.mp h
    obtain rfl := Option.some.inj h
    exact congrArg (· + 1) (ih hrest)

/-- By induction on the messages: each is drawn from the same stream as the one before. -/
theorem isSome_draws {source : MessageSource} (hf : Fair source.cursor) (n : Nat) :
    (draws n source).isSome = true := by
  induction n generalizing source with
  | zero => rfl
  | succ n ih =>
    have hd := draws_message (supplied_short source.ranges)
    obtain ⟨⟨made, c⟩, hrun⟩ := hd.returns hf
    have hnext : source.next = some (made, { source with cursor := c }) :=
      Option.map_eq_some_iff.mpr ⟨_, hrun, rfl⟩
    have hfair : Fair c := (fair_congr (hd.stays hrun)).mpr hf
    obtain ⟨mades, hmades⟩ :=
      Option.isSome_iff_exists.mp (@ih { source with cursor := c } hfair)
    rw [draws, hnext, Option.bind_eq_bind, Option.bind_some]
    dsimp only
    rw [hmades]
    rfl

theorem Does.counts {mades : List (Except Crash Message)}
    (h : Does s s' (mades.flatMap (tried campaign seed))) : Counts mades.length mades s s' := by
  have ht := h.tally
  refine ⟨?_, ?_⟩
  · rw [← countP_made_tried campaign seed]
    exact congrArg (fun t => t.2.2.1) ht
  · rw [← countP_isRun_tried campaign seed]
    exact congrArg Prod.fst ht

theorem Does.counts_single (h : Does s s' (tried campaign seed made)) : Counts 1 [made] s s' := by
  rw [← List.flatMap_singleton (tried campaign seed)] at h
  exact h.counts

theorem failures_accounted : Accountable where
  gathered _ _ h := h.balanced
  answered := answer_step
  noted := does_step
  clean _ _ _ _ h := attempt_of_passed (clean_iff.mp h)
  unclean _ _ _ _ h :=
    have ⟨f, hf⟩ := exists_fault_of_not_clean h
    ⟨(attempt_of_failed hf).1, f, (attempt_of_failed hf).2⟩
  crashed _ _ _ _ _ h := attempt_of_failed (trial_of_crash h)
  unmade _ _ _ := ⟨rfl, rfl⟩
  seeded campaign s seed made hm := by
    have hdeeds : deeds campaign s (.fuzzSeed seed) = some (tried campaign (some seed) made) :=
      Option.map_eq_some_iff.mpr ⟨made, hm, rfl⟩
    obtain ⟨r, hr, h⟩ := exists_step hdeeds
    exact ⟨r, hr, h.counts_single⟩
  fuzzed campaign s seed ranges n mades hm := by
    have hdeeds : deeds campaign s (.fuzz seed ranges n) =
        some (mades.flatMap (tried campaign none)) :=
      Option.map_eq_some_iff.mpr ⟨mades, hm, rfl⟩
    obtain ⟨r, hr, h⟩ := exists_step hdeeds
    exact ⟨r, hr, length_of_draws hm ▸ h.counts⟩
  drawn n _ hf := isSome_draws hf n

def mishaps : List Deed :=
  [.made (.error (.overflow "src/fuzz/mutator.rs:140")) none, .ran hastyCampaign strayVote (some 5)]

theorem failures_accounted_mishaps : ∃ log, LogOfDeeds mishaps log ∧ log.errors = 2 ∧
    log.failedScenarios = 1 ∧ log.failedMessages = 1 ∧
      (log.records.map (·.occurrences)).sum = 2 := by
  have hfresh : LogOfDeeds [] ({} : Progress).log := .fresh
  have hmade := hfresh.step hastyCampaign
    (.prepare (.error (.overflow "src/fuzz/mutator.rs:140")) none) rfl rfl
  have hran := hfresh.step hastyCampaign (.attempt strayVote (some 5)) rfl rfl
  have hfailed : Deed.failed (.ran hastyCampaign strayVote (some 5)) = true := by
    have ht : trial hastyCampaign strayVote = some strayFault := by decide +kernel
    simp [Deed.failed, Deed.blame?, ht]
  have hall : mishaps.countP Deed.failed = 2 := by
    rw [mishaps, List.countP_cons, List.countP_cons, if_pos hfailed]
    rfl
  obtain ⟨-, hfs, -, hfm, he, -, hsum, -⟩ :=
    failures_accounted.gathered mishaps _ (hmade.merge hran)
  refine ⟨_, hmade.merge hran, he.trans hall, hfs.trans ?_, hfm.trans ?_,
    hsum.trans (he.trans hall)⟩
  · simp [mishaps, Deed.isRun, hfailed]
  · simp [mishaps, Deed.isRun, Deed.failed, Deed.blame?]

end Equivocation.Proofs.Accounts
