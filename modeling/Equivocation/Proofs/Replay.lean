import Equivocation.Campaign
import Equivocation.Proofs.DrawnMessages
import Equivocation.Proofs.FaultLogs
import Equivocation.Proofs.RoundTrips
import Equivocation.Proofs.Substitution

namespace Equivocation.Proofs.Replay

open Campaign Drawing DrawnMessages FaultLogs RoundTrips

def trial (campaign : Campaign) (m : Message) : Option Fault :=
  failure? campaign.expected
    (runRegistered campaign.scheme campaign.scenario
      { campaign.config with injection := some ⟨1, m⟩ } campaign.registry).result

/-- The logs that campaigns of the same kind gather call after call, and what becomes of them when
they are merged, with all the calls made for them. -/
inductive LogOfCalls (campaign : Campaign) : List Campaign.Step → FaultLog → Prop
  | fresh : LogOfCalls campaign [] {}
  | step {calls : List Campaign.Step} {s s' : Progress} {answer : Answer} (call : Campaign.Step)
      (before : LogOfCalls campaign calls s.log) (done : campaign.step s call = some (answer, s')) :
    LogOfCalls campaign (calls ++ [call]) s'.log
  | merge {calls calls' : List Campaign.Step} {log log' : FaultLog}
      (first : LogOfCalls campaign calls log) (second : LogOfCalls campaign calls' log') :
    LogOfCalls campaign (calls ++ calls') (log.merge log')

inductive Origin (campaign : Campaign) : Message → Option Nat → Campaign.Step → Prop
  | given (m : Message) (seed : Option Nat) : Origin campaign m seed (.attempt m seed)
  | seeded {m : Message} {seed : Nat}
      (made : Message.ofSeed seed campaign.config.replicas = some (.ok m)) :
    Origin campaign m (some seed) (.fuzzSeed seed)
  | drawn {m : Message} {seed iterations : Nat} {ranges : Ranges} {source source' : MessageSource}
      (made : source.next = some (.ok m, source')) :
    Origin campaign m none (.fuzz seed ranges iterations)

/-- A record is that of one failed run with a message from one of the calls. -/
structure Traced (campaign : Campaign) (calls : List Campaign.Step) (r : FaultRecord) : Prop where
  failed : ∃ f, trial campaign r.offending = some f ∧
    r = { FaultRecord.once f "try_execute" r.offending r.seed with occurrences := r.occurrences }
  origin : ∃ call ∈ calls, Origin campaign r.offending r.seed call

def RunsTraced (campaign : Campaign) (calls : List Campaign.Step) (log : FaultLog) : Prop :=
  ∀ e ∈ log.faults, e.2.step = "try_execute" → Traced campaign calls e.2

/-- The fault of a record comes about again with its message and any seed. The message can be read
from the text in the record exactly if its lists can be counted in it; those of messages that were
not handed in can. -/
structure Replays (campaign : Campaign) (calls : List Campaign.Step) (r : FaultRecord) : Prop where
  origin : ∃ call ∈ calls, Origin campaign r.offending r.seed call
  readable : Corpus.decodeMessage r.encoded.toList = .ok r.offending ↔ ShortMessage r.offending
  made : .attempt r.offending r.seed ∉ calls → ShortMessage r.offending
  repeated : ∀ seed, (campaign.attempt r.offending seed {}).1 = false ∧
    (campaign.attempt r.offending seed {}).2.log.records = [{ r with seed, occurrences := 1 }]

variable {campaign : Campaign} {calls calls' : List Campaign.Step} {s s' : Progress} {m : Message}
  {seed : Option Nat} {log log' : FaultLog} {r : FaultRecord} {f : Fault}

section Calls

theorem attempt_of_passed (h : trial campaign m = none) :
    (campaign.attempt m seed s).1 = true ∧
      (campaign.attempt m seed s).2.log = s.log.count 1 0 0 0 := by
  unfold trial at h
  unfold attempt
  dsimp only
  rw [h]
  exact ⟨rfl, rfl⟩

theorem attempt_of_failed (h : trial campaign m = some f) :
    (campaign.attempt m seed s).1 = false ∧
      (campaign.attempt m seed s).2.log =
        ((s.log.count 1 0 0 0).count 0 1 0 0).record f "try_execute" m seed := by
  unfold trial at h
  unfold attempt
  dsimp only
  rw [h]
  exact ⟨rfl, rfl⟩

theorem records_record_of_nil (h : log.faults = []) (f : Fault) (step : String) (m : Message)
    (seed : Option Nat) : (log.record f step m seed).records = [.once f step m seed] := by
  unfold FaultLog.record FaultLog.records FaultLog.insert
  rw [h]
  rfl

theorem records_attempt_fresh (h : trial campaign m = some f) (seed : Option Nat) :
    (campaign.attempt m seed {}).2.log.records = [.once f "try_execute" m seed] := by
  rw [(attempt_of_failed h).2]
  exact records_record_of_nil rfl f "try_execute" m seed

theorem logOfCalls_attempt (campaign : Campaign) (m : Message) (seed : Option Nat) :
    LogOfCalls campaign [.attempt m seed] (campaign.attempt m seed {}).2.log := by
  have hfresh : LogOfCalls campaign [] ({} : Progress).log := .fresh
  exact hfresh.step (.attempt m seed) rfl

theorem uncounted_traced (campaign : Campaign) (calls : List Campaign.Step) :
    Uncounted fun r => r.step = "try_execute" → Traced campaign calls r := fun _ n h hs =>
  have ⟨f, hf, hr⟩ := (h hs).failed
  ⟨⟨f, hf, congrArg (fun r : FaultRecord => { r with occurrences := n }) hr⟩, (h hs).origin⟩

theorem RunsTraced.mono (h : RunsTraced campaign calls log) (hc : calls ⊆ calls') :
    RunsTraced campaign calls' log := fun e he hs =>
  have ⟨call, hcall, ho⟩ := (h e he hs).origin
  ⟨(h e he hs).failed, call, hc hcall, ho⟩

theorem RunsTraced.attempt (h : RunsTraced campaign calls s.log)
    (ho : ∃ call ∈ calls, Origin campaign m seed call) :
    RunsTraced campaign calls (campaign.attempt m seed s).2.log := by
  cases ht : trial campaign m with
  | none =>
    rw [(attempt_of_passed ht).2]
    exact h
  | some f =>
    rw [(attempt_of_failed ht).2]
    exact record_uncounted (uncounted_traced campaign calls) h fun _ => ⟨⟨f, ht, rfl⟩, ho⟩

theorem RunsTraced.prepare (h : RunsTraced campaign calls s.log) (made : Except Crash Message)
    (seed : Option Nat) : RunsTraced campaign calls (prepare made seed s).2.log := by
  cases made with
  | ok m => exact h
  | error crash =>
    have hstep : "prepare" ≠ "try_execute" := by decide
    exact record_uncounted (uncounted_traced campaign calls) h fun hs => absurd hs hstep

theorem RunsTraced.attemptMade (h : RunsTraced campaign calls s.log) {made : Except Crash Message}
    (ho : ∀ m, made = .ok m → ∃ call ∈ calls, Origin campaign m seed call) :
    RunsTraced campaign calls (campaign.attemptMade made seed s).2.log := by
  have hp := h.prepare made seed
  cases made with
  | error crash => exact hp
  | ok m => exact hp.attempt (ho m rfl)

theorem RunsTraced.fuzz (h : RunsTraced campaign calls s.log) {seed iterations n : Nat}
    {ranges : Ranges} (hc : .fuzz seed ranges iterations ∈ calls) {source : MessageSource}
    {r : MessageSource × Progress} (hr : campaign.fuzz n source s = some r) :
    RunsTraced campaign calls r.2.log := by
  induction n generalizing source s with
  | zero =>
    obtain rfl := Option.some.inj hr
    exact h
  | succ n ih =>
    obtain ⟨⟨made, source'⟩, hm, hr⟩ := Option.bind_eq_some_iff.mp hr
    exact ih (h.attemptMade fun m he => ⟨_, hc, .drawn (he ▸ hm)⟩) hr

theorem RunsTraced.fuzzSeed (h : RunsTraced campaign calls s.log) {seed : Nat}
    (hc : .fuzzSeed seed ∈ calls) {r : Bool × Progress} (hr : campaign.fuzzSeed seed s = some r) :
    RunsTraced campaign calls r.2.log := by
  obtain ⟨made, hm, hr⟩ := Option.bind_eq_some_iff.mp hr
  obtain rfl := Option.some.inj hr
  exact h.attemptMade fun m he => ⟨_, hc, .seeded (he ▸ hm)⟩

theorem RunsTraced.step (h : RunsTraced campaign calls s.log) {call : Campaign.Step}
    {answer : Answer} (hc : call ∈ calls) (hs : campaign.step s call = some (answer, s')) :
    RunsTraced campaign calls s'.log := by
  cases call with
  | attempt m seed =>
    obtain ⟨-, rfl⟩ := Prod.mk.inj (Option.some.inj hs)
    exact h.attempt ⟨_, hc, .given m seed⟩
  | prepare made seed =>
    obtain ⟨-, rfl⟩ := Prod.mk.inj (Option.some.inj hs)
    exact h.prepare made seed
  | fuzzSeed seed =>
    obtain ⟨r, hr, hs⟩ := Option.bind_eq_some_iff.mp hs
    obtain ⟨-, rfl⟩ := Prod.mk.inj (Option.some.inj hs)
    exact h.fuzzSeed hc hr
  | fuzz seed ranges iterations =>
    obtain ⟨r, hr, hs⟩ := Option.bind_eq_some_iff.mp hs
    obtain ⟨-, rfl⟩ := Prod.mk.inj (Option.some.inj hs)
    exact h.fuzz hc hr

/-- De-duplication and merging keep what belongs to one occurrence together. -/
theorem logOfCalls_runsTraced (h : LogOfCalls campaign calls log) :
    RunsTraced campaign calls log := by
  induction h with
  | fresh => exact nofun
  | step call before done ih =>
    exact (ih.mono (List.subset_append_left _ _)).step
      (List.mem_append_right _ List.mem_cons_self) done
  | merge first second ih ih' =>
    exact merge_uncounted (uncounted_traced campaign _) (ih.mono (List.subset_append_left _ _))
      (ih'.mono (List.subset_append_right _ _))

end Calls

section Messages

def shortParts : Parts := ⟨fun _ => True, fun _ => True, Short, Short⟩

theorem shortMessage_of_parts (h : shortParts.Message m) : ShortMessage m := by
  cases m with
  | propose p => exact ⟨h.2.1, fun q hq => (h.1 q hq).2⟩
  | vote v => exact trivial
  | timeout t => exact h.2.2.2
  | newView n => exact ⟨fun q hq => (h.2.1 q hq).2, fun tc ht => (h.2.2 tc ht).2⟩

theorem draws_replica (ranges : Ranges) : Draws ranges.replica (fun _ => True) fun _ => True := by
  unfold Ranges.replica
  split
  · exact draws_throw trivial
  · exact (draws_below (Nat.succ_pos _)).bind fun _ _ => draws_pure trivial

theorem draws_view (ranges : Ranges) : Draws ranges.view (fun _ => True) fun _ => True := by
  unfold Ranges.view
  split
  · exact draws_throw trivial
  · exact (draws_below (Nat.succ_pos _)).bind fun _ _ => draws_pure trivial

/-- With so many replicas that their numbers do not fit, there is no signature to draw. -/
theorem draws_signatures (ranges : Ranges) : Draws ranges.signatures Short fun _ => True := by
  unfold Ranges.signatures
  refine (draws_below (Nat.succ_pos _)).bind fun n hn => ?_
  by_cases hr : 0x100000000 ≤ ranges.replicas + 2
  · have hno : Draws ranges.signature (fun _ => False) fun _ => True := by
      refine draws_signature (P := fun _ => False) ?_
      unfold Ranges.replica
      rw [if_pos hr]
      exact draws_throw trivial
    refine (draws_many hno n).imp fun xs hxs => ?_
    rw [List.eq_nil_iff_forall_not_mem.mpr hxs.2]
    exact (by decide : 0 < 0x100000000)
  · refine (draws_many (draws_signature (draws_replica ranges)) n).imp fun xs hxs => ?_
    unfold Short
    omega

theorem supplied_short (ranges : Ranges) : Supplied ranges shortParts fun _ => True where
  view := draws_view ranges
  replica := draws_replica ranges
  signatures := draws_signatures ranges
  command := draws_command.imp fun bs (hlen : bs.length < 16) =>
    Nat.lt_trans hlen (by decide)
  genesis := ⟨trivial, (by decide : 0 < 0x100000000)⟩

theorem short_of_next {source source' : MessageSource} (h : source.next = some (.ok m, source')) :
    ShortMessage m := by
  obtain ⟨⟨drawn, c⟩, hrun, he⟩ := Option.map_eq_some_iff.mp h
  obtain ⟨rfl, -⟩ := Prod.mk.inj he
  exact shortMessage_of_parts ((draws_message (supplied_short source.ranges)).gives hrun)

theorem short_of_origin (h : ∃ call ∈ calls, Origin campaign m seed call)
    (hgiven : .attempt m seed ∉ calls) : ShortMessage m := by
  obtain ⟨call, hc, ho⟩ := h
  cases ho with
  | given => exact absurd hc hgiven
  | seeded made =>
    obtain ⟨⟨made, source⟩, hr, rfl⟩ := Option.map_eq_some_iff.mp made
    exact short_of_next hr
  | drawn made => exact short_of_next made

end Messages

/-- Whatever the calls, and however logs are merged, a recorded fault of a run can be replayed with
its message, which has come from one of the calls along with the recorded seed; and with the text of
the message, unless a list in it is too long to be counted there. -/
theorem faults_replay (h : LogOfCalls campaign calls log) (hr : r ∈ log.records)
    (hs : r.step = "try_execute") : Replays campaign calls r := by
  obtain ⟨e, he, rfl⟩ := List.mem_map.mp hr
  obtain ⟨⟨f, hf, hrec⟩, ho⟩ := logOfCalls_runsTraced h e he hs
  have htext : e.2.encoded.toList = Corpus.encodeMessage e.2.offending := by
    rw [congrArg FaultRecord.encoded hrec]
    exact String.toList_ofList
  refine ⟨ho, ?_, short_of_origin ho, fun seed => ⟨(attempt_of_failed hf).1, ?_⟩⟩
  · rw [htext]
    exact ⟨fun hd => (encodeMessage_of_decodeMessage hd).1, decodeMessage_encodeMessage⟩
  · rw [records_attempt_fresh hf, hrec]
    rfl

section Hasty

open Substitution (hasty)

def hastyCampaign : Campaign :=
  { scenario := .baseline 4 2, config := hasty, expected := 0, scheme := Agreement.plainScheme }

def strayVote : Message :=
  .vote ⟨.ofNat 1, Block.genesisHash, ⟨.ofNat 3, .fill 7⟩⟩

def strayFault : Fault :=
  ⟨"src/consensus/base.rs:239", "vote was sent by a replica other than its signer",
    "node 1: signer 3, sender 1"⟩

theorem faults_replay_strayVote : ∃ log, ∃ r ∈ log.records,
    LogOfCalls hastyCampaign [.attempt strayVote (some 5)] log ∧ r.step = "try_execute" ∧
      r.offending = strayVote ∧ Replays hastyCampaign [.attempt strayVote (some 5)] r := by
  have ht : trial hastyCampaign strayVote = some strayFault := by decide +kernel
  have hr : .once strayFault "try_execute" strayVote (some 5) ∈
      (hastyCampaign.attempt strayVote (some 5) {}).2.log.records := by
    rw [records_attempt_fresh ht]
    exact List.mem_cons_self
  have hg := logOfCalls_attempt hastyCampaign strayVote (some 5)
  exact ⟨_, _, hr, hg, rfl, rfl, faults_replay hg hr rfl⟩

end Hasty

section Long

def bulky (size : Nat) : Message :=
  .propose ⟨.ofContents
    ⟨Block.genesisHash, none, List.replicate size 0, .ofNat 1, .ofNat 1⟩⟩

theorem not_short_bulky {size : Nat} (hs : 0x100000000 ≤ size) : ¬ ShortMessage (bulky size) := by
  intro h
  have hlen : (List.replicate size (0 : UInt8)).length < 0x100000000 := h.1
  rw [List.length_replicate] at hlen
  exact Nat.not_lt_of_le hs hlen

def viewless : Campaign :=
  { scenario := ⟨[]⟩
    config := { replicas := 4, twins := 0, ticks := 100, protocol := Rules.chained.name }
    expected := 1 }

def noViews : Fault := ⟨"executor", "invalid configuration: the scenario has no views", ""⟩

theorem trial_viewless (m : Message) : trial viewless m = some noViews := by
  unfold trial runRegistered
  rw [show viewless.registry = Registry.builtIn from rfl]
  dsimp only [viewless]
  rw [Agreement.builtIn_get?]
  rfl

/-- What is recorded of a command that is too long to be counted is the empty text, which is that of
no message. -/
theorem unreadable_bulky : ∃ log, ∃ r ∈ log.records,
    LogOfCalls viewless [.attempt (bulky 0x100000000) none] log ∧ r.step = "try_execute" ∧
      r.offending = bulky 0x100000000 ∧ r.encoded = "" ∧
      ∀ m, Corpus.decodeMessage r.encoded.toList ≠ .ok m := by
  have hr : .once noViews "try_execute" (bulky 0x100000000) none ∈
      (viewless.attempt (bulky 0x100000000) none {}).2.log.records := by
    rw [records_attempt_fresh (trial_viewless _)]
    exact List.mem_cons_self
  have hencoded : (bulky 0x100000000).encoded = "" :=
    congrArg String.ofList (encodeMessage_of_long (not_short_bulky (Nat.le_refl _)))
  refine ⟨_, _, hr, logOfCalls_attempt viewless _ none, rfl, rfl, hencoded, fun m hm => ?_⟩
  have hempty : Corpus.decodeMessage (bulky 0x100000000).encoded.toList = .ok m := hm
  rw [hencoded] at hempty
  cases hempty

end Long

end Equivocation.Proofs.Replay
