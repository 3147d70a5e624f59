import Equivocation.Proofs.Agreement

namespace Equivocation.Proofs.Circulation

open History Locking Turns Lives Soundness Preservation Worlds States Simulation Deployment
  Agreement

variable {C : Cluster} {rules : Rules} {W W' : World} {run run' : Run rules.protocol}
  {seat : Seat} {r : Replica} {T : Trace} {q q' : QuorumCertificate}

def collected? : Event → Option QuorumCertificate
  | .collectQc q => some q
  | _ => none

def circulating (run : Run rules.protocol) : List QuorumCertificate :=
  run.instances.flatMap (fun i => certificates i.state ++ i.unread.filterMap collected?) ++
    run.network.sent.flatMap fun e => enclosed e.message

def built {p : Protocol} (run : Run p) : List Block := .genesis :: proposed run.network.sent

def Distinguished {p : Protocol} (run : Run p) : Prop :=
  ∀ a ∈ built run, ∀ b ∈ built run, a.hash = b.hash → a = b

theorem genuine_certificates (hl : AllWarranted C T) (hs : Sound C T seat r)
    (hq : q ∈ certificates r) : Genuine C T q := by
  rcases mem_certificates.mp hq with rfl | ⟨b, hb, hj⟩
  · exact hs.high
  · rcases known_cases hl (hs.stored b hb) with rfl | ⟨q', hj', -, -, hg, -⟩
    · cases hj
    · obtain rfl := Option.some.inj (hj.symm.trans hj')
      exact hg

theorem genuine_collected (hl : AllWarranted C T) {n : NodeId}
    (hm : (n, .publish (.collectQc q)) ∈ T) : Genuine C T q := by
  obtain ⟨p, p', rfl, hg⟩ := hl.warranted hm
  exact Genuine.mono (List.subset_append_left p _) hg

theorem known_iff_built (hm : Mirrors C rules run W) {b : Block} :
    Known W.trace b ↔ b ∈ built run :=
  known_iff_proposed hm.recorded fun e he => by
    obtain ⟨t, -, -, whom, hs⟩ := hm.sent e he
    exact ⟨t.node, whom, hs⟩

theorem distinct_iff (hm : Mirrors C rules run W) : Distinct W.trace ↔ Distinguished run :=
  ⟨fun hd a ha b hb => hd a b ((known_iff_built hm).mpr ha) ((known_iff_built hm).mpr hb),
    fun hd a b ha hb => hd a ((known_iff_built hm).mp ha) b ((known_iff_built hm).mp hb)⟩

theorem genuine_circulating (hm : Mirrors C rules run W) (hd : Distinct W.trace)
    (hq : q ∈ circulating run) : Genuine C W.trace q := by
  obtain ⟨hl, hs⟩ := reachable_sound hm.reachable hd
  rcases List.mem_append.mp hq with hq | hq
  · obtain ⟨i, hi, hq⟩ := List.mem_flatMap.mp hq
    have hseat := hm.mem_seats hi
    rcases List.mem_append.mp hq with hq | hq
    · rw [hm.states i hi] at hq
      exact genuine_certificates hl (hs i.seat hseat) hq
    · obtain ⟨e, he, hc⟩ := List.mem_filterMap.mp hq
      cases e with
      | collectQc q' =>
        obtain rfl := Option.some.inj hc
        exact genuine_collected hl (hm.published i hi _ he)
      | _ => cases hc
  · obtain ⟨e, he, hq⟩ := List.mem_flatMap.mp hq
    obtain ⟨t, -, -, whom, hs⟩ := hm.sent e he
    exact genuine_enclosed hl hs hq

theorem block_unique (hl : AllWarranted C T) (hd : Distinct T) (ho : Overlap C) (hq : Genuine C T q)
    (hq' : Genuine C T q') (hv : q.view = q'.view) : q.block = q'.block := by
  obtain ⟨b, hb, hqb, hqv⟩ := hq
  obtain ⟨b', hb', hqb', hqv'⟩ := hq'
  obtain rfl := certified_unique hl hd ho hb hb' (hqv.symm.trans (hv.trans hqv'))
  exact hqb.trans hqb'.symm

section Runs

variable (scheme : Scheme) (s : Scenario) (config : RunConfig) (hv : config.validate s = .ok ())
  (hi : config.injection = none)
include hv hi

/-- There is a world in which all has happened that the states of a run show. -/
theorem states_shown (hd : ∀ run ∈ states scheme s config rules.protocol, Distinguished run) :
    ∃ W, Reachable rules (cluster scheme s config hv) W ∧ Distinct W.trace ∧
      Shown (cluster scheme s config hv) rules (states scheme s config rules.protocol) W.trace := by
  obtain ⟨last, ⟨W, hm, -, -, hshown⟩, hend⟩ := @states_passedThrough scheme s config hv rules hi
  have hlast : last ∈ states scheme s config rules.protocol :=
    last_mem_completeStates (hend.imp_right And.right)
  exact ⟨W, hm.reachable, (distinct_iff hm).mpr (hd last hlast), hshown⟩

/-- One certified block per view: with at most a third of the replicas run as twins, any two
certificates of the same view, wherever and whenever they come up in a run, certify the same
block. -/
theorem one_block_per_view (ht : config.twins ≤ (config.replicas - 1) / 3)
    (hd : ∀ run ∈ states scheme s config rules.protocol, Distinguished run) :
    ∀ run ∈ states scheme s config rules.protocol,
      ∀ run' ∈ states scheme s config rules.protocol,
        ∀ q ∈ circulating run, ∀ q' ∈ circulating run', q.view = q'.view → q.block = q'.block := by
  obtain ⟨W, hw, hdist, hshown⟩ := states_shown scheme s config hv hi hd
  obtain ⟨hl, -⟩ := reachable_sound hw hdist
  have hgenuine : ∀ run ∈ states scheme s config rules.protocol, ∀ q ∈ circulating run,
      Genuine (cluster scheme s config hv) W.trace q := by
    intro run hr q hq
    obtain ⟨V, hm, hsub⟩ := hshown run hr
    exact (genuine_circulating hm (hdist.anti hsub) hq).mono hsub
  exact fun run hr run' hr' q hq q' hq' =>
    block_unique hl hdist (cluster_overlap hv ht) (hgenuine run hr q hq) (hgenuine run' hr' q' hq')

theorem distinguished_of_result {result : RunResult}
    (he : (runProtocol scheme s config rules.protocol).result = .ok result)
    (hd : HashesDiffer result) :
    ∀ run ∈ states scheme s config rules.protocol, Distinguished run := by
  obtain ⟨last, ⟨W, hm, -, -, hshown⟩, hend⟩ := @states_passedThrough scheme s config hv rules hi
  rw [runProtocol_eq scheme rules.protocol hv] at he
  rcases hend with hok | ⟨-, e, herr⟩
  · rw [hok] at he
    obtain rfl := Except.ok.inj he
    have hlast : Distinguished last := hd
    intro run hr
    obtain ⟨V, hmv, hsub⟩ := hshown run hr
    exact (distinct_iff hmv).mp (((distinct_iff hm).mpr hlast).anti hsub)
  · rw [herr] at he
    cases he

end Runs

def openStates : List (Run Rules.simple.protocol) :=
  states plainScheme openScenario (fourReplicas .simple 7) Rules.simple.protocol

theorem openStates_distinguished : ∀ run ∈ openStates, Distinguished run := by
  obtain ⟨result, W, he, -⟩ := @runRegistered_ok plainScheme openScenario (fourReplicas .simple 7)
    .simple rfl (open_valid .simple) rfl rfl
  exact distinguished_of_result plainScheme openScenario (fourReplicas .simple 7)
    (open_valid .simple) rfl he (openRun_simple he).1

/-- The blocks of both twins are up for a certificate, and only one gets it. -/
theorem one_block_per_view_openRun :
    ∃ run ∈ openStates, ∃ q ∈ circulating run,
      (∃ a ∈ built run, ∃ b ∈ built run, a ≠ b ∧ a.view = q.view ∧ b.view = q.view) ∧
      ∃ run' ∈ openStates, ∃ q' ∈ circulating run', q.view = q'.view ∧ q.block = q'.block := by
  have h : ∃ run ∈ openStates, ∃ q ∈ circulating run,
      (∃ a ∈ built run, ∃ b ∈ built run, a ≠ b ∧ a.view = q.view ∧ b.view = q.view) ∧
      ∃ run' ∈ openStates, ∃ q' ∈ circulating run', q.view = q'.view := by
    decide +kernel
  obtain ⟨run, hr, q, hq, htwins, run', hr', q', hq', hv⟩ := h
  have hb := one_block_per_view plainScheme openScenario (fourReplicas .simple 7)
    (open_valid .simple) rfl (by decide) openStates_distinguished run hr run' hr' q hq q' hq' hv
  exact ⟨run, hr, q, hq, htwins, run', hr', q', hq', hv, hb⟩

end Equivocation.Proofs.Circulation
