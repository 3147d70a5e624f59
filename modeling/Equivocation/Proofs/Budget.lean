import Equivocation.Proofs.Agreement
import Equivocation.Proofs.Handover
import Mathlib.Data.List.Forall2

namespace Equivocation.Proofs.Budget

open States Routing Timeline Handover Agreement

section Logs

variable {log log' : CommitLog} {twins : List NodeId}

def Prolongs (log log' : CommitLog) : Prop :=
  List.Forall₂ (fun x y => y.1 = x.1 ∧ x.2 <+: y.2) log log'

theorem Prolongs.honest (h : Prolongs log log') :
    Prolongs (log.honest twins) (log'.honest twins) := by
  refine List.rel_filter (fun x y hxy => ?_) h
  change (!twins.contains x.1) = true ↔ (!twins.contains y.1) = true
  rw [hxy.1]

theorem Prolongs.exists_mem (h : Prolongs log log') {x : NodeId × List Hash} (hx : x ∈ log) :
    ∃ y ∈ log', x.2 <+: y.2 := by
  induction h with
  | nil => cases hx
  | @cons a b log log' hab _ ih =>
    rcases List.mem_cons.mp hx with rfl | hx
    · exact ⟨b, List.mem_cons_self, hab.2⟩
    · obtain ⟨y, hy, hxy⟩ := ih hx
      exact ⟨y, List.mem_cons_of_mem _ hy, hxy⟩

theorem Prolongs.agree (h : Prolongs log log') (ha : Agree log') : Agree log := by
  intro x hx y hy i g k hg hk
  obtain ⟨x', hx', t, ht⟩ := h.exists_mem hx
  obtain ⟨y', hy', u, hu⟩ := h.exists_mem hy
  refine ha x' hx' y' hy' i g k ?_ ?_
  · rw [← ht, List.getElem?_append_left (List.getElem?_eq_some_iff.mp hg).1, hg]
  · rw [← hu, List.getElem?_append_left (List.getElem?_eq_some_iff.mp hk).1, hk]

theorem longest_le_iff {m : Nat} : log.longest ≤ m ↔ ∀ x ∈ log, x.2.length ≤ m := by
  have hmax : ∀ (ks : List Nat) (k : Nat), ks.foldl max k ≤ m ↔ k ≤ m ∧ ∀ j ∈ ks, j ≤ m := by
    intro ks
    induction ks with
    | nil => simp
    | cons j ks ih =>
      intro k
      rw [List.foldl_cons, ih, List.forall_mem_cons, max_le_iff, and_assoc]
  unfold CommitLog.longest
  rw [hmax, and_iff_right (Nat.zero_le m), List.forall_mem_map]

theorem le_longest {x : NodeId × List Hash} (hx : x ∈ log) : x.2.length ≤ log.longest :=
  longest_le_iff.mp (Nat.le_refl _) x hx

theorem Prolongs.longest_le (h : Prolongs log log') : log.longest ≤ log'.longest := by
  refine longest_le_iff.mpr fun x hx => ?_
  obtain ⟨y, hy, hxy⟩ := h.exists_mem hx
  exact Nat.le_trans hxy.length_le (le_longest hy)

theorem agree_of_safe (h : (log.judge twins).safe = true) : Agree (log.honest twins) := by
  intro x hx y hy i g k hg hk
  have hi : i < (log.honest twins).longest :=
    Nat.lt_of_lt_of_le (List.getElem?_eq_some_iff.mp hg).1 (le_longest hx)
  have hnone : (log.honest twins).conflictAt? i = none :=
    List.findSome?_eq_none_iff.mp (Option.isNone_iff_eq_none.mp h) i (List.mem_range.mpr hi)
  have hmem : ∀ {z : NodeId × List Hash} {f : Hash}, z ∈ log.honest twins → z.2[i]? = some f →
      (z.1, f) ∈ (log.honest twins).filterMap fun entry => entry.2[i]?.map (entry.1, ·) :=
    fun hz hf => List.mem_filterMap.mpr ⟨_, hz, by rw [hf]; rfl⟩
  have hgm := hmem hx hg
  have hkm := hmem hy hk
  unfold CommitLog.conflictAt? at hnone
  split at hnone
  · rename_i hf
    rw [hf] at hgm
    cases hgm
  · rename_i first rest hf
    rw [hf] at hgm hkm
    have hfirst : ∀ z ∈ first :: rest, z.2 = first.2 := by
      intro z hz
      rcases List.mem_cons.mp hz with rfl | hz
      · rfl
      · simpa using List.find?_eq_none.mp (Option.map_eq_none_iff.mp hnone) z hz
    exact (hfirst _ hgm).trans (hfirst _ hkm).symm

end Logs

section Growth

variable {p : Protocol} {config : RunConfig} {w : Wiring} {run₀ run run' : Run p} {i j : Instance p}

def Continued (i j : Instance p) : Prop :=
  j.seat.node = i.seat.node ∧ i.read.commits <+: j.read.commits

theorem Continued.turn (h : Continued i j) (t : Turn p.State) : Continued i (tookTurn j t) := by
  refine ⟨h.1, h.2.trans ?_⟩
  unfold Instance.read tookTurn
  dsimp only
  rw [List.filterMap_append, ← List.append_assoc]
  exact List.prefix_append _ _

theorem Continued.read (h : Continued i j) : Continued i j.read := by
  refine ⟨h.1, h.2.trans ?_⟩
  unfold Instance.read
  dsimp only
  exact List.prefix_append _ _

structure Grown (run₀ run : Run p) : Prop where
  sent : run₀.network.sent <+: run.network.sent
  log : run₀.network.log <+: run.network.log
  injected : run₀.network.injected = true → run.network.injected = true
  instances : List.Forall₂ Continued run₀.instances run.instances

theorem Grown.refl (run : Run p) : Grown run run :=
  ⟨List.prefix_refl _, List.prefix_refl _, id,
    List.forall₂_same.mpr fun _ _ => ⟨rfl, List.prefix_refl _⟩⟩

theorem Grown.map (h : Grown run₀ run) {f : Instance p → Instance p}
    (hf : ∀ i j, Continued i j → Continued i (f j)) :
    List.Forall₂ Continued run₀.instances (run.instances.map f) :=
  List.forall₂_map_right_iff.mpr (h.instances.imp hf)

theorem Grown.act (h : Grown run₀ run) {n : NodeId} {turn : Seat → p.State → Turn p.State}
    (ha : run.act n turn = .ok run') : Grown run₀ run' := by
  obtain ⟨-, rfl⟩ | ⟨i, -, rfl⟩ := act_ok ha
  · exact h
  · have hi : List.Forall₂ Continued run₀.instances
        (moved run n i (turn i.seat i.state)).instances :=
      h.map fun i j hij => by
        split
        · exact hij.turn _
        · exact hij
    unfold moved
    rw [foldl_post]
    exact ⟨h.sent.trans (List.prefix_append _ _), h.log.trans (List.prefix_append _ _), h.injected,
      hi⟩

theorem Grown.deliver (h : Grown run₀ run) {d : Delivery} (hd : Run.deliver d run = .ok run') :
    Grown run₀ run' := by
  obtain ⟨handed, hi, hn, ha⟩ := deliver_ok hd
  exact Grown.act ⟨hn ▸ h.sent, hn ▸ h.log, hn ▸ h.injected, hi ▸ h.instances⟩ ha

theorem Grown.tick (h : Grown run₀ run) (ht : Run.tick config w run = .ok run') :
    Grown run₀ run' := by
  obtain ⟨run₁, run₂, h₁, h₂, rfl⟩ := tick_ok ht
  have hb : Grown run₀
      { run with
        network := (Network.nextBatch w run.network).2
        records := run.records ++ (Network.nextBatch w run.network).1.remarks } :=
    { sent := h.sent
      log := h.log.trans (log_nextBatch w run.network ▸ List.prefix_append _ _)
      injected := fun hi => Bool.or_eq_true_iff.mpr (.inl (h.injected hi))
      instances := h.instances }
  have hg₁ := sequence_invariant (P := Grown run₀) (fun _ _ _ hd hg => hg.deliver hd) h₁ hb
  have hg₂ := sequence_invariant (P := Grown run₀) (fun _ _ _ ha hg => hg.act ha) h₂ hg₁
  exact ⟨hg₂.sent, hg₂.log, hg₂.injected, hg₂.map fun _ _ => Continued.read⟩

variable {scheme : Scheme} {s : Scenario} {j k : Nat}

theorem performed_grown (h : performed scheme s config p j = some run)
    (h' : performed scheme s config p k = some run') (hj : j ≤ k) : Grown run run' := by
  induction k generalizing run' with
  | zero =>
    obtain rfl : j = 0 := by omega
    exact Option.some.inj (h.symm.trans h') ▸ Grown.refl run
  | succ k ih =>
    rcases Nat.lt_or_eq_of_le hj with hj | rfl
    · obtain ⟨before, hb, -, ht⟩ := performed_succ.mp h'
      exact (ih hb (by omega)).tick ht
    · exact Option.some.inj (h.symm.trans h') ▸ Grown.refl run

end Growth

section Budgets

variable {scheme : Scheme} {s : Scenario} {config : RunConfig} {p : Protocol} {r r' : RunResult}
  {b b' k : Nat}

def budgeted (config : RunConfig) (b : Nat) : RunConfig := { config with ticks := b }

structure Extends (r r' : RunResult) : Prop where
  ticks : r.ticks ≤ r'.ticks
  sent : r.sent <+: r'.sent
  log : r.log <+: r'.log
  text : ∃ rest, Network.logText r'.log = Network.logText r.log ++ rest
  commitLog : Prolongs r.commitLog r'.commitLog
  commits : r.verdict.commits ≤ r'.verdict.commits
  injected : r.injected = true → r'.injected = true
  conflicted : r.verdict.safe = false → r'.verdict.safe = false

theorem logText_prefix {log log' : List Network.Entry} (h : log <+: log') :
    ∃ rest, Network.logText log' = Network.logText log ++ rest := by
  obtain ⟨more, rfl⟩ := h
  refine ⟨Network.logText more, ?_⟩
  unfold Network.logText
  rw [List.map_append, String.join_append]

theorem performed_budgeted (hb : b ≤ b') (hk : k ≤ b) :
    performed scheme s (budgeted config b) p k = performed scheme s (budgeted config b') p k := by
  induction k with
  | zero => rfl
  | succ k ih =>
    have hdue : ∀ run : Run p,
        GoesOn s (budgeted config b) k run ↔ GoesOn s (budgeted config b') k run :=
      fun run => and_congr_left' (iff_of_true hk (Nat.lt_of_lt_of_le hk hb))
    rw [performed, performed, ih (Nat.le_of_succ_le hk)]
    refine congrArg _ (funext fun run => ?_)
    exact if_congr (hdue run) rfl rfl

theorem Grown.reported {last last' : Run p} (w : Wiring) (h : Grown last last')
    (ht : last.ticks ≤ last'.ticks) :
    Extends (resultOf config w last) (resultOf config w last') := by
  have hlog : Prolongs (last.readEvents config).commitLog (last'.readEvents config).commitLog := by
    unfold Prolongs Run.commitLog Run.readEvents
    dsimp only
    rw [List.map_map, List.map_map]
    exact List.forall₂_map_left_iff.mpr (List.forall₂_map_right_iff.mpr h.instances)
  exact {
    ticks := ht
    sent := h.sent
    log := h.log
    text := logText_prefix h.log
    commitLog := hlog
    commits := hlog.honest.longest_le
    injected := h.injected
    conflicted := fun hs => by
      by_contra hs'
      have ha := agree_of_safe (Bool.not_eq_false _ ▸ hs')
      exact Bool.false_ne_true (hs.symm.trans (judge_safe (hlog.honest.agree ha))) }

/-- What a run with the larger budget has done by the end of the smaller one is the run with that
one. -/
theorem runProtocol_budgeted (hd : config.deadlineMillis = none) (hb : b ≤ b')
    (h : (runProtocol scheme s (budgeted config b') p).result = .ok r') :
    ∃ r, (runProtocol scheme s (budgeted config b) p).result = .ok r ∧ Extends r r' := by
  obtain ⟨hv, last', hl', hdue', rfl, -⟩ := runProtocol_ok h
  have hcongr : (budgeted config b).validate s = (budgeted config b').validate s :=
    @validate_congr (budgeted config b') (budgeted config b) rfl rfl s
  have hv' := hcongr.trans hv
  have hpassed : (budgeted config b).deadlinePassed = false := by
    simp [RunConfig.deadlinePassed, budgeted, hd]
  have hends : ∃ k last, performed scheme s (budgeted config b') p k = some last ∧
      performed scheme s (budgeted config b) p k = some last ∧
      ¬ GoesOn s (budgeted config b) k last ∧ k ≤ last'.ticks := by
    rcases Nat.lt_or_ge b last'.ticks with hlt | hge
    · obtain ⟨last, hl, -⟩ := performed_lt hl' hlt
      exact ⟨b, last, hl, (performed_budgeted hb (Nat.le_refl b)).trans hl,
        fun hdue => Nat.lt_irrefl b hdue.1, Nat.le_of_lt hlt⟩
    · refine ⟨_, last', hl', (performed_budgeted hb hge).trans hl', fun hdue => hdue' ?_,
        Nat.le_refl _⟩
      exact ⟨Nat.lt_of_lt_of_le hdue.1 hb, hdue.2⟩
  obtain ⟨k, last, hl, hlb, hdue, hk⟩ := hends
  have hticks := (performed_frame hl).2
  refine ⟨_, runProtocol_resultOf hv' hlb hdue hpassed, ?_⟩
  exact (performed_grown hl hl' hk).reported _ (hticks ▸ hk)

theorem runRegistered_ok_iff {registry : Registry} :
    (runRegistered scheme s config registry).result = .ok r ↔
      ∃ p, registry.get? config.protocol = some p ∧
        (runProtocol scheme s config p).result = .ok r := by
  unfold runRegistered
  cases registry.get? config.protocol with
  | none => simp
  | some p => simp

end Budgets

/-- A longer tick budget only extends a run. -/
theorem longer_budget_extends {scheme : Scheme} {s : Scenario} {config : RunConfig}
    {registry : Registry} {b b' : Nat} {r' : RunResult} (hd : config.deadlineMillis = none)
    (hb : b ≤ b') (h : (runRegistered scheme s (budgeted config b') registry).result = .ok r') :
    ∃ r, (runRegistered scheme s (budgeted config b) registry).result = .ok r ∧ Extends r r' := by
  obtain ⟨p, hp, h⟩ := runRegistered_ok_iff.mp h
  obtain ⟨r, hr, he⟩ := runProtocol_budgeted hd hb h
  exact ⟨r, runRegistered_ok_iff.mpr ⟨p, hp, hr⟩, he⟩

section Lone

def lone : RunConfig where
  replicas := 1
  twins := 0
  ticks := 0
  protocol := Rules.simple.name
  viewTimeout := 3
  cacheCapacity := 0

def loneRun (ticks : Nat) : RunOutcome :=
  runRegistered plainScheme (.baseline 1 6) (budgeted lone ticks) Registry.builtIn

/-- After six ticks nothing is committed yet, after eight the first block is. -/
theorem longer_budget_extends_lone :
    ∃ r r', (loneRun 6).result = .ok r ∧ (loneRun 8).result = .ok r' ∧ r'.verdict.commits = 1 ∧
      Extends r r' := by
  have hcommits : (loneRun 8).result.toOption.any (fun r => r.verdict.commits = 1) = true := by
    decide +kernel
  obtain ⟨r', hr', hcommits⟩ := (Option.any_eq_true _ _).mp hcommits
  have hok := toOption_eq_some.mp hr'
  obtain ⟨r, hr, he⟩ := @longer_budget_extends plainScheme (.baseline 1 6) lone Registry.builtIn
    6 8 r' rfl (by decide) hok
  exact ⟨r, r', hr, hok, of_decide_eq_true hcommits, he⟩

end Lone

end Equivocation.Proofs.Budget
