import Equivocation.Proofs.Drawing
import Equivocation.Proofs.Scenarios
import Equivocation.Proofs.Validation

namespace Equivocation.Proofs.Playability

open Generator Scenarios Drawing Validation
open Splitting (mem_all mem_ofList)

structure Sensible (config : GeneratorConfig) : Prop where
  replicas : 1 ≤ config.replicas
  twins : config.twins ≤ config.replicas
  counted : config.replicas + config.twins < 0x100000000
  rounds : 1 ≤ config.rounds
  groups : 1 ≤ config.maxGroups
  leaders : ∀ ls, config.leaders = some ls → ls ≠ [] ∧
    ∀ l ∈ ls, 0 < l.toNat ∧ l.toNat ≤ config.replicas

/-- A scenario of as many rounds as a generator is for, each of them one of its choices. -/
def Composed (g : Generator) (s : Scenario) : Prop :=
  s.views.length = g.rounds ∧ ∀ v ∈ s.views, v.leader ∈ g.leaders ∧ v.groups ∈ g.assignments

def FairDraws (g : Generator) : Prop := ∀ c ∈ g.draws, Fair c

/-- A call to a generator that returns gives a scenario as long as the bound is not reached, and
every run with as many replicas and twins can run it. All calls return unless a draw does not. If
scenarios are drawn, the limit is the bound. -/
structure Supplies (config : GeneratorConfig) (g : Generator) : Prop where
  safe : ∀ k crash, answer k g ≠ some (.error crash)
  answered : ∀ k s?, answer k g = some (.ok s?) → (s?.isSome ↔ k < g.bound)
  limited : config.seed.isSome → ∀ l, config.limit = some l → g.bound = l
  opening : config.limit ≠ some 0 → 0 < g.bound
  rounds : ∀ k s, answer k g = some (.ok (some s)) → s.views.length = config.rounds
  valid : ∀ k s, answer k g = some (.ok (some s)) → ∀ run : RunConfig,
    run.replicas = config.replicas → run.twins = config.twins → run.validate s = .ok ()
  returns : FairDraws g → ∀ k, (answer k g).isSome

variable {config : GeneratorConfig} {run : RunConfig} {g g' : Generator} {s : Scenario}
  {v : ViewSchedule} {cs : List Nat}

section Calls

theorem exists_composed (hl : cs.length = g.rounds) (hc : ∀ c ∈ cs, c < g.choices) :
    ∃ s, g.ofChoices cs = .ok s ∧ Composed g s := by
  obtain ⟨vs, hvs⟩ := exists_forall₂ fun c hm => exists_schedule (hc c hm)
  refine ⟨⟨vs⟩, ofChoices_eq_ok.mpr hvs, hvs.length_eq.symm.trans hl, fun v hv => ?_⟩
  obtain ⟨i, hi, rfl⟩ := List.mem_iff_getElem.mp hv
  have hv := schedule_eq_ok.mp (hvs.get (hvs.length_eq ▸ hi) hi)
  exact ⟨List.mem_of_getElem? hv.1, List.mem_of_getElem? hv.2⟩

theorem draws_choices (hc : 0 < g.choices) (E : Crash → Prop) :
    Draws (Draw.many (Draw.below .double g.choices) g.rounds)
      (fun cs => cs.length = g.rounds ∧ ∀ c ∈ cs, c < g.choices) E :=
  draws_many (draws_below hc) g.rounds

theorem choices_of_some (hc : 0 < g.choices) {r : Except Crash (List Nat)}
    (hn : nextChoices g = some (r, g')) :
    ∃ cs draws, r = .ok cs ∧ g' = { g with draws } ∧
      (FairDraws g → FairDraws { g with draws }) ∧ cs.length = g.rounds ∧
        ∀ c ∈ cs, c < g.choices := by
  unfold nextChoices at hn
  cases hd : g.draws with
  | none =>
    rw [hd] at hn
    dsimp only at hn
    rw [if_neg (Nat.ne_of_gt hc)] at hn
    obtain ⟨rfl, rfl⟩ := Prod.ext_iff.mp (Option.some.inj hn)
    exact ⟨_, g.draws, rfl, rfl, id, length_digits .., fun c hm => digits_lt hc hm⟩
  | some cursor =>
    rw [hd] at hn
    obtain ⟨⟨drawn, cursor'⟩, hrun, hr⟩ := Option.map_eq_some_iff.mp hn
    obtain ⟨rfl, rfl⟩ := Prod.ext_iff.mp hr
    obtain ⟨cs, hcs, hlt⟩ := (draws_choices hc _).ok_of_some hrun
    refine ⟨cs, some cursor', hcs, rfl, fun hf c hm => ?_, hlt⟩
    obtain rfl := Option.mem_some.mp hm
    exact (fair_congr ((draws_choices hc fun _ => False).stays hrun)).mpr (hf cursor hd)

theorem exists_choices (hc : 0 < g.choices) (hf : FairDraws g) :
    ∃ r, nextChoices g = some r := by
  unfold nextChoices
  cases hd : g.draws with
  | none => exact ⟨_, if_neg (Nat.ne_of_gt hc)⟩
  | some cursor =>
    obtain ⟨r, hr⟩ := (draws_choices hc fun _ => False).returns (hf cursor hd)
    exact ⟨_, Option.map_eq_some_iff.mpr ⟨r, hr, rfl⟩⟩

theorem eq_of_done (he : ¬ g.emitted < g.bound) {r : Except Crash (Option Scenario)}
    (hn : g.next = some (r, g')) : r = .ok none ∧ g' = g :=
  Prod.mk.inj (Option.some.inj (hn.symm.trans (next_of_ge (Nat.le_of_not_lt he))))

theorem next_of_some (hc : 0 < g.choices) (he : g.emitted < g.bound)
    {r : Except Crash (Option Scenario)} (hn : g.next = some (r, g')) :
    ∃ s draws, r = .ok (some s) ∧ g' = { g with emitted := g.emitted + 1, draws } ∧
      (FairDraws g → FairDraws { g with draws }) ∧ Composed g s := by
  cases hcs : nextChoices g with
  | none =>
    unfold next at hn
    rw [if_neg (Nat.not_le_of_lt he), hcs] at hn
    cases hn
  | some drawn =>
    obtain ⟨drawn, g''⟩ := drawn
    obtain ⟨cs, draws, rfl, rfl, hf, hl, hlt⟩ := choices_of_some hc hcs
    obtain ⟨s, hs, hcomposed⟩ := exists_composed hl hlt
    have hmade := next_made he hcs hs
    obtain ⟨rfl, rfl⟩ := Prod.ext_iff.mp (Option.some.inj (hn.symm.trans hmade))
    exact ⟨s, draws, rfl, rfl, hf, hcomposed⟩

theorem exists_next (hc : 0 < g.choices) (hf : FairDraws g) : ∃ r, g.next = some r := by
  by_cases he : g.emitted < g.bound
  · obtain ⟨⟨r, g'⟩, hcs⟩ := exists_choices hc hf
    obtain ⟨cs, draws, rfl, rfl, -, hl, hlt⟩ := choices_of_some hc hcs
    obtain ⟨s, hs, -⟩ := exists_composed hl hlt
    exact ⟨_, next_made he hcs hs⟩
  · exact ⟨_, next_of_ge (Nat.le_of_not_lt he)⟩

/-- By induction on the calls: each call that returns is answered, until the bound is reached. -/
theorem answer_of_some (hc : 0 < g.choices) {k : Nat} {a : Except Crash (Option Scenario)}
    (ha : answer k g = some a) :
    ∃ s?, a = .ok s? ∧ (s?.isSome ↔ g.emitted + k < g.bound) ∧ ∀ s ∈ s?, Composed g s := by
  induction k generalizing g with
  | zero =>
    rw [Nat.add_zero]
    obtain ⟨⟨r, g'⟩, hn, rfl⟩ := Option.map_eq_some_iff.mp ha
    by_cases he : g.emitted < g.bound
    · obtain ⟨s, draws, rfl, -, -, hs⟩ := next_of_some hc he hn
      refine ⟨some s, rfl, iff_of_true rfl he, ?_⟩
      rintro _ ⟨⟩
      exact hs
    · obtain ⟨rfl, -⟩ := eq_of_done he hn
      exact ⟨none, rfl, iff_of_false Bool.false_ne_true he, nofun⟩
  | succ k ih =>
    obtain ⟨⟨r, g'⟩, hn, hlater⟩ := Option.bind_eq_some_iff.mp ha
    by_cases he : g.emitted < g.bound
    · obtain ⟨s, draws, -, rfl, -⟩ := next_of_some hc he hn
      obtain ⟨s?, rfl, hsome, hall⟩ := @ih { g with emitted := g.emitted + 1, draws } hc hlater
      refine ⟨s?, rfl, hsome.trans ?_, hall⟩
      dsimp only
      omega
    · obtain ⟨-, rfl⟩ := eq_of_done he hn
      obtain ⟨s?, rfl, hsome, hall⟩ := ih hc hlater
      exact ⟨s?, rfl, hsome.trans (by omega), hall⟩

theorem answer_isSome (hc : 0 < g.choices) (hf : FairDraws g) (k : Nat) :
    (answer k g).isSome = true := by
  induction k generalizing g with
  | zero =>
    obtain ⟨⟨a, g'⟩, hn⟩ := exists_next hc hf
    rw [answer_zero hn]
    rfl
  | succ k ih =>
    obtain ⟨⟨r, g'⟩, hn⟩ := exists_next hc hf
    rw [answer_succ hn]
    by_cases he : g.emitted < g.bound
    · obtain ⟨s, draws, -, rfl, hstill, -⟩ := next_of_some hc he hn
      exact @ih { g with emitted := g.emitted + 1, draws } hc (hstill hf)
    · obtain ⟨-, rfl⟩ := eq_of_done he hn
      exact ih hc hf

end Calls

section Choices

variable (h : Sensible config)
include h

theorem mem_everyone {n : NodeId} :
    n ∈ (everyone config).nodes ↔ 0 < n.toNat ∧ n.toNat ≤ config.replicas + config.twins := by
  have hsize := h.counted
  unfold everyone
  rw [mem_ofList, List.mem_map]
  constructor
  · rintro ⟨i, hi, rfl⟩
    have hi := List.mem_range.mp hi
    rw [NodeId.toNat_ofNat]
    omega
  · rintro ⟨hp, hle⟩
    refine ⟨n.toNat - 1, List.mem_range.mpr (by omega), ?_⟩
    rw [Nat.sub_add_cancel hp, NodeId.ofNat_toNat]

theorem leader_bounds {l : ReplicaId} (hl : l ∈ leaderPool config) :
    0 < l.toNat ∧ l.toNat ≤ config.replicas := by
  have hsize := h.counted
  unfold leaderPool at hl
  cases hls : config.leaders with
  | some ls =>
    rw [hls] at hl
    exact (h.leaders ls hls).2 l hl
  | none =>
    rw [hls] at hl
    obtain ⟨i, hi, rfl⟩ := List.mem_map.mp hl
    have hi := List.mem_range.mp hi
    rw [ReplicaId.toNat_ofNat]
    omega

theorem exists_leader : leaderPool config ≠ [] := by
  unfold leaderPool
  cases hls : config.leaders with
  | some ls => exact (h.leaders ls hls).1
  | none =>
    have hp := h.replicas
    simpa using Nat.ne_of_gt hp

/-- All nodes may be in one group. -/
theorem exists_assignment : assignments config ≠ [] := by
  have hone : (⟨1, by decide⟩ : NodeId) ∈ (everyone config).nodes := by
    have hp := h.replicas
    refine (mem_everyone h).mpr ⟨Nat.one_pos, ?_⟩
    dsimp only
    omega
  have hne := List.ne_nil_of_mem hone
  refine List.ne_nil_of_mem (a := [everyone config]) (mem_all.mpr ⟨hne, ?_, ?_⟩)
  · exact ⟨h.groups, by simpa using hne, List.pairwise_singleton _ _, by simp⟩
  · exact List.pairwise_singleton _ _

theorem options_pos : 0 < options config :=
  Nat.mul_pos (List.length_pos_iff.mpr (exists_leader h))
    (List.length_pos_iff.mpr (exists_assignment h))

theorem scenarioCount_pos : 0 < scenarioCount (options config) config.rounds := by
  have hp := options_pos h
  have hr := h.rounds
  unfold scenarioCount
  rw [if_neg (by omega)]
  split
  · decide
  · split
    · exact hp
    · split
      · decide
      · exact Nat.lt_min.mpr ⟨Nat.pow_pos hp, by decide⟩

theorem partitioned_of_choice (hr : run.replicas = config.replicas) (ht : run.twins = config.twins)
    (hl : v.leader ∈ leaderPool config) (hg : v.groups ∈ assignments config) :
    Partitioned run v := by
  obtain ⟨-, hsplit, -⟩ := mem_all.mp hg
  refine ⟨hr ▸ leader_bounds h hl, hsplit.disjoint, fun n => ?_⟩
  rw [hsplit.covering, mem_everyone h, Existing, hr, ht]

end Choices

def made (config : GeneratorConfig) : Generator :=
  { created config with
    bound := scenarioBound (scenarioCount (options config) config.rounds) config.limit config.seed
    draws := config.seed.map Cursor.ofSeed }

theorem create_made (hsize : config.replicas + config.twins < 0x100000000) :
    create config = .ok (made config) := by
  unfold create
  rw [if_neg (Nat.not_le.mpr hsize)]
  rfl

theorem bound_limited (h : Sensible config) (hs : config.seed.isSome) {l : Nat}
    (hl : config.limit = some l) : (made config).bound = l := by
  obtain ⟨seed, hseed⟩ := Option.isSome_iff_exists.mp hs
  change scenarioBound _ _ _ = l
  rw [hl, hseed]
  exact if_neg (Nat.ne_of_gt (scenarioCount_pos h))

theorem scenarioBound_pos {count : Nat} {limit seed : Option Nat} (hc : 0 < count)
    (hl : limit ≠ some 0) : 0 < scenarioBound count limit seed := by
  unfold scenarioBound
  split
  · exact hc
  next l _ => exact Nat.lt_min.mpr ⟨hc, Nat.pos_of_ne_zero fun h0 => hl (congrArg some h0)⟩
  next l _ _ =>
    rw [if_neg (Nat.ne_of_gt hc)]
    exact Nat.pos_of_ne_zero fun h0 => hl (congrArg some h0)

theorem bound_pos (h : Sensible config) (hl : config.limit ≠ some 0) : 0 < (made config).bound :=
  scenarioBound_pos (scenarioCount_pos h) hl

/-- Whatever the draws, a run with as many replicas and twins can run the scenarios that a generator
makes, be it in order or at random; and with a limit, as many are drawn if the stream is fair. -/
theorem scenarios_playable (config : GeneratorConfig) (h : Sensible config) :
    ∃ g, create config = .ok g ∧ g.draws.isSome = config.seed.isSome ∧
      ∀ draws, draws.isSome = config.seed.isSome → Supplies config { g with draws } := by
  refine ⟨made config, create_made h.counted, Option.isSome_map, fun draws _ => ?_⟩
  have hpos : 0 < ({ made config with draws } : Generator).choices := options_pos h
  have hspec : ∀ k a, answer k { made config with draws } = some a → ∃ s?, a = .ok s? ∧
      (s?.isSome ↔ k < (made config).bound) ∧ ∀ s ∈ s?, Composed (made config) s := by
    intro k a ha
    obtain ⟨s?, rfl, hsome, hall⟩ := answer_of_some hpos ha
    have hemitted : (made config).emitted + k = k := Nat.zero_add k
    exact ⟨s?, rfl, hemitted ▸ hsome, hall⟩
  have hcomposed : ∀ k s, answer k { made config with draws } = some (.ok (some s)) →
      Composed (made config) s := by
    intro k s hk
    obtain ⟨s?, hs, -, hall⟩ := hspec k _ hk
    exact hall s (Except.ok.inj hs).symm
  exact {
    safe := fun k crash hk => by
      obtain ⟨s?, hs, -⟩ := hspec k _ hk
      cases hs
    answered := fun k s? hk => by
      obtain ⟨s?', hs, hsome, -⟩ := hspec k _ hk
      cases hs
      exact hsome
    limited := fun hs l => bound_limited h hs
    opening := bound_pos h
    rounds := fun k s hk => (hcomposed k s hk).1
    valid := fun k s hk run hr ht => by
      obtain ⟨hlen, hall⟩ := hcomposed k s hk
      have hpos := h.replicas
      have htwins := h.twins
      have hsize := h.counted
      have hne : s.views ≠ [] := List.length_pos_iff.mp (hlen.symm ▸ h.rounds)
      refine validate_iff.mpr ⟨by omega, by omega, by omega, hne, fun v hv => ?_⟩
      exact partitioned_of_choice h hr ht (hall v hv).1 (hall v hv).2
    returns := fun hf k => answer_isSome hpos hf k }

def drawnRounds : GeneratorConfig := { twoRounds with seed := some 7 }

/-- The words of a seed for a while, then zeros. -/
def fading : Cursor := ⟨fun n => if n < 1000 then (Cursor.ofSeed 7).stream n else 0, 0⟩

theorem fair_fading : Fair fading :=
  fair_of_zeros 1000 fun _ hi => if_neg (Nat.not_lt_of_le hi)

theorem scenarios_playable_drawnRounds :
    Sensible drawnRounds ∧ ∃ g, create drawnRounds = .ok g ∧
      Supplies drawnRounds { g with draws := some fading } ∧
      (∃ s, answer 9 { g with draws := some fading } = some (.ok (some s))) ∧
      answer 10 { g with draws := some fading } = some (.ok none) := by
  have h : Sensible drawnRounds := by
    refine ⟨by decide, by decide, by decide, by decide, by decide, ?_⟩
    rintro _ ⟨⟩
    decide
  obtain ⟨g, hc, -, hg⟩ := scenarios_playable drawnRounds h
  have hs : Supplies drawnRounds { g with draws := some fading } := hg (some fading) rfl
  have hb := hs.limited rfl 10 rfl
  have hfair : FairDraws { g with draws := some fading } := by
    rintro _ ⟨⟩
    exact fair_fading
  have hanswer : ∀ k, ∃ s?, answer k { g with draws := some fading } = some (.ok s?) ∧
      (s?.isSome ↔ k < 10) := by
    intro k
    obtain ⟨a, ha⟩ := Option.isSome_iff_exists.mp (hs.returns hfair k)
    cases a with
    | error crash => exact absurd ha (hs.safe k crash)
    | ok s? => exact ⟨s?, ha, hb ▸ hs.answered k s? ha⟩
  obtain ⟨s?, hnine, hsome⟩ := hanswer 9
  obtain ⟨s, rfl⟩ := Option.isSome_iff_exists.mp (hsome.mpr (by decide))
  obtain ⟨s?', hten, hnone⟩ := hanswer 10
  obtain rfl := Option.not_isSome_iff_eq_none.mp fun h => absurd (hnone.mp h) (by decide)
  exact ⟨h, g, hc, hs, ⟨s, hnine⟩, hten⟩

end Equivocation.Proofs.Playability
