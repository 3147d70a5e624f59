import Equivocation.Proofs.Playability

namespace Equivocation.Proofs.Totals

open Generator Scenarios Drawing Playability

/-- As many scenarios as there are ways to make a choice for each round, as far as 128 bits can
tell. -/
def numberOfScenarios (config : GeneratorConfig) : Nat :=
  if config.rounds = 0 then 0 else min (options config ^ config.rounds) (2 ^ 128 - 1)

def NothingToChoose (config : GeneratorConfig) : Prop :=
  options config = 0 ∧ 0x100000000 ≤ config.rounds ∧ config.limit ≠ some 0

variable {config : GeneratorConfig} {g : Generator} {base n : Nat}

section Counts

theorem scenarioCount_of_ge (hn : 0x100000000 ≤ n) (base : Nat) :
    scenarioCount base n = maxCount := by
  unfold scenarioCount
  rw [if_neg (by omega), if_pos hn]

theorem pow_le_one (hn : n ≠ 0) (hb : base ≤ 1) : base ^ n ≤ 1 := by
  obtain rfl | rfl := Nat.le_one_iff_eq_zero_or_eq_one.mp hb
  · rw [Nat.zero_pow (Nat.pos_of_ne_zero hn)]
    exact Nat.zero_le 1
  · exact Nat.le_of_eq (Nat.one_pow n)

theorem maxCount_le_pow (hn : 0x100000000 ≤ n) (hb : 2 ≤ base) : maxCount ≤ base ^ n := by
  have hpow : 2 ^ 128 ≤ base ^ n :=
    Nat.le_trans (Nat.pow_le_pow_right (by decide) (by omega : 128 ≤ n))
      (Nat.pow_le_pow_left hb n)
  exact Nat.le_trans (by decide) hpow

/-- The count is exact unless there are so many rounds that it no longer looks at the choices, of
which there is at most one. -/
theorem scenarioCount_eq_iff :
    scenarioCount (options config) config.rounds = numberOfScenarios config ↔
      config.rounds < 0x100000000 ∨ 2 ≤ options config := by
  unfold numberOfScenarios
  by_cases hz : config.rounds = 0
  · rw [if_pos hz, hz]
    exact iff_of_true rfl (.inl (by decide))
  · rw [if_neg hz]
    rcases Nat.lt_or_ge config.rounds 0x100000000 with hlt | hge
    · exact iff_of_true (scenarioCount_eq (Nat.pos_of_ne_zero hz) hlt _) (.inl hlt)
    · rw [scenarioCount_of_ge hge]
      by_cases hb : 2 ≤ options config
      · exact iff_of_true (Nat.min_eq_right (maxCount_le_pow hge hb)).symm (.inr hb)
      · have hone := pow_le_one hz (by omega : options config ≤ 1)
        refine iff_of_false (fun he => ?_) (by omega)
        have hle : maxCount ≤ 1 := he ▸ Nat.le_trans (Nat.min_le_left _ _) hone
        exact absurd hle (by decide)

end Counts

section Calls

theorem answer_of_done (h : g.bound ≤ g.emitted) (k : Nat) : answer k g = some (.ok none) := by
  induction k with
  | zero => exact answer_zero (next_of_ge h)
  | succ k ih => rw [answer_succ (next_of_ge h), ih]

theorem below_zero (width : Width) (c : Cursor) :
    ∃ crash, (Draw.below width 0).run.run c = some (.error crash, c) := ⟨_, rfl⟩

theorem nextChoices_nothingToChoose (hc : g.choices = 0) (hr : g.rounds ≠ 0) :
    ∃ crash g', nextChoices g = some (.error crash, g') := by
  unfold nextChoices
  rw [hc]
  cases g.draws with
  | none => exact ⟨_, _, rfl⟩
  | some cursor =>
    obtain ⟨rounds, hrounds⟩ := Nat.exists_eq_succ_of_ne_zero hr
    obtain ⟨crash, hcrash⟩ := below_zero .double cursor
    have hmany : (Draw.many (Draw.below .double 0) g.rounds).run.run cursor =
        some (.error crash, cursor) := by
      rw [hrounds, Draw.many, run_bind, hcrash]
    dsimp only
    rw [hmany]
    exact ⟨_, _, rfl⟩

theorem answer_nothingToChoose (hc : g.choices = 0) (hr : g.rounds ≠ 0) (he : g.emitted < g.bound) :
    ∃ crash, answer 0 g = some (.error crash) := by
  obtain ⟨crash, g', hn⟩ := nextChoices_nothingToChoose hc hr
  have hnext : g.next = some (.error crash, g') := by
    unfold next
    rw [if_neg (Nat.not_le_of_lt he), hn]
    rfl
  exact ⟨crash, answer_zero hnext⟩

end Calls

section Creation

variable {draws : Option Cursor}

theorem bound_made_zero (ho : options config = 0) (hr : config.rounds < 0x100000000) :
    (made config).bound = 0 := by
  have hcount : scenarioCount (options config) config.rounds = 0 := by
    unfold scenarioCount
    rw [ho]
    split
    · rfl
    · rw [if_neg (by omega), if_pos (by decide)]
  change scenarioBound _ _ _ = 0
  rw [hcount]
  unfold scenarioBound
  split
  · rfl
  · exact Nat.zero_min _
  · rfl

theorem bound_made_limit (hl : config.limit = some 0) : (made config).bound = 0 := by
  change scenarioBound _ config.limit _ = 0
  rw [hl]
  cases config.seed with
  | none => exact Nat.min_zero _
  | some _ =>
    change (if _ then _ else 0) = 0
    exact ite_eq_right_iff.mpr id

theorem bound_made_pos (hr : 0x100000000 ≤ config.rounds) (hl : config.limit ≠ some 0) :
    0 < (made config).bound := by
  refine scenarioBound_pos ?_ hl
  rw [scenarioCount_of_ge hr]
  decide

/-- A generator breaks off only when it has nothing to choose from and does not know. -/
theorem breaks_off_iff :
    (∃ k crash, answer k { made config with draws } = some (.error crash)) ↔
      NothingToChoose config := by
  constructor
  · rintro ⟨k, crash, hk⟩
    have hdone : (made config).bound ≠ 0 := fun hb => by
      rw [answer_of_done (g := { made config with draws }) (Nat.le_of_eq hb) k] at hk
      cases hk
    have ho : options config = 0 := by
      by_contra hne
      obtain ⟨s?, hs, -⟩ :=
        @answer_of_some { made config with draws } (Nat.pos_of_ne_zero hne) k _ hk
      cases hs
    exact ⟨ho, Nat.le_of_not_lt fun hr => hdone (bound_made_zero ho hr),
      fun hl => hdone (bound_made_limit hl)⟩
  · rintro ⟨ho, hr, hl⟩
    have hrounds : config.rounds ≠ 0 := by omega
    obtain ⟨crash, hcrash⟩ :=
      @answer_nothingToChoose { made config with draws } ho hrounds (bound_made_pos hr hl)
    exact ⟨0, crash, hcrash⟩

end Creation

/-- The number of scenarios is right unless at most one choice is there for more rounds than 32 bits
can count. Whatever the draws, no call divides by zero, draws from an empty range or looks up a
choice that there is not, unless none is there for as many rounds. -/
theorem scenarios_counted (config : GeneratorConfig)
    (hsize : config.replicas + config.twins < 0x100000000) :
    ∃ g, create config = .ok g ∧ g.draws.isSome = config.seed.isSome ∧
      (g.total = numberOfScenarios config ↔
        config.rounds < 0x100000000 ∨ 2 ≤ options config) ∧
      ∀ draws, draws.isSome = config.seed.isSome →
        ((∃ k crash, answer k { g with draws } = some (.error crash)) ↔ NothingToChoose config) :=
  ⟨made config, create_made hsize, Option.isSome_map, scenarioCount_eq_iff,
    fun _ _ => breaks_off_iff⟩

theorem scenarios_counted_drawnRounds :
    ∃ g, create drawnRounds = .ok g ∧ g.total = 64 ∧
      ∀ k crash, answer k g ≠ some (.error crash) := by
  have ho : options drawnRounds = 8 := by decide
  obtain ⟨g, hc, hd, htotal, hcalls⟩ := scenarios_counted drawnRounds (by decide)
  refine ⟨g, hc, (htotal.mpr (.inl (by decide))).trans ?_, fun k crash hk => ?_⟩
  · unfold numberOfScenarios
    rw [ho]
    rfl
  · have hnothing := (hcalls g.draws hd).mp ⟨k, crash, hk⟩
    exact absurd (ho.symm.trans hnothing.1) (by decide)

def groupless : GeneratorConfig where
  replicas := 4
  twins := 0
  rounds := 0x100000000
  maxGroups := 0

/-- There is no scenario, but the greatest number of them is counted, and the first is not made. -/
theorem miscounted_groupless :
    ∃ g, create groupless = .ok g ∧ numberOfScenarios groupless = 0 ∧ g.total = 2 ^ 128 - 1 ∧
      ∃ crash, answer 0 g = some (.error crash) := by
  have ho : options groupless = 0 := by decide
  have hr : 0x100000000 ≤ groupless.rounds := Nat.le_refl _
  have hrounds : (made groupless).rounds ≠ 0 := by decide
  refine ⟨made groupless, create_made (by decide), ?_,
    scenarioCount_of_ge hr (options groupless), ?_⟩
  · unfold numberOfScenarios
    rw [ho, if_neg (by decide), Nat.zero_pow (by decide), Nat.zero_min]
  · exact answer_nothingToChoose ho hrounds (bound_made_pos hr nofun)

end Equivocation.Proofs.Totals
