import Equivocation.Proofs.Splitting
import Equivocation.Scenario.Generator
import Mathlib.Algebra.Group.Nat.Defs
import Mathlib.Data.List.Forall2
import Mathlib.Data.List.Induction

namespace Equivocation.Proofs.Scenarios

open Generator

def everyone (config : GeneratorConfig) : NodeSet :=
  .ofList ((List.range (config.replicas + config.twins)).map fun i => .ofNat (i + 1))

def leaderPool (config : GeneratorConfig) : List ReplicaId :=
  config.leaders.getD ((List.range config.replicas).map fun i => .ofNat (i + 1))

def assignments (config : GeneratorConfig) : List (List NodeSet) :=
  Assignments.all (everyone config) config.maxGroups

def options (config : GeneratorConfig) : Nat :=
  (leaderPool config).length * (assignments config).length

/-- The choice for round `i` of scenario `k`, a digit of `k`. The first round has the most
significant one. -/
def choice (config : GeneratorConfig) (k i : Nat) : Nat :=
  k / options config ^ (config.rounds - 1 - i) % options config

/-- Each round of scenario `k` is led and split as its choice says. Choice `c` is leader `c / n` and
split `c % n`, where `n` is the number of splits. -/
def Numbered (config : GeneratorConfig) (k : Nat) (s : Scenario) : Prop :=
  s.views.length = config.rounds ∧ ∀ i (hi : i < s.views.length),
    (leaderPool config)[choice config k i / (assignments config).length]? = some s.views[i].leader ∧
    (assignments config)[choice config k i % (assignments config).length]? = some s.views[i].groups

def answer : (k : Nat) → Generator → MayDiverge (Except Crash (Option Scenario))
  | 0, g => g.next.map (·.1)
  | k + 1, g => g.next.bind fun r => answer k r.2

variable {config : GeneratorConfig} {g : Generator} {s : Scenario} {v : ViewSchedule}
  {base places c k n : Nat} {cs : List Nat} {vs : List ViewSchedule}

section Digits

theorem length_digits (base places n : Nat) : (digits base places n).length = places := by
  induction places generalizing n with
  | zero => rfl
  | succ places ih => rw [digits, List.length_append, ih, List.length_singleton]

theorem digits_lt (hb : 0 < base) (hc : c ∈ digits base places n) : c < base := by
  induction places generalizing n with
  | zero => cases hc
  | succ places ih =>
    rcases List.mem_append.mp hc with hc | hc
    · exact ih hc
    · rw [List.mem_singleton.mp hc]
      exact Nat.mod_lt n hb

theorem getElem_digits {i : Nat} (hi : i < (digits base places n).length) :
    (digits base places n)[i] = n / base ^ (places - 1 - i) % base := by
  induction places generalizing n with
  | zero => cases hi
  | succ places ih =>
    have hi' := hi
    rw [length_digits] at hi'
    simp only [digits]
    rcases Nat.lt_succ_iff_lt_or_eq.mp hi' with hlt | rfl
    · have hp : places + 1 - 1 - i = places - 1 - i + 1 := by omega
      rw [List.getElem_append_left (by rwa [length_digits]), ih, Nat.div_div_eq_div_mul, hp,
        Nat.pow_succ']
    · rw [List.getElem_append_right (Nat.le_of_eq (length_digits ..))]
      simp

theorem digits_injective {m : Nat} (hm : m < base ^ places) (hn : n < base ^ places)
    (h : digits base places m = digits base places n) : m = n := by
  induction places generalizing m n with
  | zero => exact (Nat.lt_one_iff.mp hm).trans (Nat.lt_one_iff.mp hn).symm
  | succ places ih =>
    rw [Nat.pow_succ'] at hm hn
    obtain ⟨hd, hr⟩ := List.append_inj' h rfl
    have hd := ih (Nat.div_lt_of_lt_mul hm) (Nat.div_lt_of_lt_mul hn) hd
    rw [← Nat.div_add_mod m base, ← Nat.div_add_mod n base, hd, List.singleton_inj.mp hr]

/-- A number below a product is a pair of numbers below its factors. -/
theorem paired {m q r : Nat} (hq : q < m) (hr : r < base) :
    (base * q + r) / base = q ∧ (base * q + r) % base = r ∧ base * q + r < base * m := by
  refine ⟨?_, ?_, ?_⟩
  · rw [Nat.mul_add_div (by omega), Nat.div_eq_of_lt hr, Nat.add_zero]
  · rw [Nat.mul_add_mod, Nat.mod_eq_of_lt hr]
  · calc
      base * q + r < base * (q + 1) := by rw [Nat.mul_succ]; omega
      _ ≤ base * m := Nat.mul_le_mul_left _ hq

theorem exists_digits (h : ∀ c ∈ cs, c < base) :
    ∃ n < base ^ cs.length, digits base cs.length n = cs := by
  induction cs using List.reverseRecOn with
  | nil => exact ⟨0, Nat.one_pos, rfl⟩
  | append_singleton cs c ih =>
    obtain ⟨n, hn, hd⟩ := ih fun c hc => h c (List.mem_append_left _ hc)
    obtain ⟨hq, hr, hlt⟩ := paired hn (h c (List.mem_append_right _ List.mem_cons_self))
    rw [List.length_append, List.length_singleton]
    refine ⟨base * n + c, ?_, ?_⟩
    · rwa [Nat.pow_succ']
    · rw [digits, hq, hr, hd]

end Digits

theorem scenarioCount_eq (hp : 1 ≤ n) (hn : n < 0x100000000) (base : Nat) :
    scenarioCount base n = min (base ^ n) maxCount := by
  unfold scenarioCount
  rw [if_neg (by omega), if_neg (by omega)]
  split
  · rename_i hb
    have hpow : base ^ n = base := by
      obtain rfl | rfl := Nat.le_one_iff_eq_zero_or_eq_one.mp hb
      · exact Nat.zero_pow hp
      · exact Nat.one_pow n
    rw [hpow, Nat.min_eq_left (Nat.le_trans hb (by decide))]
  · rename_i hb
    split
    · rename_i hn
      have hpow : 2 ^ 128 ≤ base ^ n :=
        Nat.le_trans (Nat.pow_le_pow_right (by decide) hn) (Nat.pow_le_pow_left (by omega) n)
      exact (Nat.min_eq_right (Nat.le_trans (by decide) hpow)).symm
    · rfl

section Choices

theorem exists_forall₂ {α β : Type} {R : α → β → Prop} {xs : List α}
    (h : ∀ x ∈ xs, ∃ y, R x y) : ∃ ys, List.Forall₂ R xs ys := by
  induction xs with
  | nil => exact ⟨[], .nil⟩
  | cons x xs ih =>
    obtain ⟨hx, hxs⟩ := List.forall_mem_cons.mp h
    obtain ⟨y, hy⟩ := hx
    obtain ⟨ys, hys⟩ := ih hxs
    exact ⟨y :: ys, .cons hy hys⟩

theorem mapM_eq_ok {α β ε : Type} {f : α → Except ε β} {xs : List α} {ys : List β} :
    xs.mapM f = .ok ys ↔ List.Forall₂ (fun x y => f x = .ok y) xs ys := by
  induction xs generalizing ys with
  | nil =>
    rw [List.forall₂_nil_left_iff]
    exact ⟨fun h => (Except.ok.inj h).symm, fun h => h ▸ rfl⟩
  | cons x xs ih =>
    rw [List.mapM_cons, List.forall₂_cons_left_iff]
    constructor
    · intro h
      cases hx : f x with
      | error e =>
        rw [hx] at h
        cases h
      | ok y =>
        cases hxs : xs.mapM f with
        | error e =>
          rw [hx, hxs] at h
          cases h
        | ok zs =>
          rw [hx, hxs] at h
          exact ⟨y, zs, rfl, ih.mp hxs, (Except.ok.inj h).symm⟩
    · rintro ⟨y, zs, hx, hxs, rfl⟩
      rw [hx, ih.mpr hxs]
      rfl

theorem ofChoices_eq_ok :
    g.ofChoices cs = .ok s ↔ List.Forall₂ (fun c v => g.schedule c = .ok v) cs s.views := by
  rw [← mapM_eq_ok]
  unfold ofChoices
  cases cs.mapM g.schedule with
  | error e => exact ⟨nofun, nofun⟩
  | ok views =>
    exact ⟨fun h => congrArg _ (congrArg Scenario.views (Except.ok.inj h)),
      fun h => congrArg _ (Scenario.ext (Except.ok.inj h))⟩

theorem schedule_eq_ok :
    g.schedule c = .ok v ↔
      g.leaders[c / g.assignments.length]? = some v.leader ∧
        g.assignments[c % g.assignments.length]? = some v.groups := by
  unfold schedule
  dsimp only
  cases g.leaders[c / g.assignments.length]? with
  | none => exact ⟨nofun, nofun⟩
  | some leader =>
    cases g.assignments[c % g.assignments.length]? with
    | none => exact ⟨nofun, nofun⟩
    | some groups =>
      constructor
      · rintro ⟨⟩
        exact ⟨rfl, rfl⟩
      · rintro ⟨⟨⟩, ⟨⟩⟩
        rfl

theorem exists_schedule (hc : c < g.choices) : ∃ v, g.schedule c = .ok v := by
  have hp : 0 < g.assignments.length := Nat.pos_of_lt_mul_left hc
  have hl : c / g.assignments.length < g.leaders.length :=
    Nat.div_lt_of_lt_mul (Nat.lt_of_lt_of_eq hc (Nat.mul_comm ..))
  have hr := Nat.mod_lt c hp
  exact ⟨⟨g.leaders[c / g.assignments.length], g.assignments[c % g.assignments.length]⟩,
    schedule_eq_ok.mpr ⟨List.getElem?_eq_getElem hl, List.getElem?_eq_getElem hr⟩⟩

theorem exists_choice (hl : v.leader ∈ g.leaders) (hg : v.groups ∈ g.assignments) :
    ∃ c < g.choices, g.schedule c = .ok v := by
  obtain ⟨i, hi, hl⟩ := List.mem_iff_getElem.mp hl
  obtain ⟨j, hj, hg⟩ := List.mem_iff_getElem.mp hg
  obtain ⟨hq, hr, hlt⟩ := paired hi hj
  refine ⟨g.assignments.length * i + j, ?_, schedule_eq_ok.mpr ?_⟩
  · exact Nat.lt_of_lt_of_eq hlt (Nat.mul_comm ..)
  · rw [hq, hr]
    exact ⟨List.getElem?_eq_some_iff.mpr ⟨hi, hl⟩, List.getElem?_eq_some_iff.mpr ⟨hj, hg⟩⟩

theorem schedule_injective (hl : g.leaders.Nodup) (ha : g.assignments.Nodup) {d : Nat}
    (hc : g.schedule c = .ok v) (hd : g.schedule d = .ok v) : c = d := by
  obtain ⟨hcl, hca⟩ := schedule_eq_ok.mp hc
  obtain ⟨hdl, hda⟩ := schedule_eq_ok.mp hd
  have hq := (List.getElem?_inj (List.getElem?_eq_some_iff.mp hcl).1 hl).mp (hcl.trans hdl.symm)
  have hr := (List.getElem?_inj (List.getElem?_eq_some_iff.mp hca).1 ha).mp (hca.trans hda.symm)
  rw [← Nat.div_add_mod c g.assignments.length, hq, hr, Nat.div_add_mod]

theorem ofChoices_injective (hl : g.leaders.Nodup) (ha : g.assignments.Nodup) {ds : List Nat}
    (hc : g.ofChoices cs = .ok s) (hd : g.ofChoices ds = .ok s) : cs = ds := by
  have hu : Relator.LeftUnique fun c v => g.schedule c = .ok v :=
    fun _ _ _ hc hd => schedule_injective hl ha hc hd
  exact List.left_unique_forall₂' hu (ofChoices_eq_ok.mp hc) (ofChoices_eq_ok.mp hd)

theorem exists_choices (h : ∀ v ∈ vs, v.leader ∈ g.leaders ∧ v.groups ∈ g.assignments) :
    ∃ cs, (∀ c ∈ cs, c < g.choices) ∧ g.ofChoices cs = .ok ⟨vs⟩ := by
  obtain ⟨cs, hcs⟩ := exists_forall₂ fun v hv => exists_choice (h v hv).1 (h v hv).2
  obtain ⟨hlt, hcs⟩ := (List.forall₂_and_left cs vs).mp hcs.flip
  exact ⟨cs, hlt, ofChoices_eq_ok.mpr hcs⟩

end Choices

section Calls

theorem next_made {draws : Option Cursor} (he : g.emitted < g.bound)
    (hn : nextChoices g = some (.ok cs, { g with draws })) (hs : g.ofChoices cs = .ok s) :
    g.next = some (.ok (some s), { g with emitted := g.emitted + 1, draws }) := by
  have hs' : ({ g with emitted := g.emitted + 1, draws } : Generator).ofChoices cs = .ok s := hs
  unfold next
  rw [if_neg (Nat.not_le_of_lt he), hn, Option.bind_eq_bind, Option.bind_some]
  dsimp only
  rw [hs']
  rfl

theorem next_of_ge (he : g.bound ≤ g.emitted) : g.next = some (.ok none, g) := if_pos he

theorem answer_zero {r : Except Crash (Option Scenario)} {g' : Generator}
    (hn : g.next = some (r, g')) : answer 0 g = some r := by
  rw [answer, hn]
  rfl

theorem answer_succ {r : Except Crash (Option Scenario)} {g' : Generator}
    (hn : g.next = some (r, g')) (k : Nat) : answer (k + 1) g = answer k g' := by
  rw [answer, hn]
  rfl

structure Sequential (g : Generator) : Prop where
  undrawn : g.draws = none
  unasked : g.emitted = 0
  rounds : 1 ≤ g.rounds
  bound : g.bound ≤ g.choices ^ g.rounds

def afterCalls (g : Generator) (k : Nat) : Generator := { g with emitted := k }

variable (hg : Sequential g)
include hg

theorem choices_pos (hk : k < g.bound) : 0 < g.choices := by
  refine Nat.pos_of_ne_zero fun hc => ?_
  have hb := hg.bound
  rw [hc, Nat.zero_pow hg.rounds] at hb
  omega

theorem exists_scenario (hk : k < g.bound) :
    ∃ s, g.ofChoices (digits g.choices g.rounds k) = .ok s := by
  obtain ⟨vs, hvs⟩ := exists_forall₂ fun c hc =>
    exists_schedule (digits_lt (choices_pos hg hk) hc)
  exact ⟨⟨vs⟩, ofChoices_eq_ok.mpr hvs⟩

theorem next_of_lt (hk : k < g.bound) (hs : g.ofChoices (digits g.choices g.rounds k) = .ok s) :
    (afterCalls g k).next = some (.ok (some s), afterCalls g (k + 1)) := by
  have hc : nextChoices (afterCalls g k) =
      some (.ok (digits g.choices g.rounds k), afterCalls g k) := by
    unfold nextChoices
    rw [show (afterCalls g k).draws = none from hg.undrawn]
    exact if_neg (Nat.ne_of_gt (choices_pos hg hk))
  exact next_made (g := afterCalls g k) hk hc hs

theorem answer_of_lt {e : Nat} (hk : e + k < g.bound)
    (hs : g.ofChoices (digits g.choices g.rounds (e + k)) = .ok s) :
    answer k (afterCalls g e) = some (.ok (some s)) := by
  induction k generalizing e with
  | zero => exact answer_zero (next_of_lt hg hk hs)
  | succ k ih =>
    obtain ⟨s', hs'⟩ := exists_scenario hg (show e < g.bound by omega)
    rw [answer_succ (next_of_lt hg (by omega) hs')]
    rw [← Nat.add_assoc, Nat.add_right_comm] at hk hs
    exact ih hk hs

theorem answer_of_ge {e : Nat} (hk : g.bound ≤ e + k) :
    answer k (afterCalls g e) = some (.ok none) := by
  induction k generalizing e with
  | zero => exact answer_zero (next_of_ge (g := afterCalls g e) hk)
  | succ k ih =>
    rcases Nat.lt_or_ge e g.bound with he | he
    · obtain ⟨s', hs'⟩ := exists_scenario hg he
      rw [answer_succ (next_of_lt hg he hs')]
      exact ih (by omega)
    · rw [answer_succ (next_of_ge (g := afterCalls g e) he)]
      exact ih (by omega)

theorem answer_eq_some :
    answer k g = some (.ok (some s)) ↔
      k < g.bound ∧ g.ofChoices (digits g.choices g.rounds k) = .ok s := by
  have he : afterCalls g 0 = g := by rw [afterCalls, ← hg.unasked]
  have h := Nat.zero_add k
  constructor
  · intro hs
    rcases Nat.lt_or_ge k g.bound with hk | hk
    · obtain ⟨s', hs'⟩ := exists_scenario hg hk
      have ha := answer_of_lt hg (h.symm ▸ hk) (h.symm ▸ hs')
      rw [he, hs] at ha
      cases ha
      exact ⟨hk, hs'⟩
    · have ha := answer_of_ge hg (h.symm ▸ hk)
      rw [he, hs] at ha
      cases ha
  · rintro ⟨hk, hs⟩
    have ha := answer_of_lt hg (h.symm ▸ hk) (h.symm ▸ hs)
    rwa [he] at ha

end Calls

/-- A generator goes through the scenarios in the order of their numbers, up to its bound: all of
them, as far as they can be counted, or the first so many. -/
structure Enumerates (config : GeneratorConfig) (g : Generator) : Prop where
  collected : ∀ j, (assignments config)[j]? =
    Splitting.answer j (.create (everyone config) config.maxGroups)
  unlimited : config.limit = none →
    g.bound = min (options config ^ config.rounds) (2 ^ 128 - 1)
  limited : ∀ l, config.limit = some l → g.bound = min l (options config ^ config.rounds)
  numbered : ∀ k < g.bound, ∃ s, answer k g = some (.ok (some s)) ∧ Numbered config k s
  ends : ∀ k, g.bound ≤ k → answer k g = some (.ok none)
  distinct : ∀ j k s, answer j g = some (.ok (some s)) → answer k g = some (.ok (some s)) → j = k
  complete : config.limit = none → options config ^ config.rounds < 2 ^ 128 → ∀ s,
    (∃ k, answer k g = some (.ok (some s))) ↔ s.views.length = config.rounds ∧
      ∀ v ∈ s.views, v.leader ∈ leaderPool config ∧ v.groups ∈ assignments config

section Creation

def created (config : GeneratorConfig) : Generator where
  rounds := config.rounds
  leaders := leaderPool config
  assignments := assignments config
  total := scenarioCount (options config) config.rounds
  bound := scenarioBound (scenarioCount (options config) config.rounds) config.limit none

theorem create_eq (hseed : config.seed = none)
    (hsize : config.replicas + config.twins < 0x100000000) :
    create config = .ok (created config) := by
  unfold create
  rw [if_neg (Nat.not_le.mpr hsize), hseed]
  rfl

theorem nodup_leaders (hsize : config.replicas + config.twins < 0x100000000)
    (hleaders : ∀ ls, config.leaders = some ls → ls.Nodup) : (leaderPool config).Nodup := by
  unfold leaderPool
  cases hl : config.leaders with
  | some ls => exact hleaders ls hl
  | none =>
    refine (List.nodup_map_iff_inj_on List.nodup_range).mpr fun i hi j hj he => ?_
    have hn := congrArg ReplicaId.toNat he
    rw [ReplicaId.toNat_ofNat, ReplicaId.toNat_ofNat] at hn
    rw [List.mem_range] at hi hj
    omega

variable (hrounds : 1 ≤ config.rounds ∧ config.rounds < 0x100000000)
include hrounds

theorem bound_created :
    (created config).bound =
      min (min (options config ^ config.rounds) maxCount) (config.limit.getD maxCount) := by
  unfold created
  dsimp only
  rw [scenarioCount_eq hrounds.1 hrounds.2]
  cases config.limit with
  | none => exact (Nat.min_eq_left (Nat.min_le_right ..)).symm
  | some l => rfl

theorem sequential_created : Sequential (created config) where
  undrawn := rfl
  unasked := rfl
  rounds := hrounds.1
  bound := by
    rw [bound_created hrounds]
    exact Nat.le_trans (Nat.min_le_left ..) (Nat.min_le_left ..)

theorem numbered_created (hk : k < (created config).bound) :
    ∃ s, answer k (created config) = some (.ok (some s)) ∧ Numbered config k s := by
  have hg := sequential_created hrounds
  obtain ⟨s, hs⟩ := exists_scenario hg hk
  have hviews := ofChoices_eq_ok.mp hs
  have hlen := length_digits (created config).choices config.rounds k
  refine ⟨s, (answer_eq_some hg).mpr ⟨hk, hs⟩, hviews.length_eq.symm.trans hlen, fun i hi => ?_⟩
  have hi' : i < (digits (created config).choices config.rounds k).length := hviews.length_eq ▸ hi
  have hv := schedule_eq_ok.mp (hviews.get hi' hi)
  rw [List.get_eq_getElem, getElem_digits] at hv
  exact hv

theorem complete_created (hb : (created config).bound = options config ^ config.rounds)
    (s : Scenario) :
    (∃ k, answer k (created config) = some (.ok (some s))) ↔ s.views.length = config.rounds ∧
      ∀ v ∈ s.views, v.leader ∈ leaderPool config ∧ v.groups ∈ assignments config := by
  have hg := sequential_created hrounds
  constructor
  · rintro ⟨k, hk⟩
    obtain ⟨hlt, hs⟩ := (answer_eq_some hg).mp hk
    obtain ⟨s', hs', hlen, hv⟩ := numbered_created hrounds hlt
    obtain rfl := Option.some.inj (Except.ok.inj (Option.some.inj (hk.symm.trans hs')))
    refine ⟨hlen, List.forall_mem_iff_getElem.mpr fun i hi => ?_⟩
    exact ⟨List.mem_of_getElem? (hv i hi).1, List.mem_of_getElem? (hv i hi).2⟩
  · rintro ⟨hlen, hv⟩
    obtain ⟨cs, hlt, hs⟩ := @exists_choices (created config) s.views hv
    obtain ⟨k, hk, hd⟩ := exists_digits hlt
    have hcs : cs.length = config.rounds := (ofChoices_eq_ok.mp hs).length_eq.trans hlen
    rw [hcs] at hk hd
    exact ⟨k, (answer_eq_some hg).mpr ⟨hb ▸ hk, (congrArg _ hd).trans hs⟩⟩

theorem created_enumerates (hsize : config.replicas + config.twins < 0x100000000)
    (hleaders : ∀ ls, config.leaders = some ls → ls.Nodup)
    (hlimit : ∀ l, config.limit = some l → l < 2 ^ 64) : Enumerates config (created config) where
  collected _ := (Splitting.answer_create ..).symm
  unlimited hl := by
    rw [bound_created hrounds, hl]
    exact Nat.min_eq_left (Nat.min_le_right ..)
  limited l hl := by
    have hlt := hlimit l hl
    rw [bound_created hrounds, hl, Nat.min_assoc, Nat.min_comm]
    exact congrArg (min · _) (Nat.min_eq_right (Nat.le_trans (Nat.le_of_lt hlt) (by decide)))
  numbered _ := numbered_created hrounds
  ends k hk := answer_of_ge (sequential_created hrounds) (e := 0) (by rwa [Nat.zero_add])
  distinct j k s hj hk := by
    have hg := sequential_created hrounds
    obtain ⟨hj, hjs⟩ := (answer_eq_some hg).mp hj
    obtain ⟨hk, hks⟩ := (answer_eq_some hg).mp hk
    have hd := ofChoices_injective (nodup_leaders hsize hleaders) (Splitting.nodup_all ..) hjs hks
    exact digits_injective (Nat.lt_of_lt_of_le hj hg.bound) (Nat.lt_of_lt_of_le hk hg.bound) hd
  complete hl hlt := by
    have hle : options config ^ config.rounds ≤ maxCount := Nat.le_pred_of_lt hlt
    refine complete_created hrounds ?_
    rw [bound_created hrounds, hl, Nat.min_eq_left hle]
    exact Nat.min_eq_left hle

end Creation

/-- Without a seed, scenarios come in the order of their numbers. None is left out, and none comes
twice. -/
theorem scenarios_enumerated (config : GeneratorConfig) (hseed : config.seed = none)
    (hrounds : 1 ≤ config.rounds ∧ config.rounds < 0x100000000)
    (hsize : config.replicas + config.twins < 0x100000000)
    (hleaders : ∀ ls, config.leaders = some ls → ls.Nodup)
    (hlimit : ∀ l, config.limit = some l → l < 2 ^ 64) :
    ∃ g, create config = .ok g ∧ Enumerates config g :=
  ⟨created config, create_eq hseed hsize, created_enumerates hrounds hsize hleaders hlimit⟩

def twoRounds : GeneratorConfig where
  replicas := 2
  twins := 1
  rounds := 2
  maxGroups := 2
  leaders := some [.ofNat 2, .ofNat 1]
  limit := some 10

theorem scenarios_enumerated_twoRounds :
    ∃ g, create twoRounds = .ok g ∧ Enumerates twoRounds g ∧ options twoRounds = 8 ∧
      g.bound = 10 := by
  have ho : options twoRounds = 8 := by decide
  obtain ⟨g, hc, hg⟩ := scenarios_enumerated twoRounds rfl (by decide) (by decide)
    (by rintro _ ⟨⟩; decide) (by rintro _ ⟨⟩; decide)
  refine ⟨g, hc, hg, ho, (hg.limited 10 rfl).trans ?_⟩
  rw [ho]
  rfl

end Equivocation.Proofs.Scenarios
