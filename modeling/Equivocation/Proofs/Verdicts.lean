import Equivocation.Proofs.Attribution
import Equivocation.Proofs.Budget

namespace Equivocation.Proofs.Verdicts

def NodesAscend (log : CommitLog) : Prop := log.Pairwise fun x y => x.1.toNat < y.1.toNat

structure Honest (log : CommitLog) (excluded : List NodeId) (n : NodeId) (hs : List Hash) :
    Prop where
  included : n ∉ excluded
  logged : log.get? n = some hs

/-- A node that is not excluded has committed the block as number `i`. -/
def Has (log : CommitLog) (excluded : List NodeId) (n : NodeId) (i : Nat) (h : Hash) : Prop :=
  ∃ hs, Honest log excluded n hs ∧ hs[i]? = some h

/-- The conflict is at the first position where any two nodes differ, between the lowest node there
and the lowest one that differs from it. -/
structure First (log : CommitLog) (excluded : List NodeId) (c : Conflict) : Prop where
  first : Has log excluded c.first.1 c.index c.first.2
  second : Has log excluded c.second.1 c.index c.second.2
  differ : c.first.2 ≠ c.second.2
  earliest : ∀ m n i g h, Has log excluded m i g → Has log excluded n i h → g ≠ h → c.index ≤ i
  first_le : ∀ n h, Has log excluded n c.index h → c.first.1.toNat ≤ n.toNat
  second_le : ∀ n h, Has log excluded n c.index h → c.first.2 ≠ h → c.second.1.toNat ≤ n.toNat

/-- A verdict tells what is the case among the nodes that are not excluded, whatever is logged. -/
structure ExactVerdict (log : CommitLog) (excluded : List NodeId) (v : Verdict) : Prop where
  safe_iff : v.safe = true ↔
    ∀ m n i g h, Has log excluded m i g → Has log excluded n i h → g = h
  safe_iff_comparable : v.safe = true ↔
    ∀ m n gs hs, Honest log excluded m gs → Honest log excluded n hs → gs <+: hs ∨ hs <+: gs
  commits_ge : ∀ n hs, Honest log excluded n hs → hs.length ≤ v.commits
  commits_eq : (∃ n hs, Honest log excluded n hs ∧ hs.length = v.commits) ∨
    v.commits = 0 ∧ ∀ n hs, ¬ Honest log excluded n hs
  conflict : v.safe = false → ∃ c, v.conflict = some c ∧ First log excluded c
  no_conflict : v.safe = true → v.conflict = none
  blind : ∀ log' excluded', NodesAscend log' →
    (∀ n hs, Honest log' excluded' n hs ↔ Honest log excluded n hs) → log'.judge excluded' = v

variable {log log' : CommitLog} {excluded excluded' : List NodeId} {n : NodeId} {h : Hash}
  {hs gs : List Hash} {i : Nat} {c : Conflict}

section Entries

theorem mem_iff_get? (ha : NodesAscend log) : (n, hs) ∈ log ↔ log.get? n = some hs := by
  have hkeys : (log.map (·.1)).Nodup := by
    refine List.pairwise_map.mpr (ha.imp fun hlt he => ?_)
    rw [he] at hlt
    exact Nat.lt_irrefl _ hlt
  exact (Table.get?_eq_some_iff hkeys).symm

theorem mem_honest (ha : NodesAscend log) :
    (n, hs) ∈ log.honest excluded ↔ Honest log excluded n hs := by
  rw [CommitLog.honest, List.mem_filter, mem_iff_get? ha]
  simp only [Bool.not_eq_true', List.contains_eq_mem, decide_eq_false_iff_not]
  exact ⟨fun h => ⟨h.2, h.1⟩, fun h => ⟨h.logged, h.included⟩⟩

theorem nodesAscend_honest (ha : NodesAscend log) : NodesAscend (log.honest excluded) := ha.filter _

theorem nodesAscend_ext (ha : NodesAscend log) (ha' : NodesAscend log')
    (hm : ∀ n hs, (n, hs) ∈ log ↔ (n, hs) ∈ log') : log = log' := by
  have hnodup : ∀ {log : CommitLog}, NodesAscend log → log.Nodup := fun ha =>
    ha.imp fun hlt he => by simp [he] at hlt
  have hp : log.Perm log' :=
    (List.perm_ext_iff_of_nodup (hnodup ha) (hnodup ha')).mpr fun e => hm e.1 e.2
  apply hp.eq_of_pairwise _ ha ha'
  intro e e' _ _ hlt hlt'
  omega

theorem honest_congr (ha : NodesAscend log) (ha' : NodesAscend log')
    (hh : ∀ n hs, Honest log' excluded' n hs ↔ Honest log excluded n hs) :
    log'.honest excluded' = log.honest excluded := by
  apply nodesAscend_ext (nodesAscend_honest ha') (nodesAscend_honest ha)
  intro n hs
  rw [mem_honest ha', mem_honest ha, hh]

end Entries

section Positions

def column (log : CommitLog) (i : Nat) : List (NodeId × Hash) :=
  log.filterMap fun e => e.2[i]?.map (e.1, ·)

theorem mem_column : (n, h) ∈ column log i ↔ ∃ hs, (n, hs) ∈ log ∧ hs[i]? = some h := by
  simp only [column, List.mem_filterMap, Option.map_eq_some_iff, Prod.mk.injEq]
  constructor
  · rintro ⟨⟨n', hs⟩, he, h', hg, rfl, rfl⟩
    exact ⟨hs, he, hg⟩
  · rintro ⟨hs, he, hg⟩
    exact ⟨(n, hs), he, h, hg, rfl, rfl⟩

theorem mem_column_honest (ha : NodesAscend log) :
    (n, h) ∈ column (log.honest excluded) i ↔ Has log excluded n i h := by
  simp only [mem_column, mem_honest ha, Has]

theorem column_nodesAscend (ha : NodesAscend log) (i : Nat) :
    (column log i).Pairwise fun x y => x.1.toNat < y.1.toNat := by
  refine List.Pairwise.filterMap _ (fun e e' hlt x hx y hy => ?_) ha
  obtain ⟨g, -, rfl⟩ := Option.map_eq_some_iff.mp hx
  obtain ⟨h, -, rfl⟩ := Option.map_eq_some_iff.mp hy
  exact hlt

theorem conflictAt?_eq (log : CommitLog) (i : Nat) : log.conflictAt? i =
    match column log i with
    | [] => none
    | first :: rest => (rest.find? (·.2 ≠ first.2)).map fun second => ⟨i, first, second⟩ := rfl

theorem agree_of_conflictAt? (hc : log.conflictAt? i = none) {x y : NodeId × Hash}
    (hx : x ∈ column log i) (hy : y ∈ column log i) : x.2 = y.2 := by
  rw [conflictAt?_eq] at hc
  cases hl : column log i with
  | nil =>
    rw [hl] at hx
    cases hx
  | cons first rest =>
    rw [hl] at hc hx hy
    have hfirst : ∀ z ∈ first :: rest, z.2 = first.2 := by
      intro z hz
      obtain rfl | hz := List.mem_cons.mp hz
      · rfl
      · simpa using List.find?_eq_none.mp (Option.map_eq_none_iff.mp hc) z hz
    rw [hfirst x hx, hfirst y hy]

/-- A conflict is between the first one and the first that differs from it. -/
structure Clash (xs : List (NodeId × Hash)) (i : Nat) (c : Conflict) : Prop where
  index : c.index = i
  first : c.first ∈ xs
  second : c.second ∈ xs
  differ : c.first.2 ≠ c.second.2
  first_le : ∀ x ∈ xs, c.first.1.toNat ≤ x.1.toNat
  second_le : ∀ x ∈ xs, c.first.2 ≠ x.2 → c.second.1.toNat ≤ x.1.toNat

theorem clash_of_conflictAt? (ha : NodesAscend log) (hc : log.conflictAt? i = some c) :
    Clash (column log i) i c := by
  have hord := column_nodesAscend ha i
  rw [conflictAt?_eq] at hc
  cases hl : column log i with
  | nil =>
    rw [hl] at hc
    cases hc
  | cons first rest =>
    rw [hl] at hc hord
    obtain ⟨hfirst, hrest⟩ := List.pairwise_cons.mp hord
    obtain ⟨second, hf, rfl⟩ := Option.map_eq_some_iff.mp hc
    obtain ⟨hne, before, after, rfl, hbefore⟩ := List.find?_eq_some_iff_append.mp hf
    have hne : second.2 ≠ first.2 := by simpa using hne
    refine ⟨rfl, by simp, by simp, hne.symm, fun x hx => ?_, fun x hx hd => ?_⟩
    · obtain rfl | hx := List.mem_cons.mp hx
      · exact Nat.le_refl _
      · exact Nat.le_of_lt (hfirst x hx)
    · obtain rfl | hx := List.mem_cons.mp hx
      · exact absurd rfl hd
      · obtain hx | hx := List.mem_append.mp hx
        · have he : x.2 = first.2 := by simpa using hbefore x hx
          exact absurd he.symm hd
        · obtain rfl | hx := List.mem_cons.mp hx
          · exact Nat.le_refl _
          · obtain ⟨-, hrest, -⟩ := List.pairwise_append.mp hrest
            exact Nat.le_of_lt ((List.pairwise_cons.mp hrest).1 x hx)

end Positions

section Search

theorem findSome?_range {α : Type} {f : Nat → Option α} {k : Nat} {x : α}
    (hf : (List.range k).findSome? f = some x) : ∃ i, f i = some x ∧ ∀ j < i, f j = none := by
  obtain ⟨before, i, after, hr, hi, hb⟩ := List.findSome?_eq_some_iff.mp hf
  refine ⟨i, hi, fun j hj => ?_⟩
  have hord := List.pairwise_lt_range (n := k)
  have hik : i ∈ List.range k := by simp [hr]
  have hjk : j ∈ List.range k := List.mem_range.mpr (Nat.lt_trans hj (List.mem_range.mp hik))
  rw [hr] at hord hjk
  obtain hjb | hja := List.mem_append.mp hjk
  · exact hb j hjb
  · have hij : i ≤ j := by
      obtain ⟨-, hord, -⟩ := List.pairwise_append.mp hord
      obtain rfl | hja := List.mem_cons.mp hja
      · exact Nat.le_refl _
      · exact Nat.le_of_lt ((List.pairwise_cons.mp hord).1 j hja)
    omega

theorem first_of_conflict (ha : NodesAscend log) (hc : (log.judge excluded).conflict = some c) :
    First log excluded c := by
  obtain ⟨i, hi, hj⟩ := findSome?_range hc
  have hclash := clash_of_conflictAt? (nodesAscend_honest ha) hi
  obtain rfl := hclash.index
  refine ⟨(mem_column_honest ha).mp hclash.first, (mem_column_honest ha).mp hclash.second,
    hclash.differ, fun m n j g h hm hn hd => ?_, fun n h hn => ?_, fun n h hn hd => ?_⟩
  · -- A position before the first conflict has been searched, and all nodes agree there.
    by_contra hlt
    have hnone := hj j (Nat.lt_of_not_le hlt)
    exact hd (agree_of_conflictAt? hnone ((mem_column_honest ha).mpr hm)
      ((mem_column_honest ha).mpr hn))
  · exact hclash.first_le _ ((mem_column_honest ha).mpr hn)
  · exact hclash.second_le _ ((mem_column_honest ha).mpr hn) hd

theorem agree_iff (ha : NodesAscend log) : Agreement.Agree (log.honest excluded) ↔
    ∀ m n i g h, Has log excluded m i g → Has log excluded n i h → g = h := by
  constructor
  · rintro hag m n i g h ⟨gs, hm, hg⟩ ⟨hs, hn, hh⟩
    exact hag (m, gs) ((mem_honest ha).mpr hm) (n, hs) ((mem_honest ha).mpr hn) i g h hg hh
  · intro hag x hx y hy i g h hg hh
    exact hag x.1 y.1 i g h ⟨x.2, (mem_honest ha).mp hx, hg⟩ ⟨y.2, (mem_honest ha).mp hy, hh⟩

theorem safe_iff_agree : (log.judge excluded).safe = true ↔
    Agreement.Agree (log.honest excluded) := ⟨Budget.agree_of_safe, Agreement.judge_safe⟩

theorem prefix_of_agree (hle : gs.length ≤ hs.length)
    (ha : ∀ (i : Nat) (g h : Hash), gs[i]? = some g → hs[i]? = some h → g = h) : gs <+: hs := by
  rw [List.prefix_iff_getElem?]
  intro i hi
  have hi' := Nat.lt_of_lt_of_le hi hle
  rw [List.getElem?_eq_getElem hi', ha i _ _ (List.getElem?_eq_getElem hi)
    (List.getElem?_eq_getElem hi')]

theorem comparable_iff : gs <+: hs ∨ hs <+: gs ↔
    ∀ (i : Nat) (g h : Hash), gs[i]? = some g → hs[i]? = some h → g = h := by
  constructor
  · intro hp i g h hg hh
    obtain hp | hp := hp
    · exact Agreement.getElem?_unique hp hg hh
    · exact (Agreement.getElem?_unique hp hh hg).symm
  · intro ha
    obtain hle | hle := Nat.le_total gs.length hs.length
    · exact .inl (prefix_of_agree hle ha)
    · exact .inr (prefix_of_agree hle fun i h g hh hg => (ha i g h hg hh).symm)

theorem longest_attained (log : CommitLog) :
    (∃ e ∈ log, e.2.length = log.longest) ∨ log.longest = 0 ∧ log = [] := by
  by_contra hno
  obtain ⟨hlt, hne⟩ := not_or.mp hno
  have hlt : ∀ e ∈ log, e.2.length < log.longest := by
    intro e he
    have hle := Budget.le_longest he
    have hneq : e.2.length ≠ log.longest := fun h => hlt ⟨e, he, h⟩
    omega
  have hle : log.longest ≤ log.longest - 1 :=
    Budget.longest_le_iff.mpr fun e he => Nat.le_sub_one_of_lt (hlt e he)
  cases log with
  | nil => exact hne ⟨rfl, rfl⟩
  | cons e log =>
    have := hlt e List.mem_cons_self
    omega

end Search

/-- The oracle compares all nodes with one of them only and stops at the first difference, and yet
its verdict is about any two nodes and all positions. -/
theorem exactVerdict_judge (ha : NodesAscend log) (excluded : List NodeId) :
    ExactVerdict log excluded (log.judge excluded) where
  safe_iff := safe_iff_agree.trans (agree_iff ha)
  safe_iff_comparable := by
    rw [safe_iff_agree, agree_iff ha]
    constructor
    · intro hag m n gs hs hm hn
      exact comparable_iff.mpr fun i g h hg hh => hag m n i g h ⟨gs, hm, hg⟩ ⟨hs, hn, hh⟩
    · rintro hc m n i g h ⟨gs, hm, hg⟩ ⟨hs, hn, hh⟩
      exact comparable_iff.mp (hc m n gs hs hm hn) i g h hg hh
  commits_ge n hs hn := Budget.le_longest ((mem_honest ha).mpr hn)
  commits_eq := by
    obtain ⟨e, he, hlen⟩ | ⟨hzero, hnil⟩ := longest_attained (log.honest excluded)
    · exact .inl ⟨e.1, e.2, (mem_honest ha).mp he, hlen⟩
    · refine .inr ⟨hzero, fun n hs hn => ?_⟩
      have hm := (mem_honest ha).mpr hn
      rw [hnil] at hm
      cases hm
  conflict hunsafe := by
    cases hc : (log.judge excluded).conflict with
    | none => simp [Verdict.safe, hc] at hunsafe
    | some c => exact ⟨c, rfl, first_of_conflict ha hc⟩
  no_conflict hsafe := Option.isNone_iff_eq_none.mp hsafe
  blind log' excluded' ha' hh := by
    rw [CommitLog.judge, CommitLog.judge, honest_congr ha ha' hh]

section Runs

variable {scheme : Scheme} {s : Scenario} {config : RunConfig} {p : Protocol} {r : RunResult}

/-- The commit log of a run has one entry for each node, in the order of the nodes. -/
theorem nodesAscend_of_run (hr : (runProtocol scheme s config p).result = .ok r) :
    NodesAscend r.commitLog := by
  obtain ⟨hv, last, hlast, -, rfl, -⟩ := Handover.runProtocol_ok hr
  have hlog : (Handover.resultOf config (States.wiring s config) last).commitLog.map (·.1) =
      last.nodes := by
    simp [Handover.resultOf, Run.commitLog, Run.readEvents, Run.nodes, Instance.read]
  have hnodes : _ = (assignNodes config.replicas config.twins).map (·.1) :=
    hlog.trans (Handover.performed_frame hlast).1
  have hord : ((assignNodes config.replicas config.twins).map (·.1)).Pairwise
      fun m n => m.toNat < n.toNat :=
    List.pairwise_map.mpr (Attribution.assignNodes_ascend (Deployment.validate_spec hv).2.2)
  rw [← hnodes, List.pairwise_map] at hord
  exact hord

theorem verdict_of_run (hr : (runProtocol scheme s config p).result = .ok r) :
    r.verdict =
      r.commitLog.judge (twinNodes config.twins (assignNodes config.replicas config.twins)) := by
  obtain ⟨-, last, -, -, rfl, -⟩ := Handover.runProtocol_ok hr
  rfl

end Runs

/-- Verdicts are exact, on any commit log and on those of all runs of whatever protocols. -/
theorem verdicts_exact :
    (∀ (log : CommitLog) (excluded : List NodeId), NodesAscend log →
      ExactVerdict log excluded (log.judge excluded)) ∧
    ∀ (scheme : Scheme) (s : Scenario) (config : RunConfig) (registry : Registry) (r : RunResult),
      (runRegistered scheme s config registry).result = .ok r →
        ExactVerdict r.commitLog (twinNodes config.twins (assignNodes config.replicas config.twins))
          r.verdict := by
  refine ⟨fun log excluded ha => exactVerdict_judge ha excluded,
    fun scheme s config registry r hr => ?_⟩
  cases hp : registry.get? config.protocol with
  | none => simp [runRegistered, hp] at hr
  | some p =>
    rw [runRegistered, hp] at hr
    rw [verdict_of_run hr]
    exact exactVerdict_judge (nodesAscend_of_run hr) _

def partedLog : CommitLog :=
  [(.ofNat 1, [.fill 1, .fill 2]), (.ofNat 2, [.fill 1]), (.ofNat 3, [.fill 1, .fill 3, .fill 3]),
    (.ofNat 4, [.fill 4])]

theorem verdicts_exact_parted :
    ExactVerdict partedLog [.ofNat 4]
      ⟨3, some ⟨1, (.ofNat 1, .fill 2), (.ofNat 3, .fill 3)⟩⟩ ∧
    ∃ r, (Agreement.openRun .simple).result = .ok r ∧
      ExactVerdict r.commitLog (twinNodes 1 (assignNodes 4 1)) r.verdict := by
  have hv : partedLog.judge [.ofNat 4] = ⟨3, some ⟨1, (.ofNat 1, .fill 2), (.ofNat 3, .fill 3)⟩⟩ :=
    by decide
  obtain ⟨r, -, hr, -⟩ := @Agreement.runRegistered_ok Agreement.plainScheme Agreement.openScenario
    (Agreement.fourReplicas .simple 7) .simple rfl (Agreement.open_valid .simple) rfl rfl
  rw [← hv]
  exact ⟨verdicts_exact.1 partedLog _ (by unfold NodesAscend; decide), r, hr,
    verdicts_exact.2 _ _ _ _ r hr⟩

end Equivocation.Proofs.Verdicts
