import Equivocation.Proofs.Deployment

namespace Equivocation.Proofs.Agreement

open History Locking Trails Soundness Worlds Commits Simulation Deployment

def proposals (result : RunResult) : List Block :=
  result.sent.filterMap fun e =>
    match e.message with
    | .propose p => some p.block
    | _ => none

def tree (result : RunResult) : Chain := ⟨.genesis :: proposals result⟩

def HashesDiffer (result : RunResult) : Prop :=
  ∀ a ∈ (tree result).blocks, ∀ b ∈ (tree result).blocks, a.hash = b.hash → a = b

def Agree (log : CommitLog) : Prop :=
  ∀ x ∈ log, ∀ y ∈ log, ∀ (i : Nat) (g h : Hash), x.2[i]? = some g → y.2[i]? = some h → g = h

/-- Where three blocks and a fourth are linked by their parents, and a node outside the twins has
committed the last, the views of the three follow one another, or every other branch pauses: a block
that has a child, of a view between the last and the first of the three, descends from the last. -/
def Unforked (result : RunResult) (twins : List NodeId) : Prop :=
  ∀ x ∈ result.commitLog.honest twins, ∀ b ∈ proposals result,
    ∀ one ∈ proposals result, b.parent = one.hash →
      ∀ two ∈ proposals result, one.parent = two.hash →
        ∀ three ∈ (tree result).blocks, two.parent = three.hash → three.hash ∈ x.2 →
          Rules.simple.completes one two three = true ∨
            ∀ d ∈ proposals result, ∀ c ∈ (tree result).blocks, d.parent = c.hash →
              three.view ≤ c.view → c.view ≤ one.view → (tree result).reaches c three.hash = true

instance (result : RunResult) : Decidable (HashesDiffer result) :=
  inferInstanceAs (Decidable (∀ a ∈ (tree result).blocks, ∀ b ∈ (tree result).blocks, _ → _))

instance (result : RunResult) (twins : List NodeId) : Decidable (Unforked result twins) := by
  unfold Unforked
  infer_instance

theorem builtIn_get? (rules : Rules) : Registry.builtIn.get? rules.name = some rules.protocol := by
  cases rules <;> rfl

theorem judge_safe {log : CommitLog} {twins : List NodeId} (h : Agree (log.honest twins)) :
    (log.judge twins).safe = true := by
  have hnone : ∀ i, (log.honest twins).conflictAt? i = none := by
    intro i
    unfold CommitLog.conflictAt?
    split
    · rfl
    · rename_i first rest hf
      have hmem : ∀ z ∈ first :: rest, ∃ x ∈ log.honest twins, x.2[i]? = some z.2 := by
        intro z hz
        rw [← hf] at hz
        obtain ⟨x, hx, hz⟩ := List.mem_filterMap.mp hz
        obtain ⟨g, hg, rfl⟩ := Option.map_eq_some_iff.mp hz
        exact ⟨x, hx, hg⟩
      rw [Option.map_eq_none_iff, List.find?_eq_none]
      intro z hz hne
      obtain ⟨x, hx, hfx⟩ := hmem first List.mem_cons_self
      obtain ⟨y, hy, hzy⟩ := hmem z (List.mem_cons_of_mem _ hz)
      exact of_decide_eq_true hne (h y hy x hx i _ _ hzy hfx)
  unfold Verdict.safe CommitLog.judge
  dsimp only
  rw [Option.isNone_iff_eq_none, List.findSome?_eq_none_iff]
  exact fun i _ => hnone i

theorem getElem?_unique {xs ys : List Hash} {i : Nat} {g h : Hash} (hp : xs <+: ys)
    (hg : xs[i]? = some g) (hh : ys[i]? = some h) : g = h := by
  obtain ⟨zs, rfl⟩ := hp
  rw [List.getElem?_append_left (List.getElem?_eq_some_iff.mp hg).1, hg] at hh
  exact Option.some.inj hh

section Reported

variable {C : Cluster} {rules : Rules} {twins : List NodeId} {result : RunResult} {W : World}
  (hr : Reports C rules twins result W)
include hr

theorem known_iff {b : Block} : Known W.trace b ↔ b ∈ (tree result).blocks :=
  known_iff_proposed hr.recorded hr.sent

theorem distinct_of_hashes (hd : HashesDiffer result) : Distinct W.trace :=
  fun a b ha hb => hd a ((known_iff hr).mp ha) b ((known_iff hr).mp hb)

theorem proposed_of_known {b : Block} (hb : Known W.trace b) (hne : b ≠ .genesis) :
    b ∈ proposals result :=
  (List.mem_cons.mp ((known_iff hr).mp hb)).resolve_left hne

theorem committed_of_log {x : NodeId × List Hash} (hx : x ∈ result.commitLog) :
    ∃ t ∈ C.seats, x = (t.node, (W.replica t.node).committed) := by
  rw [hr.commitLog] at hx
  obtain ⟨t, ht, rfl⟩ := List.mem_map.mp hx
  exact ⟨t, ht, rfl⟩

theorem steady_of_unforked (ho : Overlap C) (hd : Distinct W.trace) (hu : Unforked result twins)
    {x : NodeId × List Hash} (hx : x ∈ result.commitLog.honest twins) : Steady W.trace x.1 := by
  obtain ⟨hl, -⟩ := reachable_sound hr.reachable hd
  intro b one two three hb h₁ h₂ h₃ hc c hic hv hle
  obtain ⟨t, ht, rfl⟩ := committed_of_log hr (List.mem_filter.mp hx).1
  rw [← reachable_committed hr.reachable t ht] at hc
  have hthree := h₃.1
  have hlog := hu _ hx b (proposed_of_known hr hb (ne_genesis_of_link h₁))
    one (proposed_of_known hr h₁.1 (ne_genesis_of_link h₂)) h₁.2.1
    two (proposed_of_known hr h₂.1 (ne_genesis_of_link h₃)) h₂.2.1
    three ((known_iff hr).mp hthree) h₃.2.1 hc
  rcases hlog with hline | hpause
  · simp only [Rules.completes, Bool.and_eq_true, decide_eq_true_eq] at hline
    have hone := (link_spec hl hd hb h₁).1
    exact descends_of_unchallenged hl hd ho
      (unchallenged_of_consecutive hl hd ho h₂ h₃ hone hline.2.1 hline.2.2) hic hv
  · rcases hic with rfl | ⟨d, hd', hdc⟩
    · obtain rfl := eq_genesis_of_view hl hthree (View.ext (Nat.le_zero.mp hv))
      exact .refl
    · have hreach := hpause d (proposed_of_known hr hd' (ne_genesis_of_link hdc))
        c ((known_iff hr).mp hdc.1) hdc.2.1 hv hle
      obtain ⟨l, hg, hdesc⟩ := descends_of_reaches hl hd
        (fun b hb => (known_iff hr).mpr hb) hdc.1 hreach
      have hkl := (known_iff hr).mpr (Ancestry.mem_of_get? hg)
      obtain rfl := hd l three hkl hthree (Ancestry.hash_of_get? hg)
      exact hdesc

theorem agree_of_steady (ho : Overlap C) (hd : Distinct W.trace) {log : CommitLog}
    (hsub : log ⊆ result.commitLog) (hs : ∀ x ∈ log, rules = .simple ∨ Steady W.trace x.1) :
    Agree log := by
  intro x hx y hy i g h hg hh
  have hsx := hs x hx
  have hsy := hs y hy
  obtain ⟨t, ht, rfl⟩ := committed_of_log hr (hsub hx)
  obtain ⟨u, hu, rfl⟩ := committed_of_log hr (hsub hy)
  rcases reachable_agree hr.reachable hd ho ht hu hsx hsy with hp | hp
  · exact getElem?_unique hp hg hh
  · exact (getElem?_unique hp hh hg).symm

/-- A commit log lists the trail to a certified block. -/
theorem log_trail (ho : Overlap C) (hd : Distinct W.trace) {x : NodeId × List Hash}
    (hx : x ∈ result.commitLog) (hs : rules = .simple ∨ Steady W.trace x.1) :
    ∃ bs b, Trail W.trace bs b ∧ Certified C W.trace b ∧ x.2 = bs.map (·.hash) := by
  obtain ⟨hl, -⟩ := reachable_sound hr.reachable hd
  obtain ⟨t, ht, rfl⟩ := committed_of_log hr hx
  obtain ⟨bs, b, -, htr, ha, hc⟩ := reachable_committedTrail hr.reachable hd ho t ht hs
  have hf := final_of_anchored hl hd ho hs ha
  exact ⟨bs, b, htr, inner_certified hl hd hf.1, hc⟩

end Reported

def plainScheme : Scheme where
  sign r h := ⟨r.encode ++ h.bytes ++ List.replicate 28 0, by simp [ReplicaId.encode, h.length_eq]⟩
  verify r h s := s.bytes = r.encode ++ h.bytes ++ List.replicate 28 0
  publicKey _ := []

def fourReplicas (rules : Rules) (ticks : Nat) : RunConfig where
  replicas := 4
  twins := 1
  ticks := ticks
  protocol := rules.name
  viewTimeout := 3
  cacheCapacity := 0

def openScenario : Scenario where
  views := [1, 2, 2, 2].map fun leader => ⟨.ofNat leader, [.ofList ([1, 2, 3, 4, 5].map .ofNat)]⟩

def openRun (rules : Rules) : RunOutcome :=
  runRegistered plainScheme openScenario (fourReplicas rules 7) Registry.builtIn

theorem open_valid (rules : Rules) : (fourReplicas rules 7).validate openScenario = .ok () := by
  cases rules <;> decide

theorem of_any {ε α : Type} {x : Except ε α} {a : α} (p : α → Prop) [DecidablePred p]
    (h : x.toOption.any (fun a => decide (p a)) = true) (hx : x = .ok a) : p a := by
  rw [hx] at h
  exact of_decide_eq_true h

theorem openRun_simple {result : RunResult} (h : (openRun .simple).result = .ok result) :
    HashesDiffer result ∧ ∃ x ∈ result.commitLog, x.2 ≠ [] := by
  refine of_any (fun result => HashesDiffer result ∧ ∃ x ∈ result.commitLog, x.2 ≠ []) ?_ h
  decide +kernel

section Runs

variable (scheme : Scheme) (s : Scenario) (config : RunConfig)

theorem runRegistered_reports {rules : Rules} (hp : config.protocol = rules.name)
    (hv : config.validate s = .ok ()) (hi : config.injection = none) :
    (∃ result W, (runRegistered scheme s config Registry.builtIn).result = .ok result ∧
      Reports (cluster scheme s config hv) rules
        (twinNodes config.twins (assignNodes config.replicas config.twins)) result W) ∨
    config.deadlinePassed = true ∧
      ∃ e, (runRegistered scheme s config Registry.builtIn).result = .error e := by
  unfold runRegistered
  rw [hp, builtIn_get?]
  exact runProtocol_reports hv rules hi

theorem runRegistered_ok {rules : Rules} (hp : config.protocol = rules.name)
    (hv : config.validate s = .ok ()) (hi : config.injection = none)
    (hd : config.deadlineMillis = none) :
    ∃ result W, (runRegistered scheme s config Registry.builtIn).result = .ok result ∧
      Reports (cluster scheme s config hv) rules
        (twinNodes config.twins (assignNodes config.replicas config.twins)) result W := by
  refine (runRegistered_reports scheme s config hp hv hi).resolve_right fun h => ?_
  simp [RunConfig.deadlinePassed, hd] at h

/-- Agreement of the simple rules. A run ends well, and with at most a third of the replicas run as
twins, no two nodes commit different blocks at the same position. -/
theorem simple_agreement (hp : config.protocol = Rules.simple.name)
    (hv : config.validate s = .ok ()) (hi : config.injection = none)
    (hd : config.deadlineMillis = none) (ht : config.twins ≤ (config.replicas - 1) / 3) :
    ∃ result, (runRegistered scheme s config Registry.builtIn).result = .ok result ∧
      (HashesDiffer result → result.verdict.safe = true ∧ Agree result.commitLog) := by
  obtain ⟨result, W, he, hr⟩ := runRegistered_ok scheme s config hp hv hi hd
  refine ⟨result, he, fun hh => ?_⟩
  have hagree := fun log hsub => @agree_of_steady _ _ _ _ _ hr (cluster_overlap hv ht)
    (distinct_of_hashes hr hh) log hsub fun _ _ => .inl rfl
  refine ⟨?_, hagree _ (List.Subset.refl _)⟩
  rw [hr.verdict]
  exact judge_safe (hagree _ (List.filter_subset_self _))

theorem simple_agreement_openRun :
    ∃ result, (openRun .simple).result = .ok result ∧ (∃ x ∈ result.commitLog, x.2 ≠ []) ∧
      result.verdict.safe = true ∧ Agree result.commitLog := by
  obtain ⟨result, he, h⟩ := simple_agreement plainScheme openScenario (fourReplicas .simple 7)
    rfl (open_valid .simple) rfl rfl (by decide)
  obtain ⟨hd, hc⟩ := openRun_simple he
  exact ⟨result, he, hc, h hd⟩

/-- Agreement of the chained rules holds for runs in which the three blocks that a commit rests on
have views without gaps, or no other branch grows in the gaps. -/
theorem chained_agreement (hp : config.protocol = Rules.chained.name)
    (hv : config.validate s = .ok ()) (hi : config.injection = none)
    (hd : config.deadlineMillis = none) (ht : config.twins ≤ (config.replicas - 1) / 3) :
    ∃ result, (runRegistered scheme s config Registry.builtIn).result = .ok result ∧
      (HashesDiffer result →
        Unforked result (twinNodes config.twins (assignNodes config.replicas config.twins)) →
          result.verdict.safe = true ∧
            Agree (result.commitLog.honest
              (twinNodes config.twins (assignNodes config.replicas config.twins)))) := by
  obtain ⟨result, W, he, hr⟩ := runRegistered_ok scheme s config hp hv hi hd
  refine ⟨result, he, fun hh hu => ?_⟩
  have hdist := distinct_of_hashes hr hh
  have ho : Overlap (cluster scheme s config hv) := cluster_overlap hv ht
  have hagree := agree_of_steady hr ho hdist (List.filter_subset_self _)
    fun _ hx => .inr (steady_of_unforked hr ho hdist hu hx)
  refine ⟨?_, hagree⟩
  rw [hr.verdict]
  exact judge_safe hagree

theorem chained_agreement_openRun :
    ∃ result, (openRun .chained).result = .ok result ∧ (∃ x ∈ result.commitLog, x.2 ≠ []) ∧
      result.verdict.safe = true ∧
        Agree (result.commitLog.honest (twinNodes 1 (assignNodes 4 1))) := by
  obtain ⟨result, he, h⟩ := chained_agreement plainScheme openScenario (fourReplicas .chained 7)
    rfl (open_valid .chained) rfl rfl (by decide)
  obtain ⟨hd, hu, hc⟩ := of_any (fun result => HashesDiffer result ∧
    Unforked result (twinNodes 1 (assignNodes 4 1)) ∧ ∃ x ∈ result.commitLog, x.2 ≠ [])
    (by decide +kernel) he
  exact ⟨result, he, hc, h hd hu⟩

/-- The twins lead every view. They take turns to reach the others for five views, then each of them
reaches some of the others for two. -/
def forkedScenario : Scenario where
  views :=
    let odd := [[1, 3, 4, 5], [2]]
    let even := [[2, 3, 4, 5], [1]]
    let split := [[1, 3], [2, 4, 5]]
    [odd, even, odd, even, odd, split, split].map fun groups =>
      ⟨.ofNat 1, groups.map fun nodes => .ofList (nodes.map .ofNat)⟩

/-- Without the condition the chained rules do not agree: a commit rests on blocks whose views have
gaps, and the other branch of the twins grows in the gaps. -/
theorem chained_fork :
    (fourReplicas .chained 20).validate forkedScenario = .ok () ∧
      ∃ result, (runRegistered plainScheme forkedScenario (fourReplicas .chained 20)
          Registry.builtIn).result = .ok result ∧
        HashesDiffer result ∧ result.verdict.safe = false ∧
          ¬ Agree (result.commitLog.honest (twinNodes 1 (assignNodes 4 1))) := by
  have hv : (fourReplicas .chained 20).validate forkedScenario = .ok () := by decide
  obtain ⟨result, W, he, hr⟩ :=
    @runRegistered_ok plainScheme forkedScenario (fourReplicas .chained 20) .chained rfl hv rfl rfl
  obtain ⟨hd, hs⟩ := of_any (fun result => HashesDiffer result ∧ result.verdict.safe = false)
    (by decide +kernel) he
  refine ⟨hv, result, he, hd, hs, fun ha => ?_⟩
  rw [hr.verdict] at hs
  exact Bool.false_ne_true (hs.symm.trans (judge_safe ha))

/-- Commit logs of the simple rules are chains without gaps: the first block has the genesis block
as its parent, every other one the block before it, views ascend, and no hash comes twice. -/
theorem simple_log_isChain (hp : config.protocol = Rules.simple.name)
    (hv : config.validate s = .ok ()) (hi : config.injection = none)
    (ht : config.twins ≤ (config.replicas - 1) / 3) :
    (config.deadlinePassed = false →
      ∃ result, (runRegistered scheme s config Registry.builtIn).result = .ok result) ∧
    ∀ result, (runRegistered scheme s config Registry.builtIn).result = .ok result →
      HashesDiffer result → ∀ x ∈ result.commitLog, ∃ bs : List Block,
        (∀ b ∈ bs, b ∈ proposals result) ∧ x.2 = bs.map (·.hash) ∧
          (Block.genesis :: bs).IsChain (fun a b => b.parent = a.hash ∧ a.view < b.view) ∧
            x.2.Nodup := by
  have hreports := runRegistered_reports scheme s config hp hv hi
  refine ⟨fun hd => ?_, fun result he hh x hx => ?_⟩
  · rcases hreports with ⟨result, W, he, -⟩ | ⟨hd', -⟩
    · exact ⟨result, he⟩
    · rw [hd] at hd'
      cases hd'
  · rcases hreports with ⟨result', W, he', hr⟩ | ⟨-, e, he'⟩
    · obtain rfl : result' = result := Except.ok.inj (he'.symm.trans he)
      have ho : Overlap (cluster scheme s config hv) := cluster_overlap hv ht
      have hd := distinct_of_hashes hr hh
      obtain ⟨hl, -⟩ := reachable_sound hr.reachable hd
      obtain ⟨bs, b, htr, hb, hc⟩ := log_trail hr ho hd hx (.inl rfl)
      refine ⟨bs, fun y hy => ?_, hc, isChain hl hd ho htr hb, ?_⟩
      · obtain ⟨hk, hne⟩ := Trails.known htr hb.known y hy
        exact proposed_of_known hr hk hne
      · rw [hc]
        exact hashes_nodup hl hd ho htr hb
    · rw [he'] at he
      cases he

theorem simple_log_isChain_openRun :
    ∃ result, (openRun .simple).result = .ok result ∧
      ∃ x ∈ result.commitLog, x.2 ≠ [] ∧ ∃ bs : List Block,
        (∀ b ∈ bs, b ∈ proposals result) ∧ x.2 = bs.map (·.hash) ∧
          (Block.genesis :: bs).IsChain (fun a b => b.parent = a.hash ∧ a.view < b.view) ∧
            x.2.Nodup := by
  obtain ⟨hok, hlog⟩ := simple_log_isChain plainScheme openScenario (fourReplicas .simple 7)
    rfl (open_valid .simple) rfl (by decide)
  obtain ⟨result, he⟩ := hok rfl
  obtain ⟨hd, x, hx, hne⟩ := openRun_simple he
  exact ⟨result, he, x, hx, hne, hlog result he hd x hx⟩

end Runs

end Equivocation.Proofs.Agreement
