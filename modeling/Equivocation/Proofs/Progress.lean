import Equivocation.Proofs.Gathering
import Equivocation.Proofs.Stillness

namespace Equivocation.Proofs.Progress

open History Turns States Deployment Agreement Provenance Backbone Lockstep Boards Rounds Stillness
  Gathering

def afterTicks (rules : Rules) (s : Scenario) (seats : List Seat) (n : Nat) : Board :=
  (Board.tick rules s seats)^[n] (Board.start rules seats)

variable {C : Cluster} {s : Scenario} {rules : Rules} {B : Board} {tasks : List Task}
  {b : Block} {bs : List Block} {v : View} {n m : Nat}

section Growth

theorem sent_turns (B : Board) (tasks : List Task) : B.sent ⊆ (B.turns rules tasks).sent := by
  induction tasks generalizing B with
  | nil => exact List.Subset.refl _
  | cons task tasks ih =>
    exact List.Subset.trans (List.subset_append_left _ _) (ih (B.turn rules task))

theorem after_succ (n : Nat) :
    afterTicks rules s C.seats (n + 1) = (afterTicks rules s C.seats n).tick rules s C.seats :=
  Function.iterate_succ_apply' _ _ _

theorem offers_after (hnm : n ≤ m) :
    offers (afterTicks rules s C.seats n).sent ⊆ offers (afterTicks rules s C.seats m).sent := by
  induction m, hnm using Nat.le_induction with
  | base => exact List.Subset.refl _
  | succ m _ ih =>
    rw [after_succ]
    refine List.Subset.trans ih fun b hb => ?_
    obtain ⟨l, hl, hb⟩ := List.mem_filterMap.mp hb
    exact List.mem_filterMap.mpr ⟨l, sent_turns _ _ hl, hb⟩

def DistinctOffers (B : Board) : Prop := NoCollision (.genesis :: offers B.sent)

theorem DistinctOffers.anti (h : DistinctOffers (afterTicks rules s C.seats m)) (hnm : n ≤ m) :
    DistinctOffers (afterTicks rules s C.seats n) :=
  fun x hx y hy => h x (List.cons_subset_cons _ (offers_after hnm) hx) y
    (List.cons_subset_cons _ (offers_after hnm) hy)

theorem noCollision_of_recorded (hr : .genesis :: offers B.sent = bs.reverse)
    (h : DistinctOffers B) :
    NoCollision bs := by
  unfold DistinctOffers at h
  rw [hr] at h
  exact fun x hx y hy => h x (List.mem_reverse.mpr hx) y (List.mem_reverse.mpr hy)

end Growth

theorem led_of_le (hp : 0 < v.toNat) (hle : v.toNat ≤ s.size) :
    ∃ leader, scheduledLeader? s v = some leader := by
  have hz : v ≠ .zero := fun h => by
    rw [h] at hp
    exact Nat.lt_irrefl _ hp
  have hlt : v.toNat - 1 < s.views.length := by
    unfold Scenario.size at hle
    omega
  unfold scheduledLeader? Scenario.schedule?
  rw [if_neg hz, List.getElem?_eq_getElem hlt]
  exact ⟨_, rfl⟩

section Iteration

variable (hf : Single C s) (hsize : s.size < 0xFFFFFFFFFFFFFFFF)
include hf hsize

/-- Two ticks a view: in every second one the next block is proposed. -/
theorem proposed_afterTicks (hn : n < s.size)
    (hd : DistinctOffers (afterTicks rules s C.seats (2 * n))) :
    ∃ b p ps, Proposed C s b p ps (afterTicks rules s C.seats (2 * n)) ∧ ps.length = n := by
  induction n with
  | zero =>
    obtain ⟨leader, hl⟩ := @led_of_le s View.zero.next (by decide) hn
    obtain ⟨b, h⟩ := proposed_start hf hl
    exact ⟨b, .genesis, [], h, rfl⟩
  | succ n ih =>
    have hd₀ : DistinctOffers (afterTicks rules s C.seats (2 * n)) := hd.anti (by omega)
    obtain ⟨b, p, ps, h, hlen⟩ := ih (Nat.lt_of_succ_lt hn) hd₀
    have ha := noCollision_of_recorded h.recorded hd₀
    -- The block gets its votes in one tick, and in the next one the leader they go to proposes.
    have h₁ := allVoted_of_proposed rules hf h ha
    have hv : b.view.toNat = n + 1 := by
      rw [h.line.height, List.length_cons, hlen]
    have hnext : b.view.next.toNat = n + 2 := by
      rw [View.toNat_next]
      omega
    have hlt : b.view < b.view.next := by
      rw [View.lt_def]
      omega
    obtain ⟨leader, hl⟩ := @led_of_le s b.view.next (by omega) (by omega)
    obtain ⟨teller, hseat, rfl⟩ := hf.seat_of_led hl
    obtain ⟨b', h₂⟩ := proposed_of_allVoted rules hf h₁ ha hseat hl hlt
    refine ⟨b', b, p :: ps, ?_, by rw [List.length_cons, hlen]⟩
    rw [Nat.mul_succ, after_succ, after_succ]
    exact h₂

theorem allVoted_afterTicks (hn : n < s.size)
    (hd : DistinctOffers (afterTicks rules s C.seats (2 * n))) :
    ∃ b bs, AllVoted C s b bs (afterTicks rules s C.seats (2 * n + 1)) ∧ bs.length = n + 1 := by
  obtain ⟨b, p, ps, h, hlen⟩ := proposed_afterTicks hf hsize hn hd
  refine ⟨b, p :: ps, ?_, by rw [List.length_cons, hlen]⟩
  rw [after_succ]
  exact allVoted_of_proposed rules hf h (noCollision_of_recorded h.recorded hd)

/-- Nobody gets past the last view before everyone has voted in it. -/
theorem unfinished_afterTicks (hn : n + 1 < 2 * s.size)
    (hd : DistinctOffers (afterTicks rules s C.seats n)) :
    ∀ t ∈ C.seats, ((afterTicks rules s C.seats n).replica t.node).view.toNat ≤ s.size := by
  intro t ht
  obtain ⟨k, rfl | rfl⟩ : ∃ k, n = 2 * k ∨ n = 2 * k + 1 := ⟨n / 2, by omega⟩
  · obtain ⟨b, p, ps, h, hlen⟩ := proposed_afterTicks hf hsize (by omega) hd
    have hb : b.view.toNat = k + 1 := by
      rw [h.line.height, List.length_cons, hlen]
    obtain hr | ⟨-, hr⟩ := h.ready t ht
    · rw [hr.view]
      omega
    · rw [hr.view]
      have hlt : p.view < b.view := h.line.older List.mem_cons_self
      rw [View.lt_def] at hlt
      change p.view.toNat ≤ s.size
      omega
  · obtain ⟨b, bs, h, hlen⟩ := allVoted_afterTicks hf hsize (by omega) (hd.anti (Nat.le_succ _))
    rw [(h.rested t ht).view]
    change b.view.toNat ≤ s.size
    rw [h.line.height, hlen]
    omega

/-- From the time on when everyone has voted in the last view, nothing is proposed or committed. -/
theorem still_after (hpos : 0 < s.size) (hn : 2 * s.size ≤ n + 1)
    (hd : DistinctOffers (afterTicks rules s C.seats n)) :
    ∃ bs, Line bs ∧ bs.length = s.size + 1 ∧
      .genesis :: offers (afterTicks rules s C.seats n).sent = bs.reverse ∧
        Still C s ((bs.drop 3).dropLast.reverse.map (·.hash)) (afterTicks rules s C.seats n) := by
  have hspent : ∀ k, Spent C (afterTicks rules s C.seats k) := by
    intro k
    induction k with
    | zero => exact spent_start
    | succ k ih =>
      rw [after_succ]
      exact spent_tick ih
  -- The board is still from the tick on in which the last block gets its votes.
  obtain ⟨k, hk⟩ : ∃ k, s.size = k + 1 := ⟨s.size - 1, by omega⟩
  obtain ⟨b, bs, h, hlen⟩ :=
    @allVoted_afterTicks C s rules k hf hsize (by omega) (hd.anti (by omega))
  refine ⟨b :: bs, h.line, by rw [List.length_cons, hlen, hk], ?_⟩
  have hle : 2 * k + 1 ≤ n := by omega
  clear hd hn
  induction n, hle using Nat.le_induction with
  | base =>
    refine ⟨h.recorded, still_of_allVoted hf hpos h (hspent _) ?_⟩
    rw [h.line.height, hlen, hk]
  | succ n _ ih =>
    obtain ⟨hr, hs⟩ := ih
    obtain ⟨hs', ho⟩ := still_tick hf hpos hs
    rw [after_succ, ho]
    exact ⟨hr, hs'⟩

end Iteration

section Ends

variable {wiring : Wiring} {config : RunConfig} {run last : Run rules.protocol}

theorem started_start (hn : (C.seats.map (·.node)).Nodup) :
    ∀ t ∈ C.seats, ((Board.start rules C.seats).replica t.node).view ≠ .zero := by
  intro t ht
  obtain ⟨hstate, -⟩ := @sweep rules C.seats hn .initial .start
  have he := hstate t ht
  rw [Input.react, Board.replica_initial] at he
  unfold Board.start
  rw [he]
  exact Lives.start_view t

theorem complete_shows (hj : Joined C wiring) (hn : (C.seats.map (·.node)).Nodup)
    (hd : config.deadlinePassed = false) (h : Shows C run .initial) :
    ∃ last k, run.complete config wiring = .ok last ∧ k ≤ config.ticks ∧
      Shows C last (afterTicks rules wiring.scenario C.seats k) ∧
        (k < config.ticks → last.finished wiring = true) := by
  obtain ⟨run₁, h₁, hs₁⟩ := starts_shows wiring h
  have hl₁ : Live [] run₁ := by
    refine ⟨fun i hi => ?_, List.nil_subset _⟩
    rw [hs₁.states i hi]
    exact started_start hn _ (hs₁.standing.mem_seats hi)
  obtain ⟨last, k, hlast, hk, hs, hfin⟩ := loop_shows hj hd config.ticks hl₁ hs₁
  refine ⟨last, k, ?_, hk, hs, hfin⟩
  unfold Run.complete
  rw [h₁]
  exact hlast

/-- Nobody is past the last view before the time is up for two ticks a view. -/
theorem long_of_finished (hf : Single C wiring.scenario)
    (hsize : wiring.scenario.size < 0xFFFFFFFFFFFFFFFF) (hne : C.seats ≠ [])
    (h : Shows C last (afterTicks rules wiring.scenario C.seats n))
    (hd : DistinctOffers (afterTicks rules wiring.scenario C.seats n))
    (hl : last.finished wiring = true) :
    2 * wiring.scenario.size ≤ n + 1 := by
  by_contra hlt
  obtain ⟨t, ht⟩ := List.exists_mem_of_ne_nil _ hne
  have hle := unfinished_afterTicks hf hsize (Nat.lt_of_not_le hlt) hd t ht
  have hlast := finished_shows h hl ht
  have hview : wiring.scenario.lastView.toNat = wiring.scenario.size :=
    Nat.mod_eq_of_lt (by omega)
  rw [View.lt_def, hview] at hlast
  omega

theorem outcome_shows (h : Shows C last B) :
    ∃ result, (Run.outcome config wiring (.ok last)).result = .ok result ∧
      proposals result = offers B.sent ∧
      result.commitLog = C.seats.map (fun t => (t.node, (B.replica t.node).committed)) ∧
      result.verdict = result.commitLog.judge (twinNodes config.twins wiring.nodes) := by
  refine ⟨_, rfl, ?_, ?_, rfl⟩
  · rw [← h.sent]
    unfold proposals offers posted
    rw [List.filterMap_map]
    rfl
  · rw [← h.standing.seats, List.map_map]
    unfold Run.commitLog Run.readEvents
    dsimp only
    rw [List.map_map]
    refine List.map_congr_left fun i hi => ?_
    rw [Function.comp_apply, Function.comp_apply, h.commits i hi, h.states i hi]
    rfl

theorem complete_long (hf : Single C wiring.scenario) (hj : Joined C wiring)
    (hsize : wiring.scenario.size < 0xFFFFFFFFFFFFFFFF) (hne : C.seats ≠ [])
    (hd : config.deadlinePassed = false) (hticks : 2 * wiring.scenario.size ≤ config.ticks + 1)
    (h : Shows C run .initial) :
    ∃ result n,
      (Run.outcome config wiring (run.complete config wiring)).result = .ok result ∧
      proposals result = offers (afterTicks rules wiring.scenario C.seats n).sent ∧
      result.commitLog = C.seats.map (fun t =>
        (t.node, ((afterTicks rules wiring.scenario C.seats n).replica t.node).committed)) ∧
      result.verdict = result.commitLog.judge (twinNodes config.twins wiring.nodes) ∧
      (DistinctOffers (afterTicks rules wiring.scenario C.seats n) →
        2 * wiring.scenario.size ≤ n + 1) := by
  obtain ⟨last, n, hlast, hn, hshows, hfin⟩ := complete_shows hj hf.nodes hd h
  obtain ⟨result, hr, hp, hl, hverdict⟩ := @outcome_shows C rules _ wiring config last hshows
  refine ⟨result, n, by rw [hlast, hr], hp, hl, hverdict, fun htold => ?_⟩
  obtain hlt | rfl := Nat.lt_or_eq_of_le hn
  · exact long_of_finished hf hsize hne hshows htold (hfin hlt)
  · exact hticks

end Ends

section Logs

theorem views_line (h : Line bs) : bs.reverse.map (·.view.toNat) = List.range bs.length := by
  induction h with
  | root => rfl
  | @grow b p ps h hf ih =>
    have hv := (Line.grow h hf).height
    change _ = List.range ((p :: ps).length + 1)
    rw [List.reverse_cons, List.map_append, ih, List.map_singleton, hv, List.range_succ]

theorem reverse_dropLast_drop {α : Type} {xs ys : List α} {x : α} (k : Nat)
    (h : xs.reverse = x :: ys) : (xs.drop k).dropLast.reverse = ys.take (ys.length - k) := by
  have hlen : xs.length = ys.length + 1 := by
    rw [← List.length_reverse, h, List.length_cons]
  rw [← List.tail_reverse, List.reverse_drop, h, hlen]
  by_cases hk : k ≤ ys.length
  · rw [Nat.succ_sub hk]
    rfl
  · rw [Nat.sub_eq_zero_of_le (by omega), Nat.sub_eq_zero_of_le (by omega)]
    rfl

theorem views_of_reverse {os : List Block} (h : Line bs) (hlen : bs.length = n + 1)
    (hr : .genesis :: os = bs.reverse) : os.map (·.view.toNat) = List.range' 1 n := by
  have hviews := views_line h
  rw [← hr, List.map_cons, hlen, List.range_eq_range', List.range'_succ] at hviews
  exact (List.cons.inj hviews).2

theorem foldl_max_le {ks : List Nat} (h : ∀ x ∈ ks, x ≤ n) : ks.foldl max n = n := by
  induction ks with
  | nil => rfl
  | cons k ks ih =>
    rw [List.foldl_cons, Nat.max_eq_left (h k List.mem_cons_self)]
    exact ih fun x hx => h x (List.mem_cons_of_mem _ hx)

theorem judge_same {ns : List NodeId} (hne : ns ≠ []) (hs : List Hash) :
    (CommitLog.judge (ns.map fun n => (n, hs)) []).safe = true ∧
      (CommitLog.judge (ns.map fun n => (n, hs)) []).commits = hs.length := by
  have hhonest : CommitLog.honest (ns.map fun n => (n, hs)) [] = ns.map fun n => (n, hs) :=
    List.filter_eq_self.mpr fun _ _ => rfl
  refine ⟨judge_safe ?_, ?_⟩
  · rw [hhonest]
    intro x hx y hy i g h hg hh
    obtain ⟨n, -, rfl⟩ := List.mem_map.mp hx
    obtain ⟨m, -, rfl⟩ := List.mem_map.mp hy
    exact Option.some.inj (hg.symm.trans hh)
  · unfold CommitLog.judge
    dsimp only
    rw [hhonest]
    unfold CommitLog.longest
    rw [List.map_map]
    cases ns with
    | nil => exact absurd rfl hne
    | cons n ns =>
      rw [List.map_cons, List.foldl_cons, Nat.zero_max]
      refine foldl_max_le fun x hx => ?_
      obtain ⟨m, -, rfl⟩ := List.mem_map.mp hx
      exact Nat.le_refl _

end Logs

/-- The blocks and the logs of a run that has lasted two ticks a view. -/
theorem results_of_long {result : RunResult} (hf : Single C s)
    (hsize : s.size < 0xFFFFFFFFFFFFFFFF) (hpos : 0 < s.size) (hlong : 2 * s.size ≤ n + 1)
    (hd : DistinctOffers (afterTicks rules s C.seats n))
    (hp : proposals result = offers (afterTicks rules s C.seats n).sent)
    (hl : result.commitLog =
      C.seats.map fun t => (t.node, ((afterTicks rules s C.seats n).replica t.node).committed)) :
    (proposals result).map (·.view.toNat) = List.range' 1 s.size ∧
      result.commitLog = (C.seats.map (·.node)).map fun node =>
        (node, ((proposals result).take (s.size - 3)).map (·.hash)) := by
  obtain ⟨bs, hline, hlen, hrecorded, hstill⟩ := still_after hf hsize hpos hlong hd
  rw [← hp] at hrecorded
  have hviews := views_of_reverse hline hlen hrecorded
  have hcount : (proposals result).length = s.size := by
    rw [← List.length_map (·.view.toNat), hviews, List.length_range']
  have hhashes := reverse_dropLast_drop 3 hrecorded.symm
  rw [hcount] at hhashes
  refine ⟨hviews, ?_⟩
  rw [hl, List.map_map]
  refine List.map_congr_left fun t ht => ?_
  rw [(hstill.quiet t ht).committed, hhashes]
  rfl

def calmReplicas : RunConfig where
  replicas := 4
  twins := 0
  ticks := 7
  protocol := Rules.chained.name
  viewTimeout := 4

def calmScenario : Scenario where
  views := [3, 1, 4, 2].map fun leader => ⟨.ofNat leader, [.ofList ([1, 2, 3, 4].map .ofNat)]⟩

theorem gathered_calm : ∀ x ∈ calmScenario.views, Gathered 4 x := by
  intro x hx
  obtain ⟨leader, hl, rfl⟩ := List.mem_map.mp hx
  have hleader : ∀ k ∈ [3, 1, 4, 2], 0 < (ReplicaId.ofNat k).toNat ∧
      (ReplicaId.ofNat k).toNat ≤ 4 := by
    decide
  have hnodes : (NodeSet.ofList ([1, 2, 3, 4].map .ofNat)).nodes = [1, 2, 3, 4].map .ofNat := by
    decide
  refine ⟨hleader leader hl, _, rfl, fun n => ?_⟩
  rw [hnodes, List.mem_map]
  constructor
  · rintro ⟨i, hi, rfl⟩
    revert i
    decide
  · rintro ⟨hpos, hle⟩
    have hmem : n.toNat ∈ [1, 2, 3, 4] := by
      simp only [List.mem_cons, List.not_mem_nil, or_false]
      omega
    exact ⟨n.toNat, hmem, n.ofNat_toNat⟩

end Equivocation.Proofs.Progress
