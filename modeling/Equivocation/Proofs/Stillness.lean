import Equivocation.Proofs.Rounds

namespace Equivocation.Proofs.Stillness

open History Turns Lives Commits Conduct Provenance Backbone Lockstep Boards Rounds

variable {C : Cluster} {s : Scenario} {rules : Rules} {seat : Seat} {input : Input}
  {t t' : Turn Replica} {r : Replica} {B : Board} {b : Block} {bs : List Block}
  {tasks : List Task} {hs : List Hash}

theorem offers_posts (origin : ReplicaId) (es : List Effect) :
    offers (posts origin es) = es.filterMap offered? := by
  unfold offers posts
  rw [List.filterMap_filterMap]
  refine List.filterMap_congr fun e _ => ?_
  cases e with
  | send whom m => cases m <;> rfl
  | _ => rfl

theorem bindingSteps_proposed (hs : BindingSteps seat input t t') :
    t.state.lastProposed ≤ t'.state.lastProposed := by
  induction hs with
  | refl => exact Nat.le_refl _
  | tail _ h ih =>
    refine Nat.le_trans ih ?_
    cases h with
    | aside idle => exact Nat.le_of_eq (congrArg _ idle.proposed.symm)
    | propose led first own recorded voted view free shown =>
      rw [recorded, own]
      exact Nat.le_of_lt first
    | vote offered led first recorded proposed view mail shown =>
      exact Nat.le_of_eq (congrArg _ proposed.symm)
    | giveUp voted recorded proposed view shown =>
      exact Nat.le_of_eq (congrArg _ proposed.symm)

/-- In one turn an instance only proposes blocks of views that it leads, and remembers them. -/
theorem react_offers (hb : b ∈ (input.react rules seat r).effects.filterMap offered?) :
    seat.leader b.view = some seat.replica ∧
      b.view ≤ (input.react rules seat r).state.lastProposed := by
  have h : BoundInOrder seat [input] (input.react rules seat r).state
      ([] ++ (input.react rules seat r).effects) :=
    bindingSteps_boundInOrder (react_bindingSteps r) List.mem_cons_self
      (boundInOrder_of_free (by simp))
  obtain ⟨e, he, hb⟩ := List.mem_filterMap.mp hb
  exact ⟨h.led e he b hb, h.proposed e he b hb⟩

/-- Everything proposed comes from the leader of its view, and none of them proposes twice. -/
def Spent (C : Cluster) (B : Board) : Prop :=
  ∀ b ∈ offers B.sent, ∃ t ∈ C.seats, t.leader b.view = some t.replica ∧
    b.view ≤ (B.replica t.node).lastProposed

theorem spent_turn (hseat : seat ∈ C.seats) (h : Spent C B) :
    Spent C (B.turn rules (seat, input)) := by
  intro b hb
  rw [show (B.turn rules (seat, input)).sent = B.sent ++ posts seat.replica
    (input.react rules seat (B.replica seat.node)).effects from rfl, offers_append,
    offers_posts] at hb
  obtain hb | hb := List.mem_append.mp hb
  · obtain ⟨t, ht, hl, hp⟩ := h b hb
    refine ⟨t, ht, hl, ?_⟩
    by_cases hn : t.node = seat.node
    · obtain rfl := C.apart t ht seat hseat hn
      rw [B.replica_turn]
      exact Nat.le_trans hp (bindingSteps_proposed (react_bindingSteps _))
    · rw [Board.replica_turn_of_ne hn]
      exact hp
  · obtain ⟨hl, hp⟩ := react_offers hb
    refine ⟨seat, hseat, hl, ?_⟩
    rw [B.replica_turn]
    exact hp

theorem spent_turns (ht : ∀ task ∈ tasks, task.1 ∈ C.seats) (h : Spent C B) :
    Spent C (B.turns rules tasks) := by
  induction tasks generalizing B with
  | nil => exact h
  | cons task tasks ih =>
    exact ih (fun x hx => ht x (List.mem_cons_of_mem _ hx))
      (spent_turn (ht task List.mem_cons_self) h)

theorem seat_of_timer {seats : List Seat} : ∀ task ∈ seats.map fun t => (t, input),
    task.1 ∈ seats := by
  intro task ht
  obtain ⟨t, hmem, rfl⟩ := List.mem_map.mp ht
  exact hmem

theorem spent_start : Spent C (Board.start rules C.seats) :=
  spent_turns seat_of_timer fun _ hb => absurd hb List.not_mem_nil

theorem spent_tick (h : Spent C B) : Spent C (B.tick rules s C.seats) := by
  refine spent_turns (fun task ht => ?_) h
  obtain ht | ht := List.mem_append.mp ht
  · obtain ⟨l, -, ht⟩ := List.mem_flatMap.mp ht
    obtain ⟨t, hmem, rfl⟩ := List.mem_map.mp ht
    exact mem_reached hmem
  · exact seat_of_timer task ht

structure Quiet (s : Scenario) (hs : List Hash) (seat : Seat) (r : Replica) : Prop where
  late : s.size ≤ r.view.toNat
  spent : seat.leader r.view = some seat.replica → r.view ≤ r.lastProposed
  committed : r.committed = hs

theorem spent_later (hl : seat.leaders = s.leaders) {v w : View} (hv : s.size ≤ v.toNat)
    (hle : v ≤ w) (hled : seat.leader w = some seat.replica) : w = v := by
  rw [leader_eq hl] at hled
  obtain ⟨schedule, hs, -⟩ := Option.map_eq_some_iff.mp hled
  have hw := schedule?_le hs
  rw [View.le_def] at hle
  exact View.ext (by omega)

section Turns

variable (hl : seat.leaders = s.leaders) (hi : ∀ origin p, input ≠ .message origin (.propose p))
include hl hi

theorem bindingSteps_quiet (hs : BindingSteps seat input t t') (hv : s.size ≤ t.state.view.toNat)
    (hp : seat.leader t.state.view = some seat.replica → t.state.view ≤ t.state.lastProposed) :
    s.size ≤ t'.state.view.toNat ∧
      (seat.leader t'.state.view = some seat.replica → t'.state.view ≤ t'.state.lastProposed) ∧
        t'.effects.filterMap offered? = t.effects.filterMap offered? := by
  induction hs with
  | refl => exact ⟨hv, hp, rfl⟩
  | tail _ h ih =>
    obtain ⟨hv, hp, he⟩ := ih
    cases h with
    | aside idle =>
      obtain ⟨es, hes, hfree⟩ := idle.free
      refine ⟨Nat.le_trans hv idle.view, fun hled => ?_, ?_⟩
      · have hsame := spent_later hl hv idle.view hled
        rw [idle.proposed, hsame]
        exact hp (hsame ▸ hled)
      · rw [hes, List.filterMap_append, he,
          List.filterMap_eq_nil_iff.mpr fun e hm => (hfree e hm).silent.2.2.2, List.append_nil]
    | propose led first own recorded voted view free shown =>
      exact absurd first (Nat.not_lt_of_le (hp led))
    | vote offered led first recorded proposed view mail shown => exact absurd offered (hi _ _)
    | giveUp voted recorded proposed view shown =>
      rw [view, proposed, shown, List.filterMap_append, he]
      exact ⟨hv, hp, List.append_nil _⟩

theorem react_quiet (hpos : 0 < s.size) (h : Quiet s hs seat r) :
    Quiet s hs seat (input.react rules seat r).state ∧
      (input.react rules seat r).effects.filterMap offered? = [] := by
  obtain ⟨hv, hp, he⟩ :=
    bindingSteps_quiet hl hi (@react_bindingSteps rules seat input r) h.late h.spent
  refine ⟨⟨hv, hp, ?_⟩, he⟩
  have hz : r.view ≠ .zero := by
    intro hz
    have hlate := h.late
    rw [hz, View.toNat_zero] at hlate
    omega
  obtain he | ⟨-, H', hm⟩ := @react_cases rules seat r input hz
  · rw [he]
    exact h.committed
  · refine @moves_invariant rules seat r input _ _ (fun r => r.committed = hs) ?_ hm h.committed
    intro r H r' es H' ha hc
    obtain ⟨-, hc', -⟩ | ⟨origin, b, -, -, -, hb, -⟩ := act_commits ha
    · exact hc'.trans hc
    · exact absurd hb (hi _ _)

end Turns

structure Still (C : Cluster) (s : Scenario) (hs : List Hash) (B : Board) : Prop where
  quiet : ∀ t ∈ C.seats, Quiet s hs t (B.replica t.node)
  silent : offers B.pending = []

theorem still_tick (hf : Single C s) (hpos : 0 < s.size) (h : Still C s hs B) :
    Still C s hs (B.tick rules s C.seats) ∧
      offers (B.tick rules s C.seats).sent = offers B.sent := by
  have hplain : ∀ task ∈ B.pending.flatMap (Board.tasks s C.seats) ++
      C.seats.map (fun t => (t, Input.tick)),
        task.1 ∈ C.seats ∧ ∀ origin p, task.2 ≠ .message origin (.propose p) := by
    intro task ht
    obtain ht | ht := List.mem_append.mp ht
    · obtain ⟨l, hl, ht⟩ := List.mem_flatMap.mp ht
      obtain ⟨t, hmem, rfl⟩ := List.mem_map.mp ht
      refine ⟨mem_reached hmem, fun origin p he => ?_⟩
      have hn := List.filterMap_eq_nil_iff.mp h.silent l hl
      injection he with ho hm
      unfold offer? at hn
      rw [hm] at hn
      cases hn
    · obtain ⟨t, hmem, rfl⟩ := List.mem_map.mp ht
      exact ⟨hmem, by simp⟩
  have hstep := fun task ht => (⟨(hplain task ht).1, fun r hr => by
    obtain ⟨hr', he⟩ := @react_quiet s rules task.1 task.2 r hs
      (hf.leaders _ (hplain task ht).1) (hplain task ht).2 hpos hr
    rw [← offers_posts] at he
    exact ⟨hr', List.filterMap_eq_nil_iff.mp he⟩⟩ : task.1 ∈ C.seats ∧ ∀ r, Quiet s hs task.1 r →
      Quiet s hs task.1 (task.2.react rules task.1 r).state ∧
        ∀ l ∈ posts task.1.replica (task.2.react rules task.1 r).effects, offer? l = none)
  obtain ⟨hall, T, hsent, hpending, hT⟩ := @turns_kept C rules { B with pending := [] } _ _ _ hstep
    h.quiet
  have hT : offers T = [] := List.filterMap_eq_nil_iff.mpr hT
  refine ⟨⟨hall, ?_⟩, ?_⟩
  · rw [show (B.tick rules s C.seats).pending = _ from hpending]
    exact hT
  · rw [show (B.tick rules s C.seats).sent = _ from hsent, offers_append, hT, List.append_nil]

/-- Once everyone has voted for the block of the last view, nothing is left to propose. -/
theorem still_of_allVoted (hf : Single C s) (hpos : 0 < s.size) (h : AllVoted C s b bs B)
    (hp : Spent C B) (hb : b.view.toNat = s.size) :
    Still C s (((b :: bs).drop 3).dropLast.reverse.map (·.hash)) B := by
  have hview : ∀ t ∈ C.seats, (B.replica t.node).view = b.view := fun t ht => (h.rested t ht).view
  have hmem : b ∈ offers B.sent := by
    have hm : b ∈ .genesis :: offers B.sent := by
      rw [h.recorded]
      exact List.mem_reverse.mpr List.mem_cons_self
    refine (List.mem_cons.mp hm).resolve_left fun he => ?_
    rw [he] at hb
    exact Nat.lt_irrefl _ (hb ▸ hpos)
  obtain ⟨u, hu, hled, hle⟩ := hp b hmem
  refine ⟨fun t ht => ⟨?_, fun hl => ?_, (h.rested t ht).committed⟩, ?_⟩
  · rw [hview t ht, hb]
  · rw [hview t ht] at hl ⊢
    have he : t.replica = u.replica := by
      rw [hf.leader_eq ht] at hl
      rw [hf.leader_eq hu] at hled
      exact Option.some.inj (hl.symm.trans hled)
    obtain rfl := hf.injective ht hu he
    exact hle
  · obtain ⟨f, hpending, hanswer⟩ := h.pending
    rw [hpending]
    exact offers_flatMap fun t ht => (hanswer t ht).offers

end Equivocation.Proofs.Stillness
