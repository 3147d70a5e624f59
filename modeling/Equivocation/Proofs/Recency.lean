import Equivocation.Lru
import Mathlib.Data.List.MinMax
import Mathlib.Data.List.Nodup

namespace Equivocation.Proofs.Recency

variable {κ : Type} [DecidableEq κ]

inductive EntryCall (κ : Type) where
  | promote (key : κ)
  | insert (key : κ)

structure Usage (κ : Type) where
  entries : Lru κ := .empty
  touched : List κ := []

/-- An insertion touches its key, and a promotion touches it if it succeeds. -/
def Usage.take (capacity : Nat) (u : Usage κ) : EntryCall κ → Usage κ
  | .promote key =>
    match u.entries.promote? key with
    | none => u
    | some entries => ⟨entries, key :: u.touched⟩
  | .insert key => ⟨u.entries.insert key capacity, key :: u.touched⟩

def Usage.run (capacity : Nat) (calls : List (EntryCall κ)) : Usage κ :=
  calls.foldl (Usage.take capacity) {}

def keys (e : Lru κ) : List κ := (e.order.map (·.2)).reverse

def dropOldest (e : Lru κ) : Lru κ :=
  match e.order.argmin (·.1) with
  | none => e
  | some (old, key) => ⟨Table.erase e.stamps key, Table.erase e.order old, e.nextStamp⟩

/-- As long as there are `capacity` keys or more, the oldest one is dropped. After some turns this
comes to an end. -/
inductive Evicts (capacity : Nat) : Lru κ → Nat → Lru κ → Prop
  | done {e : Lru κ} (room : e.size < capacity) : Evicts capacity e 0 e
  | turn {e e' : Lru κ} {turns : Nat} (full : capacity ≤ e.size)
      (rest : Evicts capacity (dropOldest e) turns e') : Evicts capacity e (turns + 1) e'

/-- What it takes to insert a key: it is promoted, or there is room for it, or the key that was
touched least recently, and no other, makes room for it. -/
inductive InsertsKey (capacity : Nat) (e : Lru κ) (key : κ) : Lru κ → Prop
  | known {e' : Lru κ} (promoted : e.promote? key = some e') : InsertsKey capacity e key e'
  | room (new : e.promote? key = none) (loop : Evicts capacity e 0 e) :
    InsertsKey capacity e key (e.stamp key)
  | full {left : Lru κ} {oldest : κ} (new : e.promote? key = none) (full : e.size = capacity)
      (loop : Evicts capacity e 1 left) (last : keys e = keys left ++ [oldest])
      (others : ∀ k, Table.get? left.stamps k =
        if k = oldest then none else Table.get? e.stamps k) :
    InsertsKey capacity e key (left.stamp key)

section Dates

/-- The last touch of each key with the number of touches before it, the last one first. -/
def dated : List κ → Table Nat κ
  | [] => []
  | k :: older => (older.length, k) :: (dated older).filter (·.2 ≠ k)

variable {k : κ} {n capacity : Nat} {ts newer older : List κ}

theorem eraseDups_filter (p : κ → Bool) (ts : List κ) :
    (ts.filter p).eraseDups = ts.eraseDups.filter p := by
  induction hn : ts.length using Nat.strong_induction_on generalizing ts with
  | h n ih =>
    cases ts with
    | nil => rfl
    | cons t ts =>
      have hl : (ts.filter fun s => !s == t).length < n := by
        have hle := List.length_filter_le (fun s => !s == t) ts
        rw [List.length_cons] at hn
        omega
      have hrest := ih _ hl _ rfl
      rw [List.filter_filter] at hrest
      by_cases ht : p t = true
      · rw [List.filter_cons_of_pos ht, List.eraseDups_cons, List.eraseDups_cons,
          List.filter_cons_of_pos ht, List.filter_filter, ← hrest]
        simp only [Bool.and_comm]
      · -- What passes is not `t`, so that it makes no difference to drop `t` first.
        have hsame : (ts.filter fun s => p s && !s == t) = ts.filter p := by
          apply List.filter_congr
          intro s _
          by_cases hs : s = t <;> simp [hs, ht]
        rw [List.filter_cons_of_neg ht, List.eraseDups_cons, List.filter_cons_of_neg ht, ← hrest,
          hsame]

theorem eraseDups_cons (t : κ) (ts : List κ) :
    (t :: ts).eraseDups = t :: ts.eraseDups.filter (· ≠ t) := by
  rw [List.eraseDups_cons, eraseDups_filter]
  congr 1
  apply List.filter_congr
  intro s _
  simp [Bool.beq_eq_decide_eq]

theorem map_filter_ne (t : κ) (xs : Table Nat κ) :
    (xs.filter (·.2 ≠ t)).map (·.2) = (xs.map (·.2)).filter (· ≠ t) :=
  (List.filter_map (f := fun x : Nat × κ => x.2) (p := fun s => s ≠ t)).symm

theorem filter_of_not_mem {xs : Table Nat κ} (hk : k ∉ xs.map (·.2)) :
    xs.filter (·.2 ≠ k) = xs :=
  List.filter_eq_self.mpr fun x hx =>
    decide_eq_true fun he => hk (List.mem_map.mpr ⟨x, hx, he⟩)

theorem map_dated (ts : List κ) : (dated ts).map (·.2) = ts.eraseDups := by
  induction ts with
  | nil => rfl
  | cons t ts ih => rw [dated, List.map_cons, map_filter_ne, ih, eraseDups_cons]

theorem lt_of_mem_dated {x : Nat × κ} (h : x ∈ dated ts) : x.1 < ts.length := by
  induction ts with
  | nil => cases h
  | cons t ts ih =>
    obtain rfl | h := List.mem_cons.mp h
    · exact Nat.lt_succ_self _
    · exact Nat.lt_succ_of_lt (ih (List.mem_filter.mp h).1)

theorem descending_dated (ts : List κ) : (dated ts).Pairwise fun x y => y.1 < x.1 := by
  induction ts with
  | nil => exact List.Pairwise.nil
  | cons t ts ih =>
    apply List.Pairwise.cons
    · intro x hx
      exact lt_of_mem_dated (List.mem_filter.mp hx).1
    · exact ih.filter _

theorem nodup_dated (ts : List κ) : ((dated ts).map (·.2)).Nodup := by
  induction ts with
  | nil => exact List.nodup_nil
  | cons t ts ih =>
    apply List.nodup_cons.mpr
    constructor
    · simp
    · exact ih.sublist (List.filter_sublist.map _)

theorem dated_append (older : List κ) (hk : k ∉ newer) : ∃ before after,
    dated (newer ++ k :: older) = before ++ (older.length, k) :: after ∧
      before.map (·.2) = newer.eraseDups := by
  induction newer with
  | nil => exact ⟨[], _, rfl, rfl⟩
  | cons t newer ih =>
    have hne : k ≠ t := fun h => hk (h ▸ List.mem_cons_self)
    obtain ⟨before, after, hd, hb⟩ := ih fun h => hk (List.mem_cons_of_mem t h)
    refine ⟨((newer ++ k :: older).length, t) :: before.filter (·.2 ≠ t),
      after.filter (·.2 ≠ t), ?_, ?_⟩
    · simp [dated, hd, hne]
    · rw [List.map_cons, map_filter_ne, hb, eraseDups_cons]

theorem mem_take_append {α : Type} {before after : List α} {x : α}
    (h : (before ++ x :: after).Nodup) :
    x ∈ (before ++ x :: after).take capacity ↔ before.length < capacity := by
  have hx : x ∉ before := fun hm => List.disjoint_of_nodup_append h hm List.mem_cons_self
  rw [List.take_append, List.mem_append]
  by_cases hl : before.length < capacity
  · obtain ⟨m, hm⟩ : ∃ m, capacity - before.length = m + 1 :=
      ⟨capacity - before.length - 1, by omega⟩
    simp [hm, hl]
  · have hz : capacity - before.length = 0 := by omega
    have hnot : x ∉ before.take capacity := fun hm => hx (List.mem_of_mem_take hm)
    simp [hz, hnot, hl]

/-- A date is among the last ones exactly if few other keys have been touched since. -/
theorem mem_take_dated_iff : (n, k) ∈ (dated ts).take capacity ↔
    ∃ newer older, ts = newer ++ k :: older ∧ k ∉ newer ∧ older.length = n ∧
      newer.eraseDups.length < capacity := by
  have hnodup : (dated ts).Nodup := (nodup_dated ts).of_map _
  constructor
  · intro hmem
    have hdated : (n, k) ∈ dated ts := List.mem_of_mem_take hmem
    have hk : k ∈ ts := by
      rw [← List.mem_eraseDups, ← map_dated]
      exact List.mem_map.mpr ⟨_, hdated, rfl⟩
    obtain ⟨newer, older, rfl, hnew⟩ := List.eq_append_cons_of_mem hk
    obtain ⟨before, after, hd, hb⟩ := dated_append older hnew
    have hlast : (older.length, k) ∈ dated (newer ++ k :: older) := hd ▸ by simp
    obtain rfl : n = older.length :=
      congrArg Prod.fst (List.inj_on_of_nodup_map (nodup_dated _) hdated hlast rfl)
    rw [hd] at hmem hnodup
    refine ⟨newer, older, rfl, hnew, rfl, ?_⟩
    rw [← hb, List.length_map]
    exact (mem_take_append hnodup).mp hmem
  · rintro ⟨newer, older, rfl, hnew, rfl, hlt⟩
    obtain ⟨before, after, hd, hb⟩ := dated_append older hnew
    rw [hd] at hnodup ⊢
    rw [← hb, List.length_map] at hlt
    exact (mem_take_append hnodup).mpr hlt

/-- To drop a key from the first `capacity + 1` pairs leaves the first `capacity` of the others. -/
theorem take_filter_of_mem {xs : Table Nat κ} (hd : (xs.map (·.2)).Nodup)
    (hk : k ∈ (xs.take (capacity + 1)).map (·.2)) :
    (xs.filter (·.2 ≠ k)).take capacity = (xs.take (capacity + 1)).filter (·.2 ≠ k) := by
  induction xs generalizing capacity with
  | nil => simp
  | cons x xs ih =>
    obtain ⟨hx, hxs⟩ := List.nodup_cons.mp hd
    rw [List.take_succ_cons] at hk ⊢
    by_cases hxk : x.2 = k
    · subst hxk
      have hnot : x.2 ∉ (xs.take capacity).map (·.2) := fun hm =>
        hx (((List.take_sublist _ _).map _).subset hm)
      rw [List.filter_cons_of_neg (by simp), List.filter_cons_of_neg (by simp),
        filter_of_not_mem hx, filter_of_not_mem hnot]
    · have hmem : k ∈ (xs.take capacity).map (·.2) :=
        (List.mem_cons.mp hk).resolve_left fun he => hxk he.symm
      obtain ⟨c, rfl⟩ : ∃ c, capacity = c + 1 :=
        Nat.exists_eq_succ_of_ne_zero fun h => by simp [h] at hmem
      rw [List.filter_cons_of_pos (by simp [hxk]), List.filter_cons_of_pos (by simp [hxk]),
        List.take_succ_cons, ih hxs hmem]

theorem take_filter_of_not_mem {xs : Table Nat κ} (hk : k ∉ (xs.take capacity).map (·.2)) :
    (xs.filter (·.2 ≠ k)).take capacity = xs.take capacity := by
  induction xs generalizing capacity with
  | nil => rfl
  | cons x xs ih =>
    cases capacity with
    | zero => rfl
    | succ capacity =>
      rw [List.take_succ_cons, List.map_cons, List.mem_cons, not_or] at hk
      have hx : x.2 ≠ k := fun he => hk.1 he.symm
      rw [List.filter_cons_of_pos (by simp [hx]), List.take_succ_cons, List.take_succ_cons,
        ih hk.2]

end Dates

section Mirrors

def mirror (order : Table Nat κ) (next : Nat) : Lru κ := ⟨order.map Prod.swap, order, next⟩

/-- Stamps ascend up to the next one, and no key has two of them. -/
structure StampsAscend (order : Table Nat κ) (next : Nat) : Prop where
  ascending : order.Pairwise fun x y => x.1 < y.1
  distinct : (order.map (·.2)).Nodup
  below : ∀ x ∈ order, x.1 < next

variable {order order' : Table Nat κ} {x : Nat × κ} {k : κ} {n next capacity : Nat}

omit [DecidableEq κ] in
theorem StampsAscend.sublist (h : StampsAscend order next) (hs : order'.Sublist order) :
    StampsAscend order' next where
  ascending := h.ascending.sublist hs
  distinct := h.distinct.sublist (hs.map _)
  below x hx := h.below x (hs.subset hx)

omit [DecidableEq κ] in
theorem StampsAscend.nodup_stamps (h : StampsAscend order next) : (order.map (·.1)).Nodup :=
  List.pairwise_map.mpr (h.ascending.imp Nat.ne_of_lt)

omit [DecidableEq κ] in
theorem map_stamps (order : Table Nat κ) (next : Nat) :
    (mirror order next).stamps.map (·.1) = order.map (·.2) ∧
      (mirror order next).stamps.map (·.2) = order.map (·.1) :=
  ⟨List.map_map, List.map_map⟩

theorem get?_stamps (h : StampsAscend order next) :
    Table.get? (mirror order next).stamps k = some n ↔ (n, k) ∈ order := by
  have hkeys : ((mirror order next).stamps.map (·.1)).Nodup :=
    (map_stamps order next).1 ▸ h.distinct
  rw [Table.get?_eq_some_iff hkeys]
  simp [mirror]

omit [DecidableEq κ] in
theorem get?_order (h : StampsAscend order next) :
    Table.get? (mirror order next).order n = some k ↔ (n, k) ∈ order :=
  Table.get?_eq_some_iff h.nodup_stamps

theorem erase_stamps (order : Table Nat κ) (k : κ) :
    Table.erase (order.map Prod.swap) k = (order.filter (·.2 ≠ k)).map Prod.swap :=
  List.filter_map

/-- In an order, an entry goes with its stamp as it goes with its key. -/
theorem erase_order (h : StampsAscend order next) (hx : x ∈ order) :
    Table.erase order x.1 = order.filter (·.2 ≠ x.2) := by
  apply List.filter_congr
  intro y hy
  have hsame : y.1 = x.1 ↔ y.2 = x.2 := by
    constructor
    · intro he
      rw [List.inj_on_of_nodup_map h.nodup_stamps hy hx he]
    · intro he
      rw [List.inj_on_of_nodup_map h.distinct hy hx he]
  simp [hsame]

omit [DecidableEq κ] in
theorem erase_next (h : StampsAscend order next) : Table.erase order next = order :=
  List.filter_eq_self.mpr fun x hx => decide_eq_true (Nat.ne_of_lt (h.below x hx))

/-- A stamp takes a key to the end of the order. -/
theorem stamp_mirror (h : StampsAscend order next) (k : κ) :
    Lru.stamp { mirror order next with order := order.filter (·.2 ≠ k) } k =
      mirror (order.filter (·.2 ≠ k) ++ [(next, k)]) (next + 1) := by
  have hrest : Table.erase (order.filter (·.2 ≠ k)) next = order.filter (·.2 ≠ k) :=
    erase_next (h.sublist List.filter_sublist)
  unfold Lru.stamp mirror
  simp only [Table.set, erase_stamps, hrest, List.map_append, List.map_cons, List.map_nil,
    Prod.swap_prod_mk]

theorem stamp_of_not_mem (h : StampsAscend order next) (hk : k ∉ order.map (·.2)) :
    (mirror order next).stamp k = mirror (order ++ [(next, k)]) (next + 1) := by
  have hstamp := stamp_mirror h k
  rwa [filter_of_not_mem hk] at hstamp

theorem promote_of_mem (h : StampsAscend order next) (hk : k ∈ order.map (·.2)) :
    (mirror order next).promote? k =
      some (mirror (order.filter (·.2 ≠ k) ++ [(next, k)]) (next + 1)) := by
  obtain ⟨⟨n, k⟩, hx, rfl⟩ := List.mem_map.mp hk
  have herase := erase_order h hx
  unfold Lru.promote?
  rw [(get?_stamps h).mpr hx, ← stamp_mirror h k, ← herase]
  rfl

theorem promote_of_not_mem (h : StampsAscend order next) (hk : k ∉ order.map (·.2)) :
    (mirror order next).promote? k = none := by
  unfold Lru.promote?
  cases hget : Table.get? (mirror order next).stamps k with
  | none => rfl
  | some n => exact absurd (List.mem_map.mpr ⟨_, (get?_stamps h).mp hget, rfl⟩) hk

theorem promote_isSome_iff (h : StampsAscend order next) (k : κ) :
    ((mirror order next).promote? k).isSome = true ↔ k ∈ (mirror order next).stamps.map (·.1) := by
  rw [(map_stamps order next).1]
  by_cases hk : k ∈ order.map (·.2)
  · simp only [promote_of_mem h hk, hk, Option.isSome_some]
  · simp only [promote_of_not_mem h hk, hk, Option.isSome_none, Bool.false_eq_true]

theorem erase_oldest (h : StampsAscend (x :: order) next) :
    Table.erase ((x :: order).map Prod.swap) x.2 = order.map Prod.swap ∧
      Table.erase (x :: order) x.1 = order := by
  have hall : (x :: order).filter (·.2 ≠ x.2) = order := by
    rw [List.filter_cons_of_neg (by simp), filter_of_not_mem (List.nodup_cons.mp h.distinct).1]
  constructor
  · rw [erase_stamps, hall]
  · rw [erase_order h List.mem_cons_self, hall]

theorem dropOldest_mirror (h : StampsAscend (x :: order) next) :
    dropOldest (mirror (x :: order) next) = mirror order next := by
  have hfirst : (x :: order).argmin (·.1) = some x := by
    rw [List.argmin_cons]
    cases hmin : order.argmin (·.1) with
    | none => rfl
    | some y =>
      have hlt : x.1 < y.1 := List.rel_of_pairwise_cons h.ascending (List.argmin_mem hmin)
      exact if_neg (Nat.not_lt_of_lt hlt)
  obtain ⟨hstamps, horder⟩ := erase_oldest h
  unfold dropOldest mirror
  rw [hfirst]
  exact congrArg₂ (Lru.mk · · next) hstamps horder

theorem evict_mirror (h : StampsAscend order next) (capacity : Nat) :
    Lru.evict capacity (order.map Prod.swap) order =
      ((order.drop (order.length + 1 - capacity)).map Prod.swap,
        order.drop (order.length + 1 - capacity)) := by
  induction order with
  | nil => simp [Lru.evict]
  | cons x order ih =>
    have ih := ih (h.sublist (List.sublist_cons_self x order))
    rw [Lru.evict, List.length_map, List.length_cons]
    by_cases hroom : order.length + 1 < capacity
    · rw [if_pos hroom, Nat.sub_eq_zero_of_le hroom]
      rfl
    · have hturn : order.length + 1 + 1 - capacity = (order.length + 1 - capacity) + 1 := by omega
      rw [if_neg hroom, (erase_oldest h).1, ih, hturn, List.drop_succ_cons]

theorem evicts_mirror (h : StampsAscend order next) (hc : 0 < capacity) :
    Evicts capacity (mirror order next) (order.length + 1 - capacity)
      (mirror (order.drop (order.length + 1 - capacity)) next) := by
  induction order with
  | nil =>
    rw [List.length_nil, Nat.sub_eq_zero_of_le (by omega)]
    exact .done hc
  | cons x order ih =>
    have ih := ih (h.sublist (List.sublist_cons_self x order))
    have hsize : (mirror (x :: order) next).size = order.length + 1 := List.length_map _
    rw [List.length_cons]
    by_cases hroom : order.length + 1 < capacity
    · rw [Nat.sub_eq_zero_of_le hroom]
      exact .done (hsize ▸ hroom)
    · have hturn : order.length + 1 + 1 - capacity = (order.length + 1 - capacity) + 1 := by omega
      rw [hturn, List.drop_succ_cons]
      rw [← dropOldest_mirror h] at ih
      exact .turn (by omega) ih

theorem insert_of_promote {e e' : Lru κ} (h : e.promote? k = some e') (capacity : Nat) :
    e.insert k capacity = e' := by
  unfold Lru.insert
  rw [h]

theorem insert_of_not_mem (h : StampsAscend order next) (hk : k ∉ order.map (·.2))
    (capacity : Nat) :
    (mirror order next).insert k capacity =
      (mirror (order.drop (order.length + 1 - capacity)) next).stamp k := by
  unfold Lru.insert
  rw [promote_of_not_mem h hk]
  change Lru.stamp ⟨(Lru.evict capacity (order.map Prod.swap) order).1,
    (Lru.evict capacity (order.map Prod.swap) order).2, next⟩ k = _
  rw [evict_mirror h]
  rfl

/-- At most one key has to make room where there are not too many. -/
theorem insertsKey_mirror (h : StampsAscend order next) (hc : 0 < capacity)
    (hl : order.length ≤ capacity) (k : κ) :
    InsertsKey capacity (mirror order next) k ((mirror order next).insert k capacity) := by
  have hsize : (mirror order next).size = order.length := List.length_map _
  by_cases hk : k ∈ order.map (·.2)
  · have hp := promote_of_mem h hk
    rw [insert_of_promote hp]
    exact .known hp
  · have hnew := promote_of_not_mem h hk
    have hloop := evicts_mirror h hc
    rw [insert_of_not_mem h hk]
    by_cases hroom : order.length < capacity
    · rw [Nat.sub_eq_zero_of_le hroom, List.drop_zero] at hloop ⊢
      exact .room hnew hloop
    · obtain ⟨x, rest, rfl⟩ := List.exists_cons_of_length_pos (by omega : 0 < order.length)
      have hone : (x :: rest).length + 1 - capacity = 1 := by omega
      rw [hone, List.drop_succ_cons, List.drop_zero] at hloop ⊢
      have hlast : keys (mirror (x :: rest) next) = keys (mirror rest next) ++ [x.2] := by
        simp [keys, mirror]
      have hothers (j : κ) : Table.get? (mirror rest next).stamps j =
          if j = x.2 then none else Table.get? (mirror (x :: rest) next).stamps j := by
        rw [mirror, ← (erase_oldest h).1, Table.get?_erase]
        rfl
      exact .full hnew (by omega) hloop hlast hothers

end Mirrors

section Histories

def kept (capacity : Nat) (ts : List κ) : Lru κ :=
  mirror ((dated ts).take capacity).reverse ts.length

variable {capacity : Nat} {ts : List κ} {k : κ} {u : Usage κ}

theorem stampsAscend_kept (capacity : Nat) (ts : List κ) :
    StampsAscend ((dated ts).take capacity).reverse ts.length where
  ascending := by
    rw [List.pairwise_reverse]
    exact (descending_dated ts).sublist (List.take_sublist _ _)
  distinct := by
    rw [List.map_reverse, List.nodup_reverse]
    exact (nodup_dated ts).sublist ((List.take_sublist _ _).map _)
  below x hx := lt_of_mem_dated (List.mem_of_mem_take (List.mem_reverse.mp hx))

theorem map_kept (capacity : Nat) (ts : List κ) :
    ((dated ts).take capacity).reverse.map (·.2) = (ts.eraseDups.take capacity).reverse := by
  rw [List.map_reverse, List.map_take, map_dated]

theorem mem_kept_iff : k ∈ ((dated ts).take capacity).reverse.map (·.2) ↔
    k ∈ ts.eraseDups.take capacity := by
  rw [map_kept, List.mem_reverse]

theorem kept_cons (capacity : Nat) (k : κ) (ts : List κ) : kept (capacity + 1) (k :: ts) =
    mirror ((((dated ts).filter (·.2 ≠ k)).take capacity).reverse ++ [(ts.length, k)])
      (ts.length + 1) := by
  rw [kept, dated, List.take_succ_cons, List.reverse_cons, List.length_cons]

theorem promote_kept (hk : k ∈ ts.eraseDups.take (capacity + 1)) :
    (kept (capacity + 1) ts).promote? k = some (kept (capacity + 1) (k :: ts)) := by
  have hmem : k ∈ ((dated ts).take (capacity + 1)).map (·.2) := by
    rwa [List.map_take, map_dated]
  rw [kept, promote_of_mem (stampsAscend_kept (capacity + 1) ts) (mem_kept_iff.mpr hk), kept_cons,
    take_filter_of_mem (nodup_dated ts) hmem, List.filter_reverse]

theorem promote_kept_none (hk : k ∉ ts.eraseDups.take capacity) :
    (kept capacity ts).promote? k = none :=
  promote_of_not_mem (stampsAscend_kept capacity ts) (hk ∘ mem_kept_iff.mp)

omit [DecidableEq κ] in
/-- What is left of the order once there is room for another key. -/
theorem drop_reverse_take (capacity : Nat) (xs : Table Nat κ) :
    (xs.take (capacity + 1)).reverse.drop ((xs.take (capacity + 1)).reverse.length + 1 -
      (capacity + 1)) = (xs.take capacity).reverse := by
  rw [List.drop_reverse, List.length_reverse, List.take_take, List.length_take]
  by_cases hfull : capacity + 1 ≤ xs.length
  · congr 2
    omega
  · rw [List.take_of_length_le (by omega), List.take_of_length_le (by omega)]

theorem insert_kept (capacity : Nat) (k : κ) (ts : List κ) :
    (kept (capacity + 1) ts).insert k (capacity + 1) = kept (capacity + 1) (k :: ts) := by
  by_cases hk : k ∈ ts.eraseDups.take (capacity + 1)
  · exact insert_of_promote (promote_kept hk) _
  · have hleft : k ∉ ts.eraseDups.take capacity := fun hm =>
      hk (List.take_subset_take_left _ (Nat.le_succ _) hm)
    have hnot : k ∉ ((dated ts).take capacity).map (·.2) := by
      rwa [List.map_take, map_dated]
    -- The key is new: only the oldest pair has to go for it, and only if there are too many.
    rw [kept, insert_of_not_mem (stampsAscend_kept (capacity + 1) ts) (hk ∘ mem_kept_iff.mp),
      drop_reverse_take, stamp_of_not_mem (stampsAscend_kept capacity ts) (hleft ∘ mem_kept_iff.mp),
      kept_cons, take_filter_of_not_mem hnot]

theorem take_kept (hc : 0 < capacity) (h : u.entries = kept capacity u.touched)
    (call : EntryCall κ) :
    (u.take capacity call).entries = kept capacity (u.take capacity call).touched := by
  obtain ⟨c, rfl⟩ := Nat.exists_eq_succ_of_ne_zero (Nat.ne_of_gt hc)
  cases call with
  | promote k =>
    by_cases hk : k ∈ u.touched.eraseDups.take (c + 1)
    · have hp := promote_kept hk
      rw [← h] at hp
      simp [Usage.take, hp]
    · have hp : u.entries.promote? k = none := h ▸ promote_kept_none hk
      simp only [Usage.take, hp]
      exact h
  | insert k =>
    simp only [Usage.take, h]
    exact insert_kept c k u.touched

theorem run_kept (hc : 0 < capacity) (calls : List (EntryCall κ)) :
    (Usage.run capacity calls).entries = kept capacity (Usage.run capacity calls).touched := by
  induction calls using List.reverseRecOn with
  | nil => simp [Usage.run, kept, dated, mirror, Lru.empty]
  | append_singleton calls call ih =>
    rw [Usage.run, List.foldl_concat]
    exact take_kept hc ih call

end Histories

/-- The entries keep the keys that were touched last, as many as there is room for. Stamps and order
are inverse to each other: the stamp of a key is the number of touches before its last one, and a
counter of 64 bits does as long as there are no more touches than it can count. -/
structure LeastRecent (capacity : Nat) (u : Usage κ) : Prop where
  recent : keys u.entries = u.touched.eraseDups.take capacity
  stored : (u.entries.stamps.map (·.1)).Perm (keys u.entries)
  stamped : ∀ k n, Table.get? u.entries.stamps k = some n ↔
    ∃ newer older, u.touched = newer ++ k :: older ∧ k ∉ newer ∧ older.length = n ∧
      newer.eraseDups.length < capacity
  inverse : ∀ k n,
    Table.get? u.entries.stamps k = some n ↔ Table.get? u.entries.order n = some k
  distinct : (u.entries.stamps.map (·.2)).Nodup
  ascending : (u.entries.order.map (·.1)).Pairwise (· < ·)
  below : ∀ n ∈ u.entries.order.map (·.1), n < u.entries.nextStamp
  counted : u.entries.nextStamp = u.touched.length
  inWidth : u.touched.length < 0x10000000000000000 → u.entries.nextStamp < 0x10000000000000000
  promotes : ∀ k, (u.entries.promote? k).isSome = true ↔ k ∈ u.entries.stamps.map (·.1)
  inserts : ∀ k, InsertsKey capacity u.entries k (u.entries.insert k capacity)

theorem leastRecent_kept {capacity : Nat} (hc : 0 < capacity) (ts : List κ) :
    LeastRecent capacity ⟨kept capacity ts, ts⟩ := by
  have h := stampsAscend_kept capacity ts
  obtain ⟨hkeys, hvalues⟩ := map_stamps ((dated ts).take capacity).reverse ts.length
  exact {
    recent := by
      rw [keys, kept, mirror, map_kept, List.reverse_reverse]
    stored := hkeys ▸ (List.reverse_perm _).symm
    stamped := fun k n => by
      rw [← mem_take_dated_iff, ← List.mem_reverse]
      exact get?_stamps h
    inverse := fun k n => (get?_stamps h).trans (get?_order h).symm
    distinct := hvalues ▸ h.nodup_stamps
    ascending := List.pairwise_map.mpr h.ascending
    below := fun n hn => by
      obtain ⟨x, hx, rfl⟩ := List.mem_map.mp hn
      exact h.below x hx
    counted := rfl
    inWidth := id
    promotes := promote_isSome_iff h
    inserts := insertsKey_mirror h hc (by simp) }

theorem entries_least_recent {capacity : Nat} (hc : 0 < capacity) (calls : List (EntryCall κ)) :
    LeastRecent capacity (Usage.run capacity calls) := by
  have hrun := leastRecent_kept hc (Usage.run capacity calls).touched
  rwa [← run_kept hc calls] at hrun

/-- The second key is the oldest one when the third comes, because the first has been used again. -/
def reused : List (EntryCall Nat) := [.insert 1, .insert 2, .promote 1, .insert 3, .promote 2]

theorem entries_least_recent_reused : 0 < 2 ∧ (Usage.run 2 reused).touched = [3, 1, 2, 1] ∧
    keys (Usage.run 2 reused).entries = [3, 1] ∧ LeastRecent 2 (Usage.run 2 reused) :=
  ⟨by decide, rfl, rfl, entries_least_recent (by decide) reused⟩

end Equivocation.Proofs.Recency
