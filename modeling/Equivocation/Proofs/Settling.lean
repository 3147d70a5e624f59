import Equivocation.Proofs.Labels
import Equivocation.Proofs.Lineage
import Mathlib.Data.List.Chain

namespace Equivocation.Proofs.Settling

open Relation Replica Ancestry Turns Lineage

/-- The walk of a commit from a hash down to a view. It gathers the blocks above the view, the
newest first, and gives up at a hash that is unknown. -/
inductive Gather (c : Chain) (floor : View) : Hash → Option (List Block) → Prop
  | unknown {h : Hash} : c.get? h = none → Gather c floor h none
  | done {h : Hash} {b : Block} : c.get? h = some b → b.view ≤ floor → Gather c floor h (some [])
  | above {h : Hash} {b : Block} {bs? : Option (List Block)} :
    c.get? h = some b → floor < b.view → Gather c floor b.parent bs? →
      Gather c floor h (bs?.map (b :: ·))

/-- The block with hash `h`, or one of its ancestors, is above the view. -/
def Pending (c : Chain) (floor : View) (h : Hash) (x : Block) : Prop :=
  ∃ b, c.get? h = some b ∧ ReflTransGen (Parent c) b x ∧ floor < x.view

/-- A block is missing before the first one that is not above the view. -/
def Broken (c : Chain) (floor : View) (h : Hash) : Prop :=
  c.get? h = none ∨ ∃ x, Pending c floor h x ∧ c.get? x.parent = none

/-- Besides the last executed block and the list of committed blocks, which grows by `bs`, the
commit leaves the instance as it was, and it announces the blocks in their order. -/
structure Commits (seat : Seat) (floor : View) (h : Hash) (t : Turn Replica) (bs : List Block) :
    Prop where
  turn : commit seat h t =
    { t with
      state :=
        { t.state with
          executed := if bs = [] then t.state.executed else h
          committed := t.state.committed ++ bs.map (·.hash) }
      effects := t.effects ++ bs.map fun x => .publish (.commitBlock x.hash x.view) }
  complete : ∀ x, x ∈ bs ↔ Pending t.state.chain floor h x
  linked : bs.IsChain fun p x => Parent t.state.chain x p
  ascending : bs.Pairwise fun x y => x.view < y.view
  last : ∀ x ∈ bs.getLast?, x.hash = h
  fresh : ∀ x ∈ bs, x.hash ∉ t.state.committed

/-- The walk of a commit comes to an end. If no block is missing, all pending blocks are committed;
otherwise nothing happens but for a remark. -/
structure AllOrNothing (seat : Seat) (floor : View) (h : Hash) (t : Turn Replica) : Prop where
  ends : ∃! bs?, Gather t.state.chain floor h bs?
  all : ¬ Broken t.state.chain floor h →
    ∃ bs, Gather t.state.chain floor h (some bs.reverse) ∧ Commits seat floor h t bs
  nothing : Broken t.state.chain floor h →
    Gather t.state.chain floor h none ∧ ∃ u, t.state.chain.get? u = none ∧
      commit seat h t =
        { t with effects := t.effects ++ [.remark ((Remark.notCommitted h u).record seat.node)] }
  past : ∀ b, t.state.chain.get? h = some b → b.view ≤ floor → commit seat h t = t

variable {c : Chain} {floor : View} {h : Hash} {b p x tip : Block} {bs : List Block}
  {bs? cs? : Option (List Block)} {seat : Seat} {t : Turn Replica}

section Pending

/-- Views fall from parent to parent, so nothing is pending behind a block that is not. -/
theorem not_pending_of_le (hs : ViewsRise c) (hb : c.get? h = some b) (hv : b.view ≤ floor) :
    ¬ Pending c floor h x := by
  rintro ⟨b', hb', hx, hlt⟩
  cases hb.symm.trans hb'
  have hle : x.view ≤ b.view := by
    obtain rfl | hx := reflTransGen_iff_eq_or_transGen.mp hx
    · exact Nat.le_refl _
    · exact Nat.le_of_lt (hs.view_lt (hs b (mem_of_get? hb)) hx)
  exact absurd (Nat.lt_of_lt_of_le hlt (Nat.le_trans hle hv)) (Nat.lt_irrefl _)

theorem pending_iff (hb : c.get? h = some b) (hv : floor < b.view) :
    Pending c floor h x ↔ x = b ∨ Pending c floor b.parent x := by
  constructor
  · rintro ⟨b', hb', hx, hlt⟩
    cases hb.symm.trans hb'
    obtain rfl | ⟨p, hp, hx⟩ := hx.cases_head
    · exact .inl rfl
    · exact .inr ⟨p, hp, hx, hlt⟩
  · rintro (rfl | ⟨p, hp, hx, hlt⟩)
    · exact ⟨x, hb, .refl, hv⟩
    · exact ⟨b, hb, .head hp hx, hlt⟩

theorem not_broken_of_le (hs : ViewsRise c) (hb : c.get? h = some b) (hv : b.view ≤ floor) :
    ¬ Broken c floor h := by
  rintro (hn | ⟨x, hx, -⟩)
  · exact absurd (hn.symm.trans hb) nofun
  · exact not_pending_of_le hs hb hv hx

theorem broken_iff (hb : c.get? h = some b) (hv : floor < b.view) :
    Broken c floor h ↔ Broken c floor b.parent := by
  constructor
  · rintro (hn | ⟨x, hx, hn⟩)
    · exact absurd (hn.symm.trans hb) nofun
    · obtain rfl | hx := (pending_iff hb hv).mp hx
      · exact .inl hn
      · exact .inr ⟨x, hx, hn⟩
  · rintro (hn | ⟨x, hx, hn⟩)
    · exact .inr ⟨b, ⟨b, hb, .refl, hv⟩, hn⟩
    · exact .inr ⟨x, (pending_iff hb hv).mpr (.inr hx), hn⟩

end Pending

section Gathering

theorem Gather.unique (hg : Gather c floor h bs?) (hg' : Gather c floor h cs?) : bs? = cs? := by
  induction hg generalizing cs? with
  | unknown hn =>
    cases hg' with
    | unknown => rfl
    | done hb => exact absurd (hn.symm.trans hb) nofun
    | above hb => exact absurd (hn.symm.trans hb) nofun
  | done hb hv =>
    cases hg' with
    | unknown hn => exact absurd (hn.symm.trans hb) nofun
    | done => rfl
    | above hb' hv' =>
      cases hb.symm.trans hb'
      exact absurd hv (Nat.not_le_of_lt hv')
  | above hb hv _ ih =>
    cases hg' with
    | unknown hn => exact absurd (hn.symm.trans hb) nofun
    | done hb' hv' =>
      cases hb.symm.trans hb'
      exact absurd hv' (Nat.not_le_of_lt hv)
    | above hb' _ hg' =>
      cases hb.symm.trans hb'
      rw [ih hg']

theorem Gather.eq_none_iff (hs : ViewsRise c) (hg : Gather c floor h bs?) :
    bs? = none ↔ Broken c floor h := by
  induction hg with
  | unknown hn => exact iff_of_true rfl (.inl hn)
  | done hb hv => exact iff_of_false nofun (not_broken_of_le hs hb hv)
  | above hb hv _ ih => rw [broken_iff hb hv, ← ih, Option.map_eq_none_iff]

theorem Gather.mem_iff (hs : ViewsRise c) (hg : Gather c floor h bs?) :
    ∀ bs ∈ bs?, x ∈ bs ↔ Pending c floor h x := by
  induction hg with
  | unknown => exact nofun
  | done hb hv =>
    intro bs hbs
    cases Option.mem_some.mp hbs
    exact iff_of_false List.not_mem_nil (not_pending_of_le hs hb hv)
  | above hb hv _ ih =>
    intro bs hbs
    obtain ⟨cs, hcs, rfl⟩ := Option.map_eq_some_iff.mp hbs
    rw [pending_iff hb hv, List.mem_cons, ih cs hcs]

theorem Gather.head (hg : Gather c floor h bs?) :
    ∀ bs ∈ bs?, ∀ y ∈ bs.head?, c.get? h = some y := by
  cases hg with
  | unknown => exact nofun
  | done =>
    intro bs hbs
    cases Option.mem_some.mp hbs
    exact nofun
  | above hb =>
    intro bs hbs y hy
    obtain ⟨cs, -, rfl⟩ := Option.map_eq_some_iff.mp hbs
    cases Option.mem_some.mp hy
    exact hb

theorem Gather.linked (hg : Gather c floor h bs?) : ∀ bs ∈ bs?, bs.IsChain (Parent c) := by
  induction hg with
  | unknown => exact nofun
  | done =>
    intro bs hbs
    cases Option.mem_some.mp hbs
    exact .nil
  | above _ _ hg ih =>
    intro bs hbs
    obtain ⟨cs, hcs, rfl⟩ := Option.map_eq_some_iff.mp hbs
    exact List.isChain_cons.mpr ⟨hg.head cs hcs, ih cs hcs⟩

def gathered (floor : View) (line : List Block) : Option (List Block) :=
  let above := line.takeWhile fun x => floor < x.view
  if above.length = line.length then none else some above

theorem gathered_cons (floor : View) (b : Block) (line : List Block) :
    gathered floor (b :: line) =
      if floor < b.view then (gathered floor line).map (b :: ·) else some [] := by
  unfold gathered
  by_cases hv : floor < b.view
  · by_cases hl : (line.takeWhile fun x => floor < x.view).length = line.length
    · simp [hv, hl]
    · simp [hv, hl]
  · simp [hv]

theorem Gather.cons {line : List Block} (hb : c.get? h = some b)
    (hg : Gather c floor b.parent (gathered floor line)) :
    Gather c floor h (gathered floor (b :: line)) := by
  rw [gathered_cons]
  by_cases hv : floor < b.view
  · rw [if_pos hv]
    exact .above hb hv hg
  · rw [if_neg hv]
    exact .done hb (Nat.le_of_not_lt hv)

theorem gather_lineage (hs : ViewsRise c) (hb : c.get? h = some b) :
    Gather c floor h (gathered floor (c.lineage b)) := by
  apply lineage_induction
    (motive := fun b line => ∀ h, c.get? h = some b → Gather c floor h (gathered floor line))
    hs (hs b (mem_of_get? hb))
  · intro b hn h hb
    exact .cons hb (.unknown hn)
  · intro b p line hp ih h hb
    exact .cons hb (ih b.parent hp)
  · exact hb

theorem lineage_getLast (hs : ViewsRise c) (hb : Rises c b) :
    ∃ x, (c.lineage b).getLast? = some x ∧ c.get? x.parent = none := by
  apply lineage_induction
    (motive := fun _ line => ∃ x, line.getLast? = some x ∧ c.get? x.parent = none) hs hb
  · exact fun b hn => ⟨b, rfl, hn⟩
  · rintro b p line - ⟨x, hx, hn⟩
    exact ⟨x, by simp [List.getLast?_cons, hx], hn⟩

theorem exists_gather (hs : ViewsRise c) (floor : View) (h : Hash) :
    ∃ bs?, Gather c floor h bs? := by
  cases hb : c.get? h with
  | none => exact ⟨none, .unknown hb⟩
  | some b => exact ⟨_, gather_lineage hs hb⟩

end Gathering

section Effects

theorem executedView_of_tip (he : t.state.chain.get? t.state.executed = some tip) :
    t.state.executedView = tip.view := by
  simp [executedView, he]

theorem commit_of_none (hs : ViewsRise t.state.chain)
    (he : t.state.chain.get? t.state.executed = some tip)
    (hg : Gather t.state.chain tip.view h none) :
    ∃ u, t.state.chain.get? u = none ∧ commit seat h t = say seat (.notCommitted h u) t := by
  cases hb : t.state.chain.get? h with
  | none =>
    refine ⟨h, hb, ?_⟩
    unfold commit
    rw [hb]
  | some b =>
    have hnone : gathered t.state.executedView (t.state.chain.lineage b) = none := by
      rw [executedView_of_tip he]
      exact (gather_lineage hs hb).unique hg
    have hl : ((t.state.chain.lineage b).takeWhile fun x => t.state.executedView < x.view).length =
        (t.state.chain.lineage b).length := by
      unfold gathered at hnone
      by_contra hne
      rw [if_neg hne] at hnone
      cases hnone
    obtain ⟨x, hx, hn⟩ := lineage_getLast hs (hs b (mem_of_get? hb))
    refine ⟨x.parent, hn, ?_⟩
    unfold commit
    rw [hb]
    dsimp only
    rw [if_pos hl, hx]
    rfl

theorem commit_of_some (hs : ViewsRise t.state.chain)
    (he : t.state.chain.get? t.state.executed = some tip)
    (hg : Gather t.state.chain tip.view h (some bs)) :
    commit seat h t =
      { t with state := settle bs t.state, effects := t.effects ++ settlement bs } := by
  cases hb : t.state.chain.get? h with
  | none => cases hg.unique (.unknown hb)
  | some b =>
    have hsome : gathered t.state.executedView (t.state.chain.lineage b) = some bs := by
      rw [executedView_of_tip he]
      exact (gather_lineage hs hb).unique hg
    unfold gathered at hsome
    dsimp only at hsome
    unfold commit
    rw [hb]
    dsimp only
    split at hsome
    · cases hsome
    · rename_i hl
      rw [if_neg hl, Option.some.inj hsome, foldl_commitBlock]

theorem settle_reverse (hh : ∀ x ∈ bs.getLast?, x.hash = h) (r : Replica) :
    settle bs.reverse r =
      { r with
        executed := if bs = [] then r.executed else h
        committed := r.committed ++ bs.map (·.hash) } := by
  unfold settle
  rw [List.head?_reverse, List.reverse_reverse]
  cases hl : bs.getLast? with
  | none =>
    rw [if_pos (List.getLast?_eq_none_iff.mp hl)]
    rfl
  | some x =>
    have hne : bs ≠ [] := fun hb => by simp [hb] at hl
    rw [if_neg hne, ← hh x hl]
    rfl

/-- Committed blocks are at most as high as the last executed one, so no pending block is among
them. -/
theorem not_mem_committed (hx : Pending c floor h x) {committed : List Hash}
    (hc : ∀ k ∈ committed, ∃ y, c.get? k = some y ∧ y.view ≤ floor) : x.hash ∉ committed := by
  intro hm
  obtain ⟨b, hb, hpath, hlt⟩ := hx
  obtain ⟨y, hy, hle⟩ := hc x.hash hm
  have hstored : c.get? x.hash = some x := by
    obtain rfl | hpath := reflTransGen_iff_eq_or_transGen.mp hpath
    · rwa [hash_of_get? hb]
    · exact get?_of_transGen hpath
  cases hstored.symm.trans hy
  exact absurd (Nat.lt_of_lt_of_le hlt hle) (Nat.lt_irrefl _)

theorem Gather.descending (hs : ViewsRise c) (hg : Gather c floor h bs?) :
    ∀ bs ∈ bs?, bs.Pairwise fun x y => y.view < x.view := by
  intro bs hbs
  have hrises : ∀ x ∈ bs, Rises c x := by
    intro x hx
    obtain ⟨b, hb, hpath, -⟩ := (hg.mem_iff hs bs hbs).mp hx
    exact hs.line (hs b (mem_of_get? hb)) hpath
  have hlinked := (hg.linked bs hbs).imp_of_mem_imp fun x y hx _ hxy => hrises x hx y hxy
  have : IsTrans Block fun x y => y.view < x.view := ⟨fun _ _ _ hxy hyz => Nat.lt_trans hyz hxy⟩
  exact List.isChain_iff_pairwise.mp hlinked

theorem commits_of_some (hs : ViewsRise t.state.chain)
    (he : t.state.chain.get? t.state.executed = some tip)
    (hc : ∀ k ∈ t.state.committed, ∃ y, t.state.chain.get? k = some y ∧ y.view ≤ tip.view)
    (hg : Gather t.state.chain tip.view h (some bs.reverse)) : Commits seat tip.view h t bs := by
  have hlast : ∀ x ∈ bs.getLast?, x.hash = h := by
    intro x hx
    rw [← List.head?_reverse] at hx
    exact hash_of_get? (hg.head bs.reverse rfl x hx)
  have hmem : ∀ x, x ∈ bs ↔ Pending t.state.chain tip.view h x := by
    intro x
    rw [← List.mem_reverse]
    exact hg.mem_iff hs bs.reverse rfl
  refine ⟨?_, hmem, ?_, ?_, hlast, fun x hx => not_mem_committed ((hmem x).mp hx) hc⟩
  · rw [commit_of_some hs he hg, settle_reverse hlast, settlement, List.reverse_reverse]
  · exact List.isChain_reverse.mp (hg.linked bs.reverse rfl)
  · exact List.pairwise_reverse.mp (hg.descending hs bs.reverse rfl)

end Effects

/-- Whatever a commit is asked for, it settles all that is pending or nothing. -/
theorem commit_all_or_nothing (seat : Seat) (h : Hash) (t : Turn Replica) (tip : Block)
    (hs : ViewsRise t.state.chain) (he : t.state.chain.get? t.state.executed = some tip)
    (hc : ∀ k ∈ t.state.committed, ∃ y, t.state.chain.get? k = some y ∧ y.view ≤ tip.view) :
    AllOrNothing seat tip.view h t := by
  obtain ⟨bs?, hg⟩ := exists_gather hs tip.view h
  refine ⟨⟨bs?, hg, fun cs? hg' => hg'.unique hg⟩, fun hb => ?_, fun hb => ?_, fun b hb hv => ?_⟩
  · cases bs? with
    | none => exact absurd ((hg.eq_none_iff hs).mp rfl) hb
    | some bs =>
      rw [← List.reverse_reverse bs] at hg
      exact ⟨bs.reverse, hg, commits_of_some hs he hc hg⟩
  · rw [(hg.eq_none_iff hs).mpr hb] at hg
    exact ⟨hg, commit_of_none hs he hg⟩
  · rw [commit_of_some hs he (.done hb hv)]
    simp [settle, settlement]

open Labels (plainSeat)

def settled : Turn Replica :=
  { state :=
      { chain := stored (child trunk 5 :: forked)
        executed := (child .genesis 1).hash
        committed := [(child .genesis 1).hash] } }

/-- The other branch is left alone, and a stray block is not committed. -/
theorem commit_all_or_nothing_trunk :
    (commit plainSeat (child trunk 5).hash settled).events =
        [.commitBlock trunk.hash trunk.view, .commitBlock (child trunk 5).hash (.ofNat 5)] ∧
      (commit plainSeat stray.hash settled).events = [] ∧
      AllOrNothing plainSeat (child .genesis 1).view (child trunk 5).hash settled := by
  have ht : (commit plainSeat (child trunk 5).hash settled).events =
        [.commitBlock trunk.hash trunk.view, .commitBlock (child trunk 5).hash (.ofNat 5)] ∧
      (commit plainSeat stray.hash settled).events = [] ∧
      ViewsRise settled.state.chain ∧
      settled.state.chain.get? (child .genesis 1).hash = some (child .genesis 1) := by
    decide +kernel
  obtain ⟨hcommits, hstray, hs, hfirst⟩ := ht
  refine ⟨hcommits, hstray, commit_all_or_nothing plainSeat _ settled _ hs hfirst fun k hk => ?_⟩
  rw [List.mem_singleton.mp hk]
  exact ⟨child .genesis 1, hfirst, Nat.le_refl _⟩

end Equivocation.Proofs.Settling
