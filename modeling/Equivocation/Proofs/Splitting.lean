import Equivocation.Proofs.GrowthStrings
import Mathlib.Data.List.Nodup

namespace Equivocation.Proofs.Splitting

open Assignments GrowthStrings

/-- Groups that split nodes: not too many, none of them empty, no two with a node in common, and
together they have all the nodes and no others. -/
structure Splits (ns : List NodeId) (maxGroups : Nat) (gs : List NodeSet) : Prop where
  few : gs.length ≤ maxGroups
  filled : ∀ g ∈ gs, g.nodes ≠ []
  disjoint : gs.Pairwise fun g h => ∀ n ∈ g.nodes, n ∉ h.nodes
  covering : ∀ n, (∃ g ∈ gs, n ∈ g.nodes) ↔ n ∈ ns

def Ordered (gs : List NodeSet) : Prop :=
  gs.Pairwise fun g h => ∀ m ∈ g.first?, ∀ n ∈ h.first?, m.toNat < n.toNat

def number (gs : List NodeSet) (n : NodeId) : Nat := gs.findIdx (·.contains n)

def growth (nodes : NodeSet) (gs : List NodeSet) : List Nat := nodes.nodes.map (number gs)

def answer : (k : Nat) → Assignments → Option (List NodeSet)
  | 0, a => a.next.1
  | k + 1, a => answer k a.next.2

section Sets

variable {s t : NodeSet} {m n : NodeId} {ns : List NodeId}

theorem mem_ofList : n ∈ (NodeSet.ofList ns).nodes ↔ n ∈ ns := by
  have hfold : ∀ s : NodeSet, n ∈ (ns.foldl NodeSet.insert s).nodes ↔ n ∈ s.nodes ∨ n ∈ ns := by
    induction ns with
    | nil => simp
    | cons m ns ih =>
      intro s
      rw [List.foldl_cons, ih]
      unfold NodeSet.insert
      rw [NodeSet.mem_insertNode, List.mem_cons]
      tauto
  unfold NodeSet.ofList
  rw [hfold]
  simp [NodeSet.empty]

theorem nodup_nodes (s : NodeSet) : s.nodes.Nodup :=
  s.ascending.imp fun h => ne_of_apply_ne NodeId.toNat (Nat.ne_of_lt h)

theorem ext_nodes (h : ∀ n, n ∈ s.nodes ↔ n ∈ t.nodes) : s = t := by
  have hp := (List.perm_ext_iff_of_nodup (nodup_nodes s) (nodup_nodes t)).mpr h
  refine NodeSet.ext (hp.eq_of_pairwise (fun m n _ _ hm hn => ?_) s.ascending t.ascending)
  exact absurd hm (Nat.lt_asymm hn)

theorem ofList_congr {ns' : List NodeId} (h : ∀ n, n ∈ ns' ↔ n ∈ ns) :
    NodeSet.ofList ns' = NodeSet.ofList ns :=
  ext_nodes fun n => mem_ofList.trans ((h n).trans mem_ofList.symm)

theorem exists_first? (h : s.nodes ≠ []) : ∃ m, s.first? = some m :=
  ⟨s.nodes.head h, List.head?_eq_some_head h⟩

theorem mem_of_first? (h : s.first? = some m) : m ∈ s.nodes := List.mem_of_mem_head? h

theorem first?_le (h : s.first? = some m) (hn : n ∈ s.nodes) : m.toNat ≤ n.toNat := by
  obtain ⟨ms, hms⟩ := List.head?_eq_some_iff.mp h
  have ha := s.ascending
  rw [hms] at ha hn
  rcases List.mem_cons.mp hn with rfl | hn
  · exact Nat.le_refl _
  · exact Nat.le_of_lt ((List.pairwise_cons.mp ha).1 n hn)

end Sets

variable {nodes : NodeSet} {maxGroups k : Nat} {f : NodeId → Nat} {gs gs' : List NodeSet}
  {n : NodeId} {ns : List NodeId}

section Calls

theorem answer_exhausted (nodes : NodeSet) (maxGroups k : Nat) :
    answer k ⟨nodes, maxGroups, none⟩ = none := by
  induction k with
  | zero => rfl
  | succ k ih => exact ih

theorem answer_succ (nodes : NodeSet) (maxGroups k : Nat) (x : List Nat) :
    answer (k + 1) ⟨nodes, maxGroups, some x⟩ =
      answer k ⟨nodes, maxGroups, advance maxGroups x⟩ := rfl

theorem answer_unfolds {x : List Nat} {xs : List (List Nat)}
    (h : Unfolds (advance maxGroups) x xs) (nodes : NodeSet) (k : Nat) :
    answer k ⟨nodes, maxGroups, some x⟩ = (xs[k]?).map (groups nodes) := by
  induction h generalizing k with
  | last h =>
    cases k with
    | zero => rfl
    | succ k =>
      rw [answer_succ, h]
      exact answer_exhausted nodes maxGroups k
  | step h _ ih =>
    cases k with
    | zero => rfl
    | succ k =>
      rw [answer_succ, h]
      exact ih k

/-- Call after call, the answers are all splits. -/
theorem answer_create (nodes : NodeSet) (maxGroups k : Nat) :
    answer k (create nodes maxGroups) = (all nodes maxGroups)[k]? := by
  unfold create all
  by_cases hn : nodes.size = 0
  · rw [if_pos (.inl hn), if_pos hn]
    exact answer_exhausted nodes maxGroups k
  · rw [if_neg hn]
    by_cases hk : maxGroups = 0
    · obtain ⟨length, hl⟩ := Nat.exists_eq_succ_of_ne_zero hn
      rw [if_pos (.inr hk), answer_exhausted, hk, hl]
      rfl
    · rw [if_neg (not_or.mpr ⟨hn, hk⟩), List.getElem?_map]
      exact answer_unfolds (unfolds_advance (by omega) (by omega)) nodes k

end Calls

theorem number_eq (hd : gs.Pairwise fun g h => ∀ n ∈ g.nodes, n ∉ h.nodes) {i : Nat}
    (hi : i < gs.length) : number gs n = i ↔ n ∈ gs[i].nodes := by
  unfold number NodeSet.contains
  rw [List.findIdx_eq hi, List.contains_iff_mem]
  refine and_iff_left_of_imp fun hn j hj => ?_
  refine Bool.eq_false_iff.mpr fun hm => ?_
  have hm := List.contains_iff_mem.mp hm
  exact List.pairwise_iff_getElem.mp hd j i (Nat.lt_trans hj hi) hi hj n hm hn

section Labels

theorem exists_label {string : List Nat} (hl : string.length = nodes.nodes.length) :
    ∃ f, string = nodes.nodes.map f := by
  refine ⟨fun n => string.getD (nodes.nodes.idxOf n) 0,
    List.ext_getElem (by simpa) fun i hi hi' => ?_⟩
  rw [List.getElem_map, (nodup_nodes nodes).idxOf_getElem]
  simp [hi]

theorem mem_group {g : Nat} :
    n ∈ (group nodes (nodes.nodes.map f) g).nodes ↔ n ∈ nodes.nodes ∧ f n = g := by
  have hzip : nodes.nodes.zip (nodes.nodes.map f) = nodes.nodes.map fun n => (n, f n) := by
    have h := @List.zip_map' _ _ _ id f nodes.nodes
    rwa [List.map_id] at h
  unfold group
  rw [mem_ofList, hzip]
  simp [and_comm]

theorem length_groups (nodes : NodeSet) (string : List Nat) :
    (groups nodes string).length = inUse 0 string := by
  unfold groups
  rw [List.length_map, List.length_range]
  rfl

theorem getElem_groups {string : List Nat} {i : Nat} (hi : i < (groups nodes string).length) :
    (groups nodes string)[i] = group nodes string i :=
  (List.getElem_map ..).trans (congrArg _ (List.getElem_range ..))

theorem mem_groups {string : List Nat} {g : NodeSet} :
    g ∈ groups nodes string ↔ ∃ i < inUse 0 string, group nodes string i = g := by
  unfold groups
  rw [List.mem_map]
  simp only [List.mem_range]
  rfl

variable (hf : Grows maxGroups 0 (nodes.nodes.map f))
include hf

theorem exists_mem_group {i : Nat} (hi : i < inUse 0 (nodes.nodes.map f)) :
    ∃ n ∈ nodes.nodes, f n = i :=
  List.mem_map.mp (mem_of_lt_inUse hf (Nat.zero_le _) hi)

theorem exists_before {i j : Nat} (hn : n ∈ nodes.nodes) (hj : f n = j) (hi : i < j) :
    ∃ m ∈ nodes.nodes, m.toNat < n.toNat ∧ f m = i := by
  obtain ⟨before, after, he⟩ := List.append_of_mem hn
  have hmap : nodes.nodes.map f = before.map f ++ j :: after.map f := by
    rw [he, List.map_append, List.map_cons, hj]
  have hi := (grows_iff.mp hf).2 _ j _ hmap i (Nat.zero_le _) hi
  obtain ⟨m, hm, hi⟩ := List.mem_map.mp hi
  have ha := nodes.ascending
  rw [he] at ha ⊢
  refine ⟨m, List.mem_append_left _ hm, ?_, hi⟩
  exact (List.pairwise_append.mp ha).2.2 m hm n List.mem_cons_self

theorem splits_groups :
    Splits nodes.nodes maxGroups (groups nodes (nodes.nodes.map f)) where
  few := by
    rw [length_groups]
    exact inUse_le (Nat.zero_le _) (grows_iff.mp hf).1
  filled g hg := by
    obtain ⟨i, hi, rfl⟩ := mem_groups.mp hg
    obtain ⟨n, hn, hi⟩ := exists_mem_group hf hi
    exact List.ne_nil_of_mem (mem_group.mpr ⟨hn, hi⟩)
  disjoint := by
    refine List.pairwise_map.mpr (List.pairwise_lt_range.imp fun hlt n hn hm => ?_)
    exact Nat.ne_of_lt hlt ((mem_group.mp hn).2.symm.trans (mem_group.mp hm).2)
  covering n := by
    constructor
    · rintro ⟨g, hg, hn⟩
      obtain ⟨i, -, rfl⟩ := mem_groups.mp hg
      exact (mem_group.mp hn).1
    · intro hn
      have hi := lt_inUse 0 (List.mem_map_of_mem (f := f) hn)
      exact ⟨_, mem_groups.mpr ⟨f n, hi, rfl⟩, mem_group.mpr ⟨hn, rfl⟩⟩

theorem ordered_groups : Ordered (groups nodes (nodes.nodes.map f)) := by
  refine List.pairwise_map.mpr (List.pairwise_lt_range.imp fun {i j} hlt m hm n hn => ?_)
  obtain ⟨hn, hj⟩ := mem_group.mp (mem_of_first? hn)
  obtain ⟨l, hl, hln, hi⟩ := exists_before hf hn hj hlt
  exact Nat.lt_of_le_of_lt (first?_le hm (mem_group.mpr ⟨hl, hi⟩)) hln

theorem growth_groups : growth nodes (groups nodes (nodes.nodes.map f)) = nodes.nodes.map f := by
  refine List.map_congr_left fun n hn => ?_
  have hi : f n < (groups nodes (nodes.nodes.map f)).length := by
    rw [length_groups]
    exact lt_inUse 0 (List.mem_map_of_mem hn)
  refine (number_eq (splits_groups hf).disjoint hi).mpr ?_
  rw [getElem_groups]
  exact mem_group.mpr ⟨hn, rfl⟩

end Labels

section Numbers

variable (hsplit : Splits nodes.nodes maxGroups gs)
include hsplit

theorem number_lt (hn : n ∈ nodes.nodes) : number gs n < gs.length := by
  obtain ⟨g, hg, hn⟩ := (hsplit.covering n).mpr hn
  exact List.findIdx_lt_length.mpr ⟨g, hg, List.contains_iff_mem.mpr hn⟩

theorem exists_first {i : Nat} (hi : i < gs.length) :
    ∃ n ∈ nodes.nodes, gs[i].first? = some n ∧ number gs n = i := by
  obtain ⟨n, hn⟩ := exists_first? (hsplit.filled _ (List.getElem_mem hi))
  have hmem := mem_of_first? hn
  exact ⟨n, (hsplit.covering n).mp ⟨_, List.getElem_mem hi, hmem⟩, hn,
    (number_eq hsplit.disjoint hi).mpr hmem⟩

theorem inUse_growth : inUse 0 (growth nodes gs) = gs.length := by
  refine Nat.le_antisymm (inUse_le (Nat.zero_le _) fun i hi => ?_) (Nat.le_of_not_lt fun hlt => ?_)
  · obtain ⟨n, hn, rfl⟩ := List.mem_map.mp hi
    exact number_lt hsplit hn
  · obtain ⟨n, hn, -, hi⟩ := exists_first hsplit hlt
    have hn := lt_inUse 0 (List.mem_map_of_mem (f := number gs) hn)
    exact Nat.ne_of_lt hn hi

theorem groups_growth : groups nodes (growth nodes gs) = gs := by
  refine List.ext_getElem ((length_groups ..).trans (inUse_growth hsplit)) fun i hi hi' => ?_
  rw [getElem_groups]
  refine ext_nodes fun n => mem_group.trans ?_
  rw [number_eq hsplit.disjoint hi']
  exact and_iff_right_of_imp fun hn => (hsplit.covering n).mp ⟨_, List.getElem_mem hi', hn⟩

theorem grows_growth (hord : Ordered gs) : Grows maxGroups 0 (growth nodes gs) := by
  refine grows_iff.mpr ⟨fun i hi => ?_, fun before j after he i _ hij => ?_⟩
  · obtain ⟨n, hn, rfl⟩ := List.mem_map.mp hi
    exact Nat.lt_of_lt_of_le (number_lt hsplit hn) hsplit.few
  · obtain ⟨ms, rest, hnodes, rfl, hrest⟩ := List.map_eq_append_iff.mp he
    obtain ⟨n, ns, rfl, rfl, -⟩ := List.map_eq_cons_iff.mp hrest
    have hn : n ∈ nodes.nodes := hnodes ▸ List.mem_append_right _ List.mem_cons_self
    have hj := number_lt hsplit hn
    obtain ⟨m, hm, hfirst, rfl⟩ := exists_first hsplit (Nat.lt_trans hij hj)
    obtain ⟨m', -, hfirst', -⟩ := exists_first hsplit hj
    have hlt := List.pairwise_iff_getElem.mp hord _ _ _ hj hij m hfirst m' hfirst'
    have hle := first?_le hfirst' ((number_eq hsplit.disjoint hj).mp rfl)
    have ha := nodes.ascending
    rw [hnodes] at ha hm
    refine List.mem_map_of_mem ((List.mem_append.mp hm).resolve_right fun hm => ?_)
    have ha := (List.pairwise_append.mp ha).2.1
    rcases List.mem_cons.mp hm with rfl | hm
    · omega
    · have := (List.pairwise_cons.mp ha).1 m hm
      omega

end Numbers

section Splittings

theorem growth_of_mem {string : List Nat} (h : string ∈ strings maxGroups nodes.size 0) :
    growth nodes (groups nodes string) = string := by
  obtain ⟨hl, hs⟩ := mem_strings.mp h
  obtain ⟨f, rfl⟩ := exists_label hl
  exact growth_groups hs

theorem mem_all :
    gs ∈ all nodes maxGroups ↔
      nodes.nodes ≠ [] ∧ Splits nodes.nodes maxGroups gs ∧ Ordered gs := by
  have hsize : nodes.size = 0 ↔ nodes.nodes = [] := List.length_eq_zero_iff
  unfold all
  split
  · rename_i h
    exact iff_of_false List.not_mem_nil fun hne => hne.1 (hsize.mp h)
  · rename_i h
    constructor
    · intro hgs
      obtain ⟨string, hs, rfl⟩ := List.mem_map.mp hgs
      obtain ⟨hl, hs⟩ := mem_strings.mp hs
      obtain ⟨f, rfl⟩ := exists_label hl
      exact ⟨mt hsize.mpr h, splits_groups hs, ordered_groups hs⟩
    · rintro ⟨-, hsplit, hord⟩
      refine List.mem_map.mpr ⟨growth nodes gs, mem_strings.mpr ⟨?_, ?_⟩, groups_growth hsplit⟩
      · exact List.length_map ..
      · exact grows_growth hsplit hord

theorem all_ascending (nodes : NodeSet) (maxGroups : Nat) :
    (all nodes maxGroups).Pairwise fun gs gs' => growth nodes gs < growth nodes gs' := by
  unfold all
  split
  · exact .nil
  · refine List.pairwise_map.mpr ((strings_ascending ..).imp_of_mem fun hx hy hlt => ?_)
    rwa [growth_of_mem hx, growth_of_mem hy]

theorem nodup_all (nodes : NodeSet) (maxGroups : Nat) : (all nodes maxGroups).Nodup := by
  refine (all_ascending nodes maxGroups).imp fun hlt he => ?_
  subst he
  exact List.lt_irrefl _ hlt

theorem Ordered.eq_of_perm (h : Ordered gs) (h' : Ordered gs') (hf : ∀ g ∈ gs, g.nodes ≠ [])
    (hp : gs.Perm gs') : gs = gs' := by
  refine hp.eq_of_pairwise (fun g g' hg hg' hlt hlt' => ?_) h h'
  obtain ⟨m, hm⟩ := exists_first? (hf g hg)
  obtain ⟨n, hn⟩ := exists_first? (hf g' (hp.mem_iff.mpr hg'))
  exact absurd (hlt m hm n hn) (Nat.lt_asymm (hlt' n hn m hm))

theorem Splits.perm (h : Splits ns maxGroups gs) (hp : gs'.Perm gs) : Splits ns maxGroups gs' where
  few := hp.length_eq ▸ h.few
  filled g hg := h.filled g (hp.mem_iff.mp hg)
  disjoint := by
    refine (hp.pairwise_iff fun hd n hn hm => ?_).mpr h.disjoint
    exact hd n hm hn
  covering n := by
    refine Iff.trans ?_ (h.covering n)
    exact exists_congr fun g => and_congr_left fun _ => hp.mem_iff

theorem Splits.congr {ns' : List NodeId} (hn : ∀ n, n ∈ ns' ↔ n ∈ ns)
    (h : Splits ns' maxGroups gs) : Splits ns maxGroups gs :=
  { h with covering := fun n => (h.covering n).trans (hn n) }

def smallest (g : NodeSet) : Nat := (g.first?.map NodeId.toNat).getD 0

theorem Splits.exists_ordered (h : Splits ns maxGroups gs) :
    ∃ gs', gs'.Perm gs ∧ Splits ns maxGroups gs' ∧ Ordered gs' := by
  have hp := List.mergeSort_perm gs fun g g' => decide (smallest g ≤ smallest g')
  have hsplit := h.perm hp
  have hle := @List.pairwise_mergeSort _ (fun g g' => decide (smallest g ≤ smallest g'))
    (by simp; omega) (by simp; omega) gs
  refine ⟨_, hp, hsplit, (hle.and hsplit.disjoint).imp ?_⟩
  rintro g g' ⟨hle, hd⟩ m hm n hn
  have hkey : m.toNat ≤ n.toNat := by
    simpa [smallest, Option.mem_def.mp hm, Option.mem_def.mp hn] using hle
  have hne : m ≠ n := fun he => hd m (mem_of_first? hm) (he ▸ mem_of_first? hn)
  exact Nat.lt_of_le_of_ne hkey fun he => hne (NodeId.ext he)

end Splittings

/-- After finitely many splits a generator has no more. Up to the order of its groups, every way to
split the nodes is one of the answers; their groups are in order, and their growth strings ascend
lexicographically. -/
structure Exhaustive (ns : List NodeId) (maxGroups : Nat) : Prop where
  ends : ∃ m, ∀ k, (answer k (create (.ofList ns) maxGroups)).isSome ↔ k < m
  sound : ∀ k gs, answer k (create (.ofList ns) maxGroups) = some gs →
    Splits ns maxGroups gs ∧ Ordered gs ∧ Grows maxGroups 0 (growth (.ofList ns) gs)
  complete : ns ≠ [] → ∀ gs, Splits ns maxGroups gs →
    ∃! k, ∃ gs', answer k (create (.ofList ns) maxGroups) = some gs' ∧ gs'.Perm gs
  ascending : ∀ j k gs gs', j < k → answer j (create (.ofList ns) maxGroups) = some gs →
    answer k (create (.ofList ns) maxGroups) = some gs' →
    growth (.ofList ns) gs < growth (.ofList ns) gs'
  nothing : ns = [] ∨ maxGroups = 0 → ∀ k, answer k (create (.ofList ns) maxGroups) = none
  unordered : ∀ ns', (∀ n, n ∈ ns' ↔ n ∈ ns) →
    create (.ofList ns') maxGroups = create (.ofList ns) maxGroups

/-- A generator goes through all ways to split its nodes, whatever the order they are given in. -/
theorem splits_exhaustive (ns : List NodeId) (maxGroups : Nat) : Exhaustive ns maxGroups where
  ends := by
    refine ⟨(all (.ofList ns) maxGroups).length, fun k => ?_⟩
    rw [answer_create]
    simp
  sound k gs h := by
    rw [answer_create] at h
    obtain ⟨-, hsplit, hord⟩ := mem_all.mp (List.mem_of_getElem? h)
    exact ⟨hsplit.congr fun _ => mem_ofList, hord, grows_growth hsplit hord⟩
  complete hne gs h := by
    obtain ⟨gs', hp, hsplit, hord⟩ := (h.congr fun _ => mem_ofList.symm).exists_ordered
    obtain ⟨n, hn⟩ := List.exists_mem_of_ne_nil _ hne
    have hmem := mem_all.mpr ⟨List.ne_nil_of_mem (mem_ofList.mpr hn), hsplit, hord⟩
    obtain ⟨k, hk⟩ := List.mem_iff_getElem?.mp hmem
    refine ⟨k, ⟨gs', (answer_create ..).trans hk, hp⟩, ?_⟩
    rintro j ⟨gs'', hj, hp'⟩
    rw [answer_create] at hj
    obtain ⟨-, -, hord'⟩ := mem_all.mp (List.mem_of_getElem? hj)
    obtain rfl := hord.eq_of_perm hord' hsplit.filled (hp.trans hp'.symm)
    obtain ⟨hj, he⟩ := List.getElem?_eq_some_iff.mp hj
    obtain ⟨hk, he'⟩ := List.getElem?_eq_some_iff.mp hk
    exact (nodup_all ..).getElem_inj_iff.mp (he.trans he'.symm)
  ascending j k gs gs' hjk h h' := by
    rw [answer_create] at h h'
    obtain ⟨hj, rfl⟩ := List.getElem?_eq_some_iff.mp h
    obtain ⟨hk, rfl⟩ := List.getElem?_eq_some_iff.mp h'
    exact List.pairwise_iff_getElem.mp (all_ascending ..) j k hj hk hjk
  nothing h k := by
    have hnone : create (.ofList ns) maxGroups = ⟨.ofList ns, maxGroups, none⟩ := by
      refine congrArg _ (if_pos (h.imp (fun hns => ?_) id))
      rw [hns]
      rfl
    rw [hnone]
    exact answer_exhausted ..
  unordered ns' h := by rw [ofList_congr h]

example : (all (.ofList ([3, 1, 2, 1].map .ofNat)) 2).map
      (growth (.ofList ([3, 1, 2, 1].map .ofNat))) =
    [[0, 0, 0], [0, 0, 1], [0, 1, 0], [0, 1, 1]] := by decide

end Equivocation.Proofs.Splitting
