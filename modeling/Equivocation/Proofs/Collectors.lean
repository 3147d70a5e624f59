import Equivocation.Proofs.Ballots
import Mathlib.Data.List.DropRight
import Mathlib.Data.List.Induction

namespace Equivocation.Proofs.Collectors

/-- What a collector is asked to do. Ballots of one key go into one certificate. -/
inductive CollectorCall (κ ι : Type) where
  | collect (key : κ) (ballot : ι)
  | prune (view : View)

abbrev Past (κ ι γ : Type) := List (CollectorCall κ ι × Option γ)

structure CollectorRun (κ ι γ σ : Type) where
  state : σ
  past : Past κ ι γ := []

/-- Who may cast a ballot, who has cast one, and which view a key belongs to. -/
structure BallotKind (κ ι : Type) where
  electorate : Electorate
  view : κ → View
  signer : ι → ReplicaId

variable {κ ι γ σ : Type}

def CollectorRun.take (step : CollectorCall κ ι → σ → Option γ × σ) (d : CollectorRun κ ι γ σ)
    (c : CollectorCall κ ι) :
    CollectorRun κ ι γ σ :=
  ⟨(step c d.state).2, d.past ++ [(c, (step c d.state).1)]⟩

def CollectorRun.run (step : CollectorCall κ ι → σ → Option γ × σ) (s : σ)
    (calls : List (CollectorCall κ ι)) :
    CollectorRun κ ι γ σ :=
  calls.foldl (CollectorRun.take step) ⟨s, []⟩

theorem CollectorRun.run_concat (step : CollectorCall κ ι → σ → Option γ × σ) (s : σ)
    (calls : List (CollectorCall κ ι)) (c : CollectorCall κ ι) :
    CollectorRun.run step s (calls ++ [c]) = (CollectorRun.run step s calls).take step c :=
  List.foldl_concat ..

namespace BallotKind

section Sets

variable (O : BallotKind κ ι)

def add (xs : List ι) (x : ι) : List ι :=
  if xs.any fun y => O.signer y = O.signer x then xs else xs ++ [x]

def firsts (xs : List ι) : List ι := xs.foldl O.add []

def Admits (xs : List ι) (x : ι) : Prop :=
  O.signer x ∈ O.electorate.replicas ∧ ∀ y ∈ xs, O.signer y ≠ O.signer x

variable {O} {x y : ι} {xs : List ι}

theorem firsts_concat (xs : List ι) (x : ι) : O.firsts (xs ++ [x]) = O.add (O.firsts xs) x :=
  List.foldl_concat ..

theorem add_of_new (h : ∀ y ∈ xs, O.signer y ≠ O.signer x) : O.add xs x = xs ++ [x] := by
  simpa [add] using h

theorem add_of_old (h : ∃ y ∈ xs, O.signer y = O.signer x) : O.add xs x = xs := by
  simpa [add] using h

theorem firsts_sublist (xs : List ι) : (O.firsts xs).Sublist xs := by
  induction xs using List.reverseRecOn with
  | nil => exact List.Sublist.refl _
  | append_singleton xs x ih =>
    rw [firsts_concat]
    by_cases h : ∃ y ∈ O.firsts xs, O.signer y = O.signer x
    · rw [add_of_old h]
      exact ih.trans (List.sublist_append_left _ _)
    · rw [add_of_new (by simpa using h)]
      exact ih.append (List.Sublist.refl _)

theorem nodup_concat (hxs : (xs.map O.signer).Nodup) (hx : ∀ y ∈ xs, O.signer y ≠ O.signer x) :
    ((xs ++ [x]).map O.signer).Nodup := by
  rw [List.map_append, List.nodup_append]
  refine ⟨hxs, by simp, fun r hr r' hr' he => ?_⟩
  obtain ⟨y, hy, rfl⟩ := List.mem_map.mp hr
  exact hx y hy (he.trans (List.mem_singleton.mp hr'))

theorem nodup_firsts (xs : List ι) : ((O.firsts xs).map O.signer).Nodup := by
  induction xs using List.reverseRecOn with
  | nil => exact .nil
  | append_singleton xs x ih =>
    rw [firsts_concat]
    by_cases h : ∃ y ∈ O.firsts xs, O.signer y = O.signer x
    · rwa [add_of_old h]
    · rw [add_of_new (by simpa using h)]
      exact nodup_concat ih (by simpa using h)

theorem exists_mem_firsts (hy : y ∈ xs) : ∃ z ∈ O.firsts xs, O.signer z = O.signer y := by
  induction xs using List.reverseRecOn with
  | nil => cases hy
  | append_singleton xs x ih =>
    rw [firsts_concat]
    by_cases h : ∃ y ∈ O.firsts xs, O.signer y = O.signer x
    · rw [add_of_old h]
      obtain hy | hy := List.mem_append.mp hy
      · exact ih hy
      · rwa [List.mem_singleton.mp hy]
    · rw [add_of_new (by simpa using h)]
      obtain hy | hy := List.mem_append.mp hy
      · obtain ⟨z, hz, he⟩ := ih hy
        exact ⟨z, List.mem_append_left _ hz, he⟩
      · exact ⟨y, List.mem_append_right _ hy, rfl⟩

end Sets

section Outcomes

variable (O : BallotKind κ ι)

inductive Outcome (Certifies : κ → List ι → γ → Prop) (k : κ) (xs : List ι) (x : ι) :
    Option γ → List ι → Prop
  | refused (turned : ¬ O.Admits xs x) : Outcome Certifies k xs x none xs
  | counted (admitted : O.Admits xs x) (short : xs.length + 1 < O.electorate.quorum) :
    Outcome Certifies k xs x none (xs ++ [x])
  | certified {c : γ} (admitted : O.Admits xs x) (full : O.electorate.quorum ≤ xs.length + 1)
    (certifies : Certifies k (xs ++ [x]) c) : Outcome Certifies k xs x (some c) []

structure CollectsByKey (step : CollectorCall κ ι → σ → Option γ × σ)
    (Holds : σ → κ → List ι → Prop) (Certifies : κ → List ι → γ → Prop) : Prop where
  collect : ∀ s k x xs, Holds s k xs →
    ∃ ys, O.Outcome Certifies k xs x (step (.collect k x) s).1 ys ∧
      Holds (step (.collect k x) s).2 k ys
  collect_other : ∀ s k l x xs, l ≠ k → Holds s l xs → Holds (step (.collect k x) s).2 l xs
  prune : ∀ s w k xs, Holds s k xs → Holds (step (.prune w) s).2 k (if O.view k < w then [] else xs)
  unique : ∀ k xs c c', Certifies k xs c → Certifies k xs c' → c = c'

variable {O} {Certifies : κ → List ι → γ → Prop} {k : κ} {x : ι} {xs ys zs : List ι}
  {a b : Option γ} {c : γ}

theorem Outcome.short (h : O.Outcome Certifies k xs x a ys) (hq : 0 < O.electorate.quorum)
    (hxs : xs.length < O.electorate.quorum) : ys.length < O.electorate.quorum := by
  cases h with
  | refused => exact hxs
  | counted _ short => simpa using short
  | certified => exact hq

theorem Outcome.isSome_iff (h : O.Outcome Certifies k xs x a ys)
    (hxs : xs.length < O.electorate.quorum) :
    a.isSome = true ↔ O.Admits xs x ∧ xs.length + 1 = O.electorate.quorum := by
  cases h with
  | refused turned => simp [turned]
  | counted admitted short => simp [Nat.ne_of_lt short]
  | certified admitted full => exact ⟨fun _ => ⟨admitted, by omega⟩, fun _ => rfl⟩

theorem Outcome.certifies (h : O.Outcome Certifies k xs x (some c) ys) :
    Certifies k (xs ++ [x]) c := by
  cases h with
  | certified _ _ certifies => exact certifies

theorem Outcome.unique (h : O.Outcome Certifies k xs x a ys) (h' : O.Outcome Certifies k xs x b zs)
    (hu : ∀ c c', Certifies k (xs ++ [x]) c → Certifies k (xs ++ [x]) c' → c = c') :
    a = b ∧ ys = zs := by
  cases h with
  | refused turned =>
    cases h' with
    | refused => exact ⟨rfl, rfl⟩
    | counted admitted => exact absurd admitted turned
    | certified admitted => exact absurd admitted turned
  | counted admitted short =>
    cases h' with
    | refused turned => exact absurd admitted turned
    | counted => exact ⟨rfl, rfl⟩
    | certified _ full => omega
  | certified admitted full certifies =>
    cases h' with
    | refused turned => exact absurd admitted turned
    | counted _ short => omega
    | certified _ _ certifies' => exact ⟨congrArg some (hu _ _ certifies certifies'), rfl⟩

end Outcomes

variable [DecidableEq κ]

def ballot? (k : κ) : CollectorCall κ ι × Option γ → Option ι
  | (.collect l x, _) => if l = k then some x else none
  | (.prune _, _) => none

section Histories

variable (O : BallotKind κ ι)

/-- The set of a key is emptied when it becomes a certificate, and when its view is pruned. -/
def empties (k : κ) : CollectorCall κ ι × Option γ → Bool
  | (.collect l _, answer) => decide (l = k) && answer.isSome
  | (.prune w, _) => decide (O.view k < w)

def recent (k : κ) (past : Past κ ι γ) : List ι :=
  (past.rtakeWhile fun e => !O.empties k e).filterMap (ballot? k)

/-- The current set of a key. Each replica counts once. -/
def current (k : κ) (past : Past κ ι γ) : List ι :=
  O.firsts ((O.recent k past).filter fun x => O.electorate.replicas.contains (O.signer x))

def concerns (k : κ) : CollectorCall κ ι → Bool
  | .collect l _ => l = k
  | .prune w => O.view k < w

/-- What a certificate can be made of: a quorum of distinct replicas, all of them collected for the
key, in the order of their arrival. -/
structure Full (past : Past κ ι γ) (k : κ) (x : ι) (xs : List ι) : Prop where
  length : xs.length = O.electorate.quorum
  distinct : (xs.map O.signer).Nodup
  replicas : ∀ y ∈ xs, O.signer y ∈ O.electorate.replicas
  arrived : xs.Sublist (O.recent k past ++ [x])

/-- A certificate is given exactly for the ballot that completes a set, and is made of that set. -/
structure Exact (Certifies : κ → List ι → γ → Prop) (past : Past κ ι γ) (k : κ) (x : ι)
    (answer : Option γ) : Prop where
  certified_iff : answer.isSome = true ↔
    O.Admits (O.current k past) x ∧ (O.current k past).length + 1 = O.electorate.quorum
  certifies : ∀ c, answer = some c →
    Certifies k (O.current k past ++ [x]) c ∧ O.Full past k x (O.current k past ++ [x])
  complete : ∀ y ∈ O.recent k past, O.signer y ∈ O.electorate.replicas →
    ∃ z ∈ O.current k past, O.signer z = O.signer y

variable {O} {step : CollectorCall κ ι → σ → Option γ × σ} {Holds : σ → κ → List ι → Prop}
  {Certifies : κ → List ι → γ → Prop} {k : κ} {x y : ι} {xs ys zs : List ι} {a b : Option γ}
  {past : Past κ ι γ} {e : CollectorCall κ ι × Option γ} {d : CollectorRun κ ι γ σ} {s : σ}
  {calls calls' : List (CollectorCall κ ι)}

theorem current_of_empties (h : O.empties k e = true) : O.current k (past ++ [e]) = [] := by
  simp [current, recent, h, firsts]

theorem current_of_other (h : O.empties k e = false) (hb : ballot? k e = none) :
    O.current k (past ++ [e]) = O.current k past := by
  simp [current, recent, h, hb]

theorem current_of_ballot (h : O.empties k e = false) (hb : ballot? k e = some x) :
    O.current k (past ++ [e]) =
      if O.signer x ∈ O.electorate.replicas then O.add (O.current k past) x
      else O.current k past := by
  by_cases hr : O.signer x ∈ O.electorate.replicas <;>
    simp [current, recent, h, hb, hr, firsts_concat]

theorem current_of_admits (h : O.empties k e = false) (hb : ballot? k e = some x)
    (ha : O.Admits (O.current k past) x) :
    O.current k (past ++ [e]) = O.current k past ++ [x] := by
  rw [current_of_ballot h hb, if_pos ha.1, add_of_new ha.2]

theorem current_of_not_admits (h : O.empties k e = false) (hb : ballot? k e = some x)
    (ha : ¬ O.Admits (O.current k past) x) : O.current k (past ++ [e]) = O.current k past := by
  rw [current_of_ballot h hb]
  split
  next hr => exact add_of_old (by simpa [Admits, hr] using ha)
  next => rfl

theorem current_of_outcome (h : O.Outcome Certifies k (O.current k past) x a ys) :
    O.current k (past ++ [(.collect k x, a)]) = ys := by
  have hb : ballot? k (.collect k x, a) = some x := by simp [ballot?]
  cases h with
  | refused turned => exact current_of_not_admits (by simp [empties]) hb turned
  | counted admitted short => exact current_of_admits (by simp [empties]) hb admitted
  | certified admitted full certifies => exact current_of_empties (by simp [empties])

theorem current_pruned {w : View} (h : O.concerns k (.prune w) = true) :
    O.current k (past ++ [(.prune w, a)]) = [] := current_of_empties h

theorem current_of_unconcerned {c : CollectorCall κ ι} (h : O.concerns k c = false) :
    O.current k (past ++ [(c, a)]) = O.current k past := by
  cases c with
  | collect l x =>
    have hl : l ≠ k := by simpa [concerns] using h
    exact current_of_other (by simp [empties, hl]) (by simp [ballot?, hl])
  | prune w => exact current_of_other (by simpa [empties, concerns] using h) rfl

theorem distinct_current (k : κ) (past : Past κ ι γ) :
    ((O.current k past).map O.signer).Nodup := nodup_firsts _

theorem current_sublist (k : κ) (past : Past κ ι γ) :
    (O.current k past).Sublist (O.recent k past) :=
  (firsts_sublist _).trans List.filter_sublist

theorem replica_of_current (hy : y ∈ O.current k past) : O.signer y ∈ O.electorate.replicas := by
  have hm := (firsts_sublist _).subset hy
  simpa using (List.mem_filter.mp hm).2

theorem exists_mem_current (hy : y ∈ O.recent k past) (hr : O.signer y ∈ O.electorate.replicas) :
    ∃ z ∈ O.current k past, O.signer z = O.signer y :=
  exists_mem_firsts (List.mem_filter.mpr ⟨hy, by simpa using hr⟩)

theorem full_of_admits (hx : O.Admits (O.current k past) x)
    (hlen : (O.current k past).length + 1 = O.electorate.quorum) :
    O.Full past k x (O.current k past ++ [x]) where
  length := by simpa using hlen
  distinct := nodup_concat (distinct_current k past) hx.2
  replicas y hy := by
    obtain hy | hy := List.mem_append.mp hy
    · exact replica_of_current hy
    · rw [List.mem_singleton.mp hy]
      exact hx.1
  arrived := (current_sublist _ _).append (List.Sublist.refl _)

variable (hl : O.CollectsByKey step Holds Certifies)
include hl

theorem CollectsByKey.take (h : Holds d.state k (O.current k d.past)) (c : CollectorCall κ ι) :
    Holds (d.take step c).state k (O.current k (d.take step c).past) := by
  by_cases hc : O.concerns k c = true
  · cases c with
    | collect l x =>
      obtain rfl : l = k := of_decide_eq_true hc
      obtain ⟨ys, ho, hys⟩ := hl.collect _ _ x _ h
      rw [CollectorRun.take, current_of_outcome ho]
      exact hys
    | prune w =>
      have hp := hl.prune _ w _ _ h
      rw [CollectorRun.take, current_pruned hc]
      rwa [if_pos (of_decide_eq_true hc)] at hp
  · -- A prune that spares the view of the key is among these calls.
    have hc : O.concerns k c = false := by simpa using hc
    rw [CollectorRun.take, current_of_unconcerned hc]
    cases c with
    | collect l x => exact hl.collect_other _ _ _ x _ (Ne.symm (by simpa [concerns] using hc)) h
    | prune w =>
      have hp := hl.prune _ w _ _ h
      rwa [if_neg (by simpa [concerns] using hc)] at hp

theorem CollectsByKey.run (hs : ∀ k, Holds s k []) (calls : List (CollectorCall κ ι)) (k : κ) :
    Holds (CollectorRun.run step s calls).state k
      (O.current k (CollectorRun.run step s calls).past) := by
  induction calls using List.reverseRecOn with
  | nil => exact hs k
  | append_singleton calls c ih =>
    rw [CollectorRun.run_concat]
    exact hl.take ih c

theorem CollectsByKey.short (hs : ∀ k, Holds s k []) (hq : 0 < O.electorate.quorum)
    (calls : List (CollectorCall κ ι)) (k : κ) :
    (O.current k (CollectorRun.run step s calls).past).length < O.electorate.quorum := by
  induction calls using List.reverseRecOn with
  | nil => exact hq
  | append_singleton calls c ih =>
    rw [CollectorRun.run_concat, CollectorRun.take]
    by_cases hc : O.concerns k c = true
    · cases c with
      | collect l x =>
        obtain rfl : l = k := of_decide_eq_true hc
        obtain ⟨ys, ho, -⟩ := hl.collect _ _ x _ (hl.run hs calls l)
        rw [current_of_outcome ho]
        exact ho.short hq ih
      | prune w =>
        rw [current_pruned hc]
        exact hq
    · rwa [current_of_unconcerned (by simpa using hc)]

theorem CollectsByKey.exact (hs : ∀ k, Holds s k []) (hq : 0 < O.electorate.quorum)
    (calls : List (CollectorCall κ ι)) (k : κ) (x : ι) :
    O.Exact Certifies (CollectorRun.run step s calls).past k x
      (step (.collect k x) (CollectorRun.run step s calls).state).1 := by
  obtain ⟨ys, ho, -⟩ := hl.collect _ _ x _ (hl.run hs calls k)
  have hiff := ho.isSome_iff (hl.short hs hq calls k)
  refine ⟨hiff, fun c hc => ?_, fun y => exists_mem_current⟩
  rw [hc] at ho hiff
  obtain ⟨hadm, hlen⟩ := hiff.mp rfl
  exact ⟨ho.certifies, full_of_admits hadm hlen⟩

/-- The set of a key is a matter of the calls that concern it. -/
theorem CollectsByKey.current_filter (hs : ∀ k, Holds s k []) (calls : List (CollectorCall κ ι))
    (k : κ) :
    O.current k (CollectorRun.run step s calls).past =
      O.current k (CollectorRun.run step s (calls.filter (O.concerns k))).past := by
  induction calls using List.reverseRecOn with
  | nil => rfl
  | append_singleton calls c ih =>
    rw [List.filter_append, CollectorRun.run_concat, CollectorRun.take]
    by_cases hc : O.concerns k c = true
    · rw [List.filter_cons_of_pos hc, List.filter_nil, CollectorRun.run_concat, CollectorRun.take]
      cases c with
      | collect l x =>
        obtain rfl : l = k := of_decide_eq_true hc
        obtain ⟨ys, ho, -⟩ := hl.collect _ _ x _ (hl.run hs calls l)
        obtain ⟨zs, ho', -⟩ := hl.collect _ _ x _ (hl.run hs (calls.filter (O.concerns l)) l)
        rw [current_of_outcome ho, current_of_outcome ho']
        rw [← ih] at ho'
        exact (ho.unique ho' (hl.unique _ _)).2
      | prune w => rw [current_pruned hc, current_pruned hc]
    · rw [List.filter_cons_of_neg hc, List.filter_nil, List.append_nil,
        current_of_unconcerned (by simpa using hc), ih]

theorem CollectsByKey.independent (hs : ∀ k, Holds s k [])
    (hc : calls.filter (O.concerns k) = calls'.filter (O.concerns k)) (x : ι) :
    (step (.collect k x) (CollectorRun.run step s calls).state).1 =
      (step (.collect k x) (CollectorRun.run step s calls').state).1 := by
  obtain ⟨ys, ho, -⟩ := hl.collect _ _ x _ (hl.run hs calls k)
  obtain ⟨zs, ho', -⟩ := hl.collect _ _ x _ (hl.run hs calls' k)
  rw [hl.current_filter hs calls', ← hc, ← hl.current_filter hs calls] at ho'
  exact (ho.unique ho' (hl.unique _ _)).1

end Histories

end BallotKind

theorem not_le_of_lt {v w : View} (h : v < w) : ¬ w ≤ v := Nat.not_le_of_lt h

theorem le_of_not_lt {v w : View} (h : ¬ v < w) : w ≤ v := Nat.le_of_not_lt h

section Instances

variable (E : Electorate)

def voteKind : BallotKind (View × Hash) Signature := ⟨E, Prod.fst, Signature.signer⟩

def voteStep : CollectorCall (View × Hash) Signature → VoteCollector →
    Option QuorumCertificate × VoteCollector
  | .collect k s, votes => VoteCollector.collect E k.1 k.2 s votes
  | .prune w, votes => (none, VoteCollector.pruneBelow w votes)

def HoldsVotes (votes : VoteCollector) (k : View × Hash) (ss : List Signature) : Prop :=
  (Table.get? votes k).getD [] = ss

theorem holdsVotes_nil (k : View × Hash) : HoldsVotes [] k [] := rfl

def CertifiesVotes (k : View × Hash) (ss : List Signature) (q : QuorumCertificate) : Prop :=
  q = ⟨k.1, k.2, ss⟩

theorem admits_votes {s : Signature} {ss : List Signature} :
    E.admits s ss = true ↔ (voteKind E).Admits ss s := by
  simp [Electorate.admits, BallotKind.Admits, voteKind]

theorem collectsByKey_votes :
    (voteKind E).CollectsByKey (voteStep E) HoldsVotes CertifiesVotes where
  collect votes k s ss hss := by
    obtain rfl := hss
    simp only [voteStep, VoteCollector.collect]
    by_cases ha : E.admits s ((Table.get? votes k).getD []) = true
    · have hadm := (admits_votes E).mp ha
      by_cases hq : E.quorum ≤ ((Table.get? votes k).getD [] ++ [s]).length
      · simp only [ha, hq, if_true]
        refine ⟨[], .certified hadm (by simpa [voteKind] using hq) rfl, ?_⟩
        simp [HoldsVotes, Table.get?_erase]
      · simp only [ha, hq, if_true, if_false]
        refine ⟨_, .counted hadm (by simpa [voteKind] using hq), ?_⟩
        simp [HoldsVotes, Table.get?_set]
    · simp only [ha]
      exact ⟨_, .refused fun h => ha ((admits_votes E).mpr h), rfl⟩
  collect_other votes k l s ss hl hss := by
    obtain rfl := hss
    simp only [voteStep, VoteCollector.collect]
    split
    · split <;> simp [HoldsVotes, Table.get?_erase, Table.get?_set, hl]
    · rfl
  prune votes w k ss hss := by
    obtain rfl := hss
    have hget := Table.get?_filter (fun k : View × Hash => w ≤ k.1) votes k
    simp only [HoldsVotes, voteStep, VoteCollector.pruneBelow, hget, voteKind]
    by_cases hw : k.1 < w
    · simp [hw, not_le_of_lt hw]
    · simp [hw, le_of_not_lt hw]
  unique k ss q q' h h' := h.trans h'.symm

def timeoutKind : BallotKind View (Signature × QuorumCertificate) := ⟨E, id, fun x => x.1.signer⟩

def timeoutStep : CollectorCall View (Signature × QuorumCertificate) → TimeoutCollector →
    Option (TimeoutCertificate × QuorumCertificate) × TimeoutCollector
  | .collect v x, timeouts => TimeoutCollector.collect E v x.1 x.2 timeouts
  | .prune w, timeouts => (none, TimeoutCollector.pruneBelow w timeouts)

/-- The earliest of those with the greatest view. -/
def Highest (qs : List QuorumCertificate) (q : QuorumCertificate) : Prop :=
  ∃ before after, qs = before ++ q :: after ∧ (∀ p ∈ before, p.view < q.view) ∧
    ∀ p ∈ after, p.view ≤ q.view

inductive HoldsSummary : Option (List Signature × QuorumCertificate) →
    List (Signature × QuorumCertificate) → Prop
  | nothing : HoldsSummary none []
  | summary {xs : List (Signature × QuorumCertificate)} {q : QuorumCertificate}
    (highest : Highest (xs.map (·.2)) q) : HoldsSummary (some (xs.map (·.1), q)) xs

def HoldsTimeouts (timeouts : TimeoutCollector) (v : View)
    (xs : List (Signature × QuorumCertificate)) : Prop :=
  HoldsSummary (Table.get? timeouts v) xs

theorem holdsTimeouts_nil (v : View) : HoldsTimeouts [] v [] := .nothing

def CertifiesTimeouts (v : View) (xs : List (Signature × QuorumCertificate))
    (c : TimeoutCertificate × QuorumCertificate) : Prop :=
  c.1 = ⟨v, xs.map (·.1)⟩ ∧ Highest (xs.map (·.2)) c.2

theorem admits_timeouts {x : Signature × QuorumCertificate}
    {xs : List (Signature × QuorumCertificate)} :
    E.admits x.1 (xs.map (·.1)) = true ↔ (timeoutKind E).Admits xs x := by
  simp [Electorate.admits, BallotKind.Admits, timeoutKind]

variable {E} {qs : List QuorumCertificate} {p q : QuorumCertificate}

theorem Highest.single (q : QuorumCertificate) : Highest [q] q := ⟨[], [], rfl, nofun, nofun⟩

theorem Highest.mem (h : Highest qs q) : q ∈ qs := by
  obtain ⟨before, after, rfl, -, -⟩ := h
  simp

theorem Highest.le (h : Highest qs q) (hp : p ∈ qs) : p.view ≤ q.view := by
  obtain ⟨before, after, rfl, hb, ha⟩ := h
  obtain hp | hp := List.mem_append.mp hp
  · exact Nat.le_of_lt (hb p hp)
  · obtain rfl | hp := List.mem_cons.mp hp
    · exact Nat.le_refl _
    · exact ha p hp

/-- A later certificate only takes the place of the highest one if its view is greater. -/
theorem Highest.concat (h : Highest qs q) (p : QuorumCertificate) :
    Highest (qs ++ [p]) (if q.view < p.view then p else q) := by
  by_cases hlt : q.view < p.view
  · rw [if_pos hlt]
    exact ⟨qs, [], rfl, fun r hr => Nat.lt_of_le_of_lt (h.le hr) hlt, nofun⟩
  · rw [if_neg hlt]
    obtain ⟨before, after, rfl, hb, ha⟩ := h
    refine ⟨before, after ++ [p], by simp, hb, fun r hr => ?_⟩
    obtain hr | hr := List.mem_append.mp hr
    · exact ha r hr
    · rw [List.mem_singleton.mp hr]
      exact le_of_not_lt hlt

theorem Highest.unique (h : Highest qs p) (h' : Highest qs q) : p = q := by
  have hle : p.view ≤ q.view := h'.le h.mem
  have hle' : q.view ≤ p.view := h.le h'.mem
  obtain ⟨before, after, rfl, hb, -⟩ := h
  obtain ⟨before', after', he, hb', -⟩ := h'
  -- Neither of the two can be among those before the other.
  obtain ⟨between, rfl, hp⟩ | ⟨between, rfl, hq⟩ := List.append_eq_append_iff.mp he
  · obtain - | ⟨r, between⟩ := between
    · exact (List.cons.inj hp).1
    · obtain rfl := (List.cons.inj hp).1
      exact absurd hle' (Nat.not_le_of_lt (hb' p (by simp)))
  · obtain - | ⟨r, between⟩ := between
    · exact (List.cons.inj hq).1.symm
    · obtain rfl := (List.cons.inj hq).1
      exact absurd hle (Nat.not_le_of_lt (hb q (by simp)))

theorem HoldsSummary.concat {o : Option (List Signature × QuorumCertificate)}
    {x : Signature × QuorumCertificate} {xs : List (Signature × QuorumCertificate)}
    (h : HoldsSummary o xs) : (o.getD ([], x.2)).1 = xs.map (·.1) ∧
      Highest ((xs ++ [x]).map (·.2)) (if (o.getD ([], x.2)).2.view < x.2.view then x.2
        else (o.getD ([], x.2)).2) := by
  cases h with
  | nothing => exact ⟨rfl, by simpa using Highest.single x.2⟩
  | summary highest => exact ⟨rfl, by simpa using highest.concat x.2⟩

theorem collectsByKey_timeouts (E : Electorate) :
    (timeoutKind E).CollectsByKey (timeoutStep E) HoldsTimeouts CertifiesTimeouts where
  collect timeouts v x xs hxs := by
    obtain ⟨hsigs, hhigh⟩ := HoldsSummary.concat (x := x) hxs
    simp only [timeoutStep, TimeoutCollector.collect, hsigs]
    by_cases ha : E.admits x.1 (xs.map (·.1)) = true
    · have hadm := (admits_timeouts E).mp ha
      by_cases hq : E.quorum ≤ (xs.map (·.1) ++ [x.1]).length
      · simp only [ha, hq, if_true]
        refine ⟨[], .certified hadm (by simpa [timeoutKind] using hq) ⟨by simp, hhigh⟩, ?_⟩
        simp [HoldsTimeouts, Table.get?_erase, HoldsSummary.nothing]
      · simp only [ha, hq, if_true, if_false]
        refine ⟨xs ++ [x], .counted hadm (by simpa [timeoutKind] using hq), ?_⟩
        simpa [HoldsTimeouts, Table.get?_set] using HoldsSummary.summary hhigh
    · simp only [ha]
      exact ⟨_, .refused fun h => ha ((admits_timeouts E).mpr h), hxs⟩
  collect_other timeouts v w x xs hw hxs := by
    simp only [timeoutStep, TimeoutCollector.collect]
    split
    · split <;> simpa [HoldsTimeouts, Table.get?_erase, Table.get?_set, hw] using hxs
    · exact hxs
  prune timeouts w v xs hxs := by
    have hget := Table.get?_filter (fun v : View => w ≤ v) timeouts v
    simp only [HoldsTimeouts, timeoutStep, TimeoutCollector.pruneBelow, hget, timeoutKind]
    by_cases hw : v < w
    · simp [hw, not_le_of_lt hw, HoldsSummary.nothing]
    · simpa [hw, le_of_not_lt hw] using (show HoldsSummary _ _ from hxs)
  unique v xs c c' h h' := Prod.ext (h.1.trans h'.1.symm) (h.2.unique h'.2)

structure Collecting (E : Electorate) : Prop where
  votes : ∀ calls k s,
    (voteKind E).Exact CertifiesVotes (CollectorRun.run (voteStep E) [] calls).past k s
    (VoteCollector.collect E k.1 k.2 s (CollectorRun.run (voteStep E) [] calls).state).1
  votes_apart : ∀ calls calls' k s,
    calls.filter ((voteKind E).concerns k) = calls'.filter ((voteKind E).concerns k) →
    (VoteCollector.collect E k.1 k.2 s (CollectorRun.run (voteStep E) [] calls).state).1 =
      (VoteCollector.collect E k.1 k.2 s (CollectorRun.run (voteStep E) [] calls').state).1
  timeouts : ∀ calls v x, (timeoutKind E).Exact CertifiesTimeouts
    (CollectorRun.run (timeoutStep E) [] calls).past v x
    (TimeoutCollector.collect E v x.1 x.2 (CollectorRun.run (timeoutStep E) [] calls).state).1
  timeouts_apart : ∀ calls calls' v (x : Signature × QuorumCertificate),
    calls.filter ((timeoutKind E).concerns v) = calls'.filter ((timeoutKind E).concerns v) →
    (TimeoutCollector.collect E v x.1 x.2 (CollectorRun.run (timeoutStep E) [] calls).state).1 =
      (TimeoutCollector.collect E v x.1 x.2 (CollectorRun.run (timeoutStep E) [] calls').state).1

theorem collectors_exact (E : Electorate) (hq : 0 < E.quorum) : Collecting E where
  votes calls k s := (collectsByKey_votes E).exact holdsVotes_nil hq calls k s
  votes_apart _ _ _ s h := (collectsByKey_votes E).independent holdsVotes_nil h s
  timeouts calls v x := (collectsByKey_timeouts E).exact holdsTimeouts_nil hq calls v x
  timeouts_apart _ _ _ x h := (collectsByKey_timeouts E).independent holdsTimeouts_nil h x

theorem collectors_exact_of_two : 0 < 2 ∧ Collecting ⟨[.ofNat 0, .ofNat 1, .ofNat 2], 2⟩ :=
  ⟨by decide, collectors_exact ⟨[.ofNat 0, .ofNat 1, .ofNat 2], 2⟩ (by decide)⟩

/-- The second vote of a twin pair counts for nothing. -/
example (b b' : SignatureBytes) :
    (CollectorRun.run (voteStep ⟨[.ofNat 0, .ofNat 1], 2⟩) []
      [.collect (.zero, .zero) ⟨.ofNat 0, b⟩, .collect (.zero, .zero) ⟨.ofNat 0, b'⟩,
        .collect (.zero, .zero) ⟨.ofNat 1, b'⟩]).past.map (·.2) =
      [none, none, some ⟨.zero, .zero, [⟨.ofNat 0, b⟩, ⟨.ofNat 1, b'⟩]⟩] := rfl

end Instances

end Equivocation.Proofs.Collectors
