import Equivocation.Proofs.FaultLogs
import Mathlib.Algebra.BigOperators.Group.List.Lemmas
import Mathlib.Algebra.Group.Nat.Defs
import Mathlib.Algebra.Group.Prod
import Mathlib.Algebra.GroupWithZero.Nat
import Mathlib.Data.List.Induction
import Mathlib.Data.Prod.Lex

namespace Equivocation.Proofs.Merging

open FaultLog FaultLogs

structure Occurrence where
  fault : Fault
  step : String
  offending : Message
  seed : Option Nat

inductive Note where
  | occurrence (o : Occurrence)
  | counts (scenarios failedScenarios messages failedMessages : Nat)

def note (log : FaultLog) : Note → FaultLog
  | .occurrence o => log.record o.fault o.step o.offending o.seed
  | .counts scenarios failedScenarios messages failedMessages =>
    log.count scenarios failedScenarios messages failedMessages

def logOf (notes : List Note) : FaultLog := notes.foldl note {}

def Note.occurrence? : Note → Option Occurrence
  | occurrence o => some o
  | counts .. => none

def occurrences (notes : List Note) : List Occurrence := notes.filterMap Note.occurrence?

inductive Merged : List (List Note) → FaultLog → Prop
  | fresh : Merged [] {}
  | part (notes : List Note) : Merged [notes] (logOf notes)
  | merge {parts parts' : List (List Note)} {log log' : FaultLog} (first : Merged parts log)
      (second : Merged parts' log') : Merged (parts ++ parts') (log.merge log')

def identity (r : FaultRecord) : String × String × String := (r.location, r.text, r.step)

/-- Renderings are compared by their lines, then by their bytes. -/
def weight (r : FaultRecord) : Nat ×ₗ Nat := toLex r.size

namespace Occurrence

def toRecord (o : Occurrence) (n : Nat) : FaultRecord :=
  { FaultRecord.once o.fault o.step o.offending o.seed with occurrences := n }

def identity (o : Occurrence) : String × String × String := (o.fault.location, o.fault.text, o.step)

def weight (o : Occurrence) : Nat ×ₗ Nat := Merging.weight (o.toRecord 1)

/-- The text may have many lines, but not what stands around it in a key. -/
def Plain (o : Occurrence) : Prop :=
  '\n' ∉ o.fault.location.toList ∧ '\n' ∉ o.step.toList

end Occurrence

/-- A record is that of the earliest of the smallest occurrences, and counts them all. -/
def Stands (os : List Occurrence) (r : FaultRecord) : Prop :=
  ∃ before o after, os = before ++ o :: after ∧ r = o.toRecord os.length ∧
    (∀ b ∈ before, o.weight < b.weight) ∧ ∀ a ∈ after, o.weight ≤ a.weight

structure Summary (os : List Occurrence) (log : FaultLog) : Prop where
  distinct : (log.records.map identity).Nodup
  complete : ∀ i, i ∈ log.records.map identity ↔ i ∈ os.map Occurrence.identity
  stands : ∀ r ∈ log.records, Stands (os.filter (·.identity = identity r)) r
  errors : log.errors = (log.records.map (·.occurrences)).sum

/-- What does not depend on the order of the occurrences. -/
def outline (r : FaultRecord) : (String × String × String) × Nat × Nat × Nat :=
  (identity r, r.occurrences, r.size)

def tally (log : FaultLog) : Nat × Nat × Nat × Nat × Nat :=
  (log.totalScenarios, log.failedScenarios, log.totalMessages, log.failedMessages, log.errors)

structure SameSummary (log log' : FaultLog) : Prop where
  records : log.records.map outline = log'.records.map outline
  tallies : tally log = tally log'

structure BuiltInParts : Prop where
  summary : ∀ notes, (∀ o ∈ occurrences notes, o.Plain) → Summary (occurrences notes) (logOf notes)
  merged : ∀ parts log, Merged parts log → log = logOf parts.flatten
  assoc : ∀ notes notes' notes'', ((logOf notes).merge (logOf notes')).merge (logOf notes'') =
    (logOf notes).merge ((logOf notes').merge (logOf notes''))
  unit : ∀ notes, (logOf notes).merge {} = logOf notes ∧
    ({} : FaultLog).merge (logOf notes) = logOf notes
  reordered : ∀ parts parts' log log', parts.Perm parts' → Merged parts log → Merged parts' log' →
    (∀ o ∈ occurrences parts.flatten, o.Plain) → SameSummary log log'

variable {a b r : FaultRecord} {t t' : Table String FaultRecord} {log log' log'' : FaultLog}
  {o : Occurrence} {os os' : List Occurrence} {notes notes' : List Note} {parts : List (List Note)}

section Absorbing

theorem smaller_iff : a.smaller b = true ↔ weight a < weight b := by
  unfold FaultRecord.smaller weight
  rw [Prod.Lex.toLex_lt_toLex, Bool.or_eq_true, Bool.and_eq_true, decide_eq_true_iff,
    decide_eq_true_iff, decide_eq_true_iff]

def counted (r : FaultRecord) (n : Nat) : FaultRecord := { r with occurrences := n }

theorem absorb_of_lt (h : weight b < weight a) (m n : Nat) :
    (counted a m).absorb (counted b n) = counted b (m + n) := by
  have hlt : (counted b n).smaller (counted a m) = true := smaller_iff.mpr h
  unfold FaultRecord.absorb
  rw [if_pos hlt]
  rfl

theorem absorb_of_le (h : weight a ≤ weight b) (m n : Nat) :
    (counted a m).absorb (counted b n) = counted a (m + n) := by
  have hle : ¬ (counted b n).smaller (counted a m) = true :=
    fun hlt => not_lt_of_ge h (smaller_iff.mp hlt)
  unfold FaultRecord.absorb
  rw [if_neg hle]
  rfl

theorem absorb_assoc (a b c : FaultRecord) : (a.absorb b).absorb c = a.absorb (b.absorb c) := by
  have hassoc : ∀ l m n, ((counted a l).absorb (counted b m)).absorb (counted c n) =
      (counted a l).absorb ((counted b m).absorb (counted c n)) := by
    intro l m n
    obtain hab | hab := lt_or_ge (weight b) (weight a)
    · obtain hbc | hbc := lt_or_ge (weight c) (weight b)
      · have hac := lt_trans hbc hab
        rw [absorb_of_lt hab, absorb_of_lt hbc, absorb_of_lt hbc, absorb_of_lt hac, Nat.add_assoc]
      · rw [absorb_of_lt hab, absorb_of_le hbc, absorb_of_le hbc, absorb_of_lt hab, Nat.add_assoc]
    · obtain hbc | hbc := lt_or_ge (weight c) (weight b)
      · rw [absorb_of_le hab, absorb_of_lt hbc]
        obtain hac | hac := lt_or_ge (weight c) (weight a)
        · rw [absorb_of_lt hac, absorb_of_lt hac, Nat.add_assoc]
        · rw [absorb_of_le hac, absorb_of_le hac, Nat.add_assoc]
      · have hac := le_trans hab hbc
        rw [absorb_of_le hab, absorb_of_le hbc, absorb_of_le hac, absorb_of_le hab, Nat.add_assoc]
  exact hassoc a.occurrences b.occurrences c.occurrences

instance : Std.Associative FaultRecord.absorb := ⟨absorb_assoc⟩

theorem merge_absorb_assoc (x y z : Option FaultRecord) :
    ((x.merge FaultRecord.absorb y).merge FaultRecord.absorb z) =
      x.merge FaultRecord.absorb (y.merge FaultRecord.absorb z) :=
  (Option.associative_merge FaultRecord.absorb).assoc x y z

theorem key_absorb (h : b.key = a.key) : (a.absorb b).key = a.key := by
  change ((counted a a.occurrences).absorb (counted b b.occurrences)).key = a.key
  obtain hlt | hle := lt_or_ge (weight b) (weight a)
  · rw [absorb_of_lt hlt]
    exact h
  · rw [absorb_of_le hle]
    rfl

end Absorbing

section Tables

structure KeyedTable (t : Table String FaultRecord) : Prop where
  ascending : KeysAscend t
  keyed : ∀ e ∈ t, e.2.key = e.1

theorem get?_insert (t : Table String FaultRecord) (r : FaultRecord) (k : String) :
    (FaultLog.insert t r).get? k =
      if k = r.key then (t.get? k).merge FaultRecord.absorb (some r) else t.get? k := by
  unfold FaultLog.insert
  rw [get?_setSorted]
  by_cases hk : k = r.key
  · rw [if_pos hk, if_pos hk, hk]
    cases t.get? r.key <;> rfl
  · rw [if_neg hk, if_neg hk]

theorem KeyedTable.insert (h : KeyedTable t) (r : FaultRecord) :
    KeyedTable (FaultLog.insert t r) where
  ascending := keysAscend_setSorted h.ascending _ _
  keyed e he := by
    obtain rfl | he := mem_setSorted he
    · dsimp only
      cases hr : t.get? r.key with
      | none => rfl
      | some r' =>
        have hkey := h.keyed _ ((get?_eq_some h.ascending).mp hr)
        exact (key_absorb hkey.symm).trans hkey
    · exact h.keyed e he

theorem KeyedTable.inserted (h : KeyedTable t) (rs : List FaultRecord) :
    KeyedTable (rs.foldl FaultLog.insert t) := by
  induction rs generalizing t with
  | nil => exact h
  | cons r rs ih => exact ih (h.insert r)

theorem get?_inserted (h : KeyedTable t') (t : Table String FaultRecord) (k : String) :
    ((t'.map (·.2)).foldl FaultLog.insert t).get? k =
      (t.get? k).merge FaultRecord.absorb (t'.get? k) := by
  induction t' generalizing t with
  | nil => exact Option.merge_none_right.symm
  | cons e t' ih =>
    obtain ⟨he, ht⟩ := List.pairwise_cons.mp h.ascending
    have hkey := h.keyed e List.mem_cons_self
    have hkept : KeyedTable t' := ⟨ht, fun e' he' => h.keyed e' (List.mem_cons_of_mem _ he')⟩
    rw [List.map_cons, List.foldl_cons, ih hkept, get?_insert, Table.get?_cons, hkey]
    by_cases hk : k = e.1
    · have hno : Table.get? t' k = none := by
        cases hx : Table.get? t' k with
        | none => rfl
        | some x =>
          have hlt := he _ ((get?_eq_some ht).mp hx)
          exact absurd (hk ▸ hlt) (String.lt_irrefl _)
      rw [if_pos hk, if_pos hk.symm, hno, Option.merge_none_right]
    · rw [if_neg hk, if_neg (Ne.symm hk)]

end Tables

section Laws

theorem keyedTable_merge (h : KeyedTable log.faults) (log' : FaultLog) :
    KeyedTable (log.merge log').faults :=
  h.inserted _

theorem keyedTable_note (h : KeyedTable log.faults) (n : Note) :
    KeyedTable (note log n).faults := by
  cases n with
  | occurrence o => exact h.insert (o.toRecord 1)
  | counts => exact h

theorem keyedTable_fresh : KeyedTable ({} : FaultLog).faults := ⟨.nil, nofun⟩

theorem logOf_concat (notes : List Note) (n : Note) :
    logOf (notes ++ [n]) = note (logOf notes) n := List.foldl_concat ..

theorem keyedTable_logOf (notes : List Note) : KeyedTable (logOf notes).faults := by
  induction notes using List.reverseRecOn with
  | nil => exact keyedTable_fresh
  | append_singleton notes n ih =>
    rw [logOf_concat]
    exact keyedTable_note ih n

theorem eq_of_tally (ht : tally log = tally log') (hf : log.faults = log'.faults) : log = log' := by
  cases log
  cases log'
  simp only [tally, Prod.mk.injEq] at ht
  simp only [FaultLog.mk.injEq]
  exact ⟨hf, ht⟩

theorem merge_assoc (h : KeyedTable log.faults) (h' : KeyedTable log'.faults)
    (h'' : KeyedTable log''.faults) :
    (log.merge log').merge log'' = log.merge (log'.merge log'') := by
  refine eq_of_tally ?_ ?_
  · change tally log + tally log' + tally log'' = tally log + (tally log' + tally log'')
    exact add_assoc _ _ _
  · refine keysAscend_ext (keyedTable_merge (keyedTable_merge h log') log'').ascending
      (keyedTable_merge h (log'.merge log'')).ascending fun k => ?_
    unfold merge
    dsimp only
    rw [get?_inserted h'', get?_inserted h', get?_inserted (h'.inserted _), get?_inserted h'',
      merge_absorb_assoc]

theorem merge_fresh (log : FaultLog) : log.merge {} = log := rfl

theorem fresh_merge (h : KeyedTable log.faults) : ({} : FaultLog).merge log = log := by
  refine eq_of_tally (zero_add (tally log)) ?_
  refine keysAscend_ext (keyedTable_merge keyedTable_fresh log).ascending h.ascending fun k => ?_
  unfold merge
  dsimp only
  rw [get?_inserted h]
  exact Option.merge_none_left

theorem note_eq_merge (log : FaultLog) (n : Note) : note log n = log.merge (logOf [n]) := by
  refine eq_of_tally ?_ ?_
  · cases n <;> simp [note, logOf, tally, merge, record, count]
  · cases n <;> rfl

theorem foldl_note (h : KeyedTable log.faults) (notes : List Note) :
    notes.foldl note log = log.merge (logOf notes) := by
  induction notes using List.reverseRecOn with
  | nil => rfl
  | append_singleton notes n ih =>
    rw [List.foldl_concat, logOf_concat, ih, note_eq_merge, note_eq_merge (logOf notes),
      merge_assoc h (keyedTable_logOf notes) (keyedTable_logOf [n])]

theorem logOf_append (notes notes' : List Note) :
    logOf (notes ++ notes') = (logOf notes).merge (logOf notes') := by
  rw [← foldl_note (keyedTable_logOf notes)]
  exact List.foldl_append

theorem Merged.eq_logOf (h : Merged parts log) : log = logOf parts.flatten := by
  induction h with
  | fresh => rfl
  | part notes => rw [List.flatten_singleton]
  | merge first second ih ih' => rw [List.flatten_append, logOf_append, ← ih, ← ih']

end Laws

section Keys

variable {α : Type} {x : α} {xs xs' ys ys' : List α}

theorem append_cons_inj_of_first (h : x ∉ xs) (h' : x ∉ xs')
    (he : xs ++ x :: ys = xs' ++ x :: ys') : xs = xs' ∧ ys = ys' := by
  obtain ⟨zs, rfl, hz⟩ | ⟨zs, rfl, hz⟩ := List.append_eq_append_iff.mp he
  · cases zs with
    | nil => exact ⟨(List.append_nil xs).symm, (List.cons.inj hz).2⟩
    | cons z zs =>
      obtain rfl := (List.cons.inj hz).1
      exact absurd (List.mem_append_right _ List.mem_cons_self) h'
  · cases zs with
    | nil => exact ⟨List.append_nil xs', (List.cons.inj hz).2.symm⟩
    | cons z zs =>
      obtain rfl := (List.cons.inj hz).1
      exact absurd (List.mem_append_right _ List.mem_cons_self) h

theorem append_cons_inj_of_last (h : x ∉ ys) (h' : x ∉ ys')
    (he : xs ++ x :: ys = xs' ++ x :: ys') : xs = xs' ∧ ys = ys' := by
  have hr := congrArg List.reverse he
  rw [List.reverse_append, List.reverse_append, List.reverse_cons, List.reverse_cons,
    List.append_assoc, List.append_assoc] at hr
  obtain ⟨hy, hx⟩ := append_cons_inj_of_first (List.mem_reverse.not.mpr h)
    (List.mem_reverse.not.mpr h') hr
  exact ⟨List.reverse_injective hx, List.reverse_injective hy⟩

theorem toList_key (r : FaultRecord) : r.key.toList =
    ("error location:\t".toList ++ r.location.toList) ++ '\n' ::
      (("error info:\t".toList ++ r.text.toList) ++ '\n' ::
        ("recovered from:\t".toList ++ r.step.toList)) := by
  unfold FaultRecord.key
  simp [toString]

/-- Where the location and the step have no line breaks, the text is all that lies between the first
and the last one, whatever it looks like. -/
theorem identity_eq_of_key_eq (ha : '\n' ∉ a.location.toList ∧ '\n' ∉ a.step.toList)
    (hb : '\n' ∉ b.location.toList ∧ '\n' ∉ b.step.toList) (h : a.key = b.key) :
    identity a = identity b := by
  have hbare : ∀ {label s : String}, '\n' ∉ label.toList → '\n' ∉ s.toList →
      '\n' ∉ label.toList ++ s.toList :=
    fun hl hs hm => (List.mem_append.mp hm).elim hl hs
  have hk := congrArg String.toList h
  rw [toList_key, toList_key] at hk
  obtain ⟨hloc, hk⟩ := append_cons_inj_of_first (hbare (by decide) ha.1) (hbare (by decide) hb.1) hk
  obtain ⟨htext, hstep⟩ :=
    append_cons_inj_of_last (hbare (by decide) ha.2) (hbare (by decide) hb.2) hk
  have hloc := String.toList_inj.mp (List.append_cancel_left hloc)
  have htext := String.toList_inj.mp (List.append_cancel_left htext)
  have hstep := String.toList_inj.mp (List.append_cancel_left hstep)
  unfold identity
  rw [hloc, htext, hstep]

theorem key_eq_of_identity_eq (h : identity a = identity b) : a.key = b.key := by
  obtain ⟨hloc, htext, hstep⟩ : a.location = b.location ∧ a.text = b.text ∧ a.step = b.step := by
    simpa [identity] using h
  unfold FaultRecord.key
  rw [hloc, htext, hstep]

theorem key_eq_iff {m n : Nat} {o' : Occurrence} (h : o.Plain) (h' : o'.Plain) :
    (o.toRecord m).key = (o'.toRecord n).key ↔ o.identity = o'.identity :=
  ⟨identity_eq_of_key_eq h h', key_eq_of_identity_eq (a := o.toRecord m) (b := o'.toRecord n)⟩

end Keys

section Summaries

inductive RecordFor : List Occurrence → Option FaultRecord → Prop
  | absent : RecordFor [] none
  | present {os : List Occurrence} {r : FaultRecord} (h : Stands os r) : RecordFor os (some r)

theorem stands_single (o : Occurrence) : Stands [o] (o.toRecord 1) :=
  ⟨[], o, [], rfl, rfl, nofun, nofun⟩

theorem Stands.absorb (h : Stands os r) (o : Occurrence) :
    Stands (os ++ [o]) (r.absorb (o.toRecord 1)) := by
  obtain ⟨before, o', after, rfl, rfl, hb, ha⟩ := h
  have hlen : (before ++ o' :: after ++ [o]).length = (before ++ o' :: after).length + 1 :=
    List.length_append
  obtain hlt | hle := lt_or_ge o.weight o'.weight
  · refine ⟨before ++ o' :: after, o, [], rfl, ?_, fun b hb' => ?_, nofun⟩
    · rw [hlen]
      exact absorb_of_lt hlt _ 1
    · obtain hb' | hb' := List.mem_append.mp hb'
      · exact lt_trans hlt (hb b hb')
      · obtain rfl | hb' := List.mem_cons.mp hb'
        · exact hlt
        · exact lt_of_lt_of_le hlt (ha b hb')
  · refine ⟨before, o', after ++ [o], by simp, ?_, hb, fun a ha' => ?_⟩
    · rw [hlen]
      exact absorb_of_le hle _ 1
    · obtain ha' | ha' := List.mem_append.mp ha'
      · exact ha a ha'
      · rw [List.mem_singleton.mp ha']
        exact hle

theorem RecordFor.absorb {r? : Option FaultRecord} (h : RecordFor os r?) (o : Occurrence) :
    RecordFor (os ++ [o]) (r?.merge FaultRecord.absorb (some (o.toRecord 1))) := by
  cases h with
  | absent => exact .present (stands_single o)
  | present h => exact .present (h.absorb o)

theorem RecordFor.stands (h : RecordFor os (some r)) : Stands os r := by
  cases h with
  | present h => exact h

theorem RecordFor.found {r? : Option FaultRecord} (h : RecordFor os r?) (ho : o ∈ os) :
    ∃ r, r? = some r ∧ Stands os r := by
  cases h with
  | absent => cases ho
  | present h => exact ⟨_, rfl, h⟩

theorem occurrences_append (notes notes' : List Note) :
    occurrences (notes ++ notes') = occurrences notes ++ occurrences notes' := List.filterMap_append

theorem recordFor_logOf (notes : List Note) (k : String) :
    RecordFor ((occurrences notes).filter fun o => (o.toRecord 1).key = k)
      ((logOf notes).faults.get? k) := by
  induction notes using List.reverseRecOn with
  | nil => exact .absent
  | append_singleton notes n ih =>
    rw [logOf_concat, occurrences_append, List.filter_append]
    cases n with
    | counts =>
      rw [show occurrences [Note.counts _ _ _ _] = [] from rfl, List.filter_nil, List.append_nil]
      exact ih
    | occurrence o =>
      change RecordFor (_ ++ [o].filter _)
        ((FaultLog.insert (logOf notes).faults (o.toRecord 1)).get? k)
      rw [get?_insert]
      by_cases hk : (o.toRecord 1).key = k
      · rw [if_pos hk.symm, List.filter_cons_of_pos (by simpa using hk)]
        exact ih.absorb o
      · rw [if_neg (Ne.symm hk), List.filter_cons_of_neg (by simpa using hk), List.filter_nil,
          List.append_nil]
        exact ih

theorem mem_records (h : KeyedTable log.faults) :
    r ∈ log.records ↔ log.faults.get? r.key = some r := by
  rw [get?_eq_some h.ascending, FaultLog.records, List.mem_map]
  refine ⟨?_, fun he => ⟨_, he, rfl⟩⟩
  rintro ⟨e, he, rfl⟩
  rwa [h.keyed e he]

theorem Stands.smallest (h : Stands os r) :
    ∃ o ∈ os, r = o.toRecord os.length ∧ ∀ o' ∈ os, o.weight ≤ o'.weight := by
  obtain ⟨before, o, after, rfl, rfl, hb, ha⟩ := h
  refine ⟨o, List.mem_append_right _ List.mem_cons_self, rfl, fun o' ho' => ?_⟩
  obtain ho' | ho' := List.mem_append.mp ho'
  · exact le_of_lt (hb o' ho')
  · obtain rfl | ho' := List.mem_cons.mp ho'
    · exact le_rfl
    · exact ha o' ho'

theorem keys_nodup (notes : List Note) : ((logOf notes).records.map FaultRecord.key).Nodup := by
  have hk := keyedTable_logOf notes
  have hkeys : (logOf notes).records.map FaultRecord.key = (logOf notes).faults.map (·.1) := by
    rw [FaultLog.records, List.map_map]
    exact List.map_congr_left hk.keyed
  rw [hkeys]
  exact nodup_keys hk.ascending

theorem identities_nodup (notes : List Note) : ((logOf notes).records.map identity).Nodup := by
  refine List.pairwise_map.mpr ((List.pairwise_map.mp (keys_nodup notes)).imp fun hne hi => ?_)
  exact hne (key_eq_of_identity_eq hi)

theorem stands_of_mem (hr : r ∈ (logOf notes).records) :
    Stands ((occurrences notes).filter fun o => (o.toRecord 1).key = r.key) r := by
  have he := recordFor_logOf notes r.key
  rw [(mem_records (keyedTable_logOf notes)).mp hr] at he
  exact he.stands

theorem exists_mem_records (ho : o ∈ occurrences notes) :
    ∃ r ∈ (logOf notes).records, r.key = (o.toRecord 1).key := by
  have hm : o ∈ (occurrences notes).filter fun o' => (o'.toRecord 1).key = (o.toRecord 1).key :=
    List.mem_filter.mpr ⟨ho, decide_eq_true rfl⟩
  obtain ⟨r, hr, hs⟩ := (recordFor_logOf notes (o.toRecord 1).key).found hm
  obtain ⟨o', ho', hro, -⟩ := hs.smallest
  have hk : r.key = (o.toRecord 1).key := by
    rw [hro]
    exact of_decide_eq_true (List.mem_filter.mp ho').2
  exact ⟨r, (mem_records (keyedTable_logOf notes)).mpr (hk ▸ hr), hk⟩

theorem occurrences_of_mem (hr : r ∈ (logOf notes).records) :
    r.occurrences = (occurrences notes).countP fun o => (o.toRecord 1).key = r.key := by
  obtain ⟨o, -, hro, -⟩ := (stands_of_mem hr).smallest
  rw [List.countP_eq_length_filter]
  exact congrArg FaultRecord.occurrences hro

theorem keys_complete (k : String) : k ∈ (logOf notes).records.map FaultRecord.key ↔
    k ∈ (occurrences notes).map fun o => (o.toRecord 1).key := by
  rw [List.mem_map, List.mem_map]
  constructor
  · rintro ⟨r, hr, rfl⟩
    obtain ⟨o, ho, -⟩ := (stands_of_mem hr).smallest
    obtain ⟨ho, hk⟩ := List.mem_filter.mp ho
    exact ⟨o, ho, of_decide_eq_true hk⟩
  · rintro ⟨o, ho, rfl⟩
    exact exists_mem_records ho

theorem errors_logOf (notes : List Note) : (logOf notes).errors = (occurrences notes).length := by
  induction notes using List.reverseRecOn with
  | nil => rfl
  | append_singleton notes n ih =>
    rw [logOf_concat, occurrences_append, List.length_append, ← ih]
    cases n <;> rfl

theorem sum_countP_of_nodup {α : Type} [DecidableEq α] {xs ys : List α} (hnodup : xs.Nodup)
    (h : ∀ x, x ∈ xs ↔ x ∈ ys) : (xs.map fun x => ys.countP (· = x)).sum = ys.length := by
  have hperm : xs.Perm ys.dedup :=
    (List.perm_ext_iff_of_nodup hnodup (List.nodup_dedup ys)).mpr fun x => by
      rw [List.mem_dedup, h]
  rw [(hperm.map _).sum_eq]
  exact List.sum_map_count_dedup_eq_length ys

/-- Keys need not tell faults apart for every occurrence to be counted in one record. -/
theorem occurrences_sum (notes : List Note) :
    ((logOf notes).records.map (·.occurrences)).sum = (occurrences notes).length := by
  have hsum := sum_countP_of_nodup (keys_nodup notes) keys_complete
  rw [List.map_map, List.length_map] at hsum
  rw [← hsum]
  refine congrArg List.sum (List.map_congr_left fun r hr => ?_)
  rw [occurrences_of_mem hr, Function.comp_apply, List.countP_map]
  rfl

variable (hplain : ∀ o ∈ occurrences notes, o.Plain)
include hplain

theorem mem_records_of_plain (hr : r ∈ (logOf notes).records) :
    ∃ o ∈ occurrences notes, identity r = o.identity ∧
      Stands ((occurrences notes).filter (·.identity = o.identity)) r := by
  have hs := stands_of_mem hr
  obtain ⟨o, ho, hro, -⟩ := hs.smallest
  have ho := (List.mem_filter.mp ho).1
  have hk : r.key = (o.toRecord 1).key := by
    rw [hro]
    rfl
  rw [hk, List.filter_congr fun o' ho' =>
    decide_eq_decide.mpr (key_eq_iff (hplain o' ho') (hplain o ho))] at hs
  exact ⟨o, ho, congrArg identity hro, hs⟩

theorem identities_complete (i : String × String × String) :
    i ∈ (logOf notes).records.map identity ↔ i ∈ (occurrences notes).map Occurrence.identity := by
  rw [List.mem_map, List.mem_map]
  constructor
  · rintro ⟨r, hr, rfl⟩
    obtain ⟨o, ho, hi, -⟩ := mem_records_of_plain hplain hr
    exact ⟨o, ho, hi.symm⟩
  · rintro ⟨o, ho, rfl⟩
    obtain ⟨r, hr, hk⟩ := exists_mem_records ho
    obtain ⟨o', ho', hi, -⟩ := mem_records_of_plain hplain hr
    have hk' : r.key = (o'.toRecord 1).key := key_eq_of_identity_eq (b := o'.toRecord 1) hi
    have hi' := (key_eq_iff (hplain o' ho') (hplain o ho)).mp (hk'.symm.trans hk)
    exact ⟨r, hr, hi.trans hi'⟩

theorem summary_logOf : Summary (occurrences notes) (logOf notes) where
  distinct := identities_nodup notes
  complete := identities_complete hplain
  stands r hr := by
    obtain ⟨o, -, hi, hs⟩ := mem_records_of_plain hplain hr
    rw [hi]
    exact hs
  errors := (errors_logOf notes).trans (occurrences_sum notes).symm

end Summaries

section Orders

theorem tally_logOf (notes : List Note) :
    tally (logOf notes) = (notes.map fun n => tally (logOf [n])).sum := by
  induction notes with
  | nil => rfl
  | cons n notes ih =>
    rw [List.map_cons, List.sum_cons, ← ih, ← List.singleton_append, logOf_append]
    rfl

theorem outline_of_perm (h : os.Perm os') {r r' : FaultRecord} (hr : Stands os r)
    (hr' : Stands os' r') (hi : ∀ o ∈ os, ∀ o' ∈ os, o.identity = o'.identity) :
    outline r = outline r' := by
  obtain ⟨o, ho, rfl, hmin⟩ := hr.smallest
  obtain ⟨o', ho', rfl, hmin'⟩ := hr'.smallest
  have ho' := h.mem_iff.mpr ho'
  have hweight : o.weight = o'.weight :=
    le_antisymm (hmin o' ho') (hmin' o (h.mem_iff.mp ho))
  have hsize : (o.toRecord os.length).size = (o'.toRecord os'.length).size :=
    congrArg ofLex hweight
  have hid : identity (o.toRecord os.length) = identity (o'.toRecord os'.length) := hi o ho o' ho'
  unfold outline
  rw [hid, hsize]
  exact congrArg (fun n => (_, n, _)) h.length_eq

theorem RecordFor.outline_eq {r? r?' : Option FaultRecord} (hr : RecordFor os r?)
    (hr' : RecordFor os' r?')
    (h : os.Perm os') (hi : ∀ o ∈ os, ∀ o' ∈ os, o.identity = o'.identity) :
    r?.map outline = r?'.map outline := by
  cases hr with
  | absent =>
    obtain rfl := h.nil_eq
    cases hr' with
    | absent => rfl
    | present hs => exact absurd hs.smallest nofun
  | present hs =>
    obtain ⟨o, ho, -⟩ := hs.smallest
    obtain ⟨r', rfl, hs'⟩ := hr'.found (h.mem_iff.mp ho)
    exact congrArg some (outline_of_perm h hs hs' hi)

theorem sameSummary_of_perm (h : notes.Perm notes') (hplain : ∀ o ∈ occurrences notes, o.Plain) :
    SameSummary (logOf notes) (logOf notes') where
  tallies := by
    rw [tally_logOf, tally_logOf]
    exact (h.map _).sum_eq
  records := by
    have hget : ∀ k, ((logOf notes).faults.get? k).map outline =
        ((logOf notes').faults.get? k).map outline := by
      intro k
      refine (recordFor_logOf notes k).outline_eq (recordFor_logOf notes' k)
        ((h.filterMap _).filter _) ?_
      intro o ho o' ho'
      obtain ⟨ho, hk⟩ := List.mem_filter.mp ho
      obtain ⟨ho', hk'⟩ := List.mem_filter.mp ho'
      exact (key_eq_iff (hplain o ho) (hplain o' ho')).mp
        ((of_decide_eq_true hk).trans (of_decide_eq_true hk').symm)
    have htable := keysAscend_ext (keysAscend_map (keyedTable_logOf notes).ascending outline)
      (keysAscend_map (keyedTable_logOf notes').ascending outline) fun k => by
        rw [get?_map, get?_map, hget k]
    have hrecords := congrArg (List.map Prod.snd) htable
    rw [List.map_map, List.map_map] at hrecords
    rw [FaultLog.records, FaultLog.records, List.map_map, List.map_map]
    exact hrecords

end Orders

/-- Its text goes on like a key. -/
def outer : Occurrence := ⟨⟨"a:1", "b\nrecovered from:\tc", "x"⟩, "d", .newView ⟨.zero, {}⟩, none⟩

def inner : Occurrence := ⟨⟨"a:1", "b", "y"⟩, "c", .newView ⟨.zero, {}⟩, some 7⟩

end Equivocation.Proofs.Merging
