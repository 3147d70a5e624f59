import Equivocation.Proofs.Agreement
import Equivocation.Proofs.Validity
import Mathlib.Data.Finset.Card
import Mathlib.Logic.Relation

namespace Equivocation.Proofs.Transparency

open Relation SignatureCache Validity

inductive CacheCall where
  | sign (hash : Hash)
  | verify (s : Signature) (hash : Hash)
  | aggregate (ss : List Signature) (hash : Hash)
  | qc (qc : QuorumCertificate)
  | tc (tc : TimeoutCertificate)

inductive CacheAnswer where
  | signature (s : Signature)
  | verdict (valid : Bool)
deriving DecidableEq

section Reference

variable (keys : Keyring) (quorum : Nat)

def backers (ss : List Signature) (hash : Hash) : Finset Signature :=
  ss.toFinset.filter fun s => keys.verify s hash = true

def backed (ss : List Signature) (hash : Hash) : Bool :=
  decide (hash = Block.genesisHash ∨ quorum ≤ (backers keys ss hash).card)

def reference : CacheCall → CacheAnswer
  | .sign hash => .signature (keys.sign hash)
  | .verify s hash => .verdict (keys.verify s hash)
  | .aggregate ss hash => .verdict (backed keys quorum ss hash)
  | .qc qc => .verdict (qc.isGenesis || backed keys quorum qc.signatures qc.block)
  | .tc tc => .verdict (tc.view ≠ .zero && backed keys quorum tc.signatures tc.view.hash)

end Reference

/-- Signatures over one hash that are checked side by side: those that have not been looked up yet,
those that were not in the cache, and how many were valid so far. -/
structure Checks where
  waiting : List Signature
  missing : List Signature
  valid : Nat
  cache : SignatureCache

/-- The checks still to make. A signature that is not in the cache takes two. -/
def Checks.left (k : Checks) : Nat := 2 * k.waiting.length + k.missing.length

section Runs

variable (policy : CachePolicy)

/-- One of the checks moves on, any of them: between a look-up and what follows from it, others may
change the cache. -/
inductive CheckStep (hash : Hash) : Checks → Checks → Prop
  | hit (before : List Signature) {after missing : List Signature} {valid : Nat}
      {c : SignatureCache} {s : Signature} {entries : Lru (Hash × Signature)}
      (h : c.entries.promote? (hash, s) = some entries) :
    CheckStep hash ⟨before ++ s :: after, missing, valid, c⟩
      ⟨before ++ after, missing, valid + 1, { c with entries }⟩
  | miss (before : List Signature) {after missing : List Signature} {valid : Nat}
      {c : SignatureCache} {s : Signature} (h : c.entries.promote? (hash, s) = none) :
    CheckStep hash ⟨before ++ s :: after, missing, valid, c⟩
      ⟨before ++ after, s :: missing, valid, c⟩
  | accept (before : List Signature) {waiting after : List Signature} {valid : Nat}
      {c : SignatureCache} {s : Signature} (h : policy.keys.verify s hash = true) :
    CheckStep hash ⟨waiting, before ++ s :: after, valid, c⟩
      ⟨waiting, before ++ after, valid + 1,
        remember policy { c with checks := c.checks + 1 } hash s⟩
  | reject (before : List Signature) {waiting after : List Signature} {valid : Nat}
      {c : SignatureCache} {s : Signature} (h : policy.keys.verify s hash = false) :
    CheckStep hash ⟨waiting, before ++ s :: after, valid, c⟩
      ⟨waiting, before ++ after, valid, { c with checks := c.checks + 1 }⟩

/-- What the check of an aggregate may come to, and the cache after it. What is left to check once
the cached signatures are counted is checked in any order. -/
inductive Aggregated (ss : List Signature) (hash : Hash) (c : SignatureCache) :
    Bool → SignatureCache → Prop
  | genesis (hg : hash = Block.genesisHash) : Aggregated ss hash c true c
  | few (hg : hash ≠ Block.genesisHash) (h : ss.eraseDups.length < policy.quorum) :
    Aggregated ss hash c false c
  | cached (hg : hash ≠ Block.genesisHash) (hl : policy.quorum ≤ ss.eraseDups.length)
      (h : policy.quorum ≤ (lookUp hash ss.eraseDups c).1) :
    Aggregated ss hash c true (lookUp hash ss.eraseDups c).2.2
  | checked {valid : Nat} {c' : SignatureCache} (hg : hash ≠ Block.genesisHash)
      (hl : policy.quorum ≤ ss.eraseDups.length)
      (h : (lookUp hash ss.eraseDups c).1 < policy.quorum)
      (steps : ReflTransGen (CheckStep policy hash)
        ⟨(lookUp hash ss.eraseDups c).2.1, [], (lookUp hash ss.eraseDups c).1,
          (lookUp hash ss.eraseDups c).2.2⟩ ⟨[], [], valid, c'⟩) :
    Aggregated ss hash c (policy.quorum ≤ valid) c'

inductive Answered : CacheCall → SignatureCache → CacheAnswer → SignatureCache → Prop
  | sign (hash : Hash) (c : SignatureCache) :
    Answered (.sign hash) c (.signature (SignatureCache.sign policy hash c).1)
      (SignatureCache.sign policy hash c).2
  | verify (s : Signature) (hash : Hash) (c : SignatureCache) :
    Answered (.verify s hash) c (.verdict (SignatureCache.verify policy s hash c).1)
      (SignatureCache.verify policy s hash c).2
  | aggregate {ss : List Signature} {hash : Hash} {c c' : SignatureCache} {valid : Bool}
      (h : Aggregated policy ss hash c valid c') :
    Answered (.aggregate ss hash) c (.verdict valid) c'
  | genesisQc {qc : QuorumCertificate} {c : SignatureCache} (hg : qc.isGenesis = true) :
    Answered (.qc qc) c (.verdict true) c
  | qc {qc : QuorumCertificate} {c c' : SignatureCache} {valid : Bool} (hg : qc.isGenesis = false)
      (h : Aggregated policy qc.signatures qc.block c valid c') :
    Answered (.qc qc) c (.verdict valid) c'
  | initialTc {tc : TimeoutCertificate} {c : SignatureCache} (hz : tc.view = .zero) :
    Answered (.tc tc) c (.verdict false) c
  | tc {tc : TimeoutCertificate} {c c' : SignatureCache} {valid : Bool} (hz : tc.view ≠ .zero)
      (h : Aggregated policy tc.signatures tc.view.hash c valid c') :
    Answered (.tc tc) c (.verdict valid) c'

inductive History : SignatureCache → List (CacheCall × CacheAnswer) → SignatureCache → Prop
  | nil (c : SignatureCache) : History c [] c
  | cons {c c' last : SignatureCache} {call : CacheCall} {answer : CacheAnswer}
      {rest : List (CacheCall × CacheAnswer)} (first : Answered policy call c answer c')
      (later : History c' rest last) : History c ((call, answer) :: rest) last

def perform : CacheCall → SignatureCache → CacheAnswer × SignatureCache
  | .sign hash, c => (SignatureCache.sign policy hash c).map .signature id
  | .verify s hash, c => (SignatureCache.verify policy s hash c).map .verdict id
  | .aggregate ss hash, c => (verifyAggregate policy ss hash c).map .verdict id
  | .qc qc, c => (verifyQc policy qc c).map .verdict id
  | .tc tc, c => (verifyTc policy tc c).map .verdict id

def performAll : List CacheCall → SignatureCache → List (CacheCall × CacheAnswer) × SignatureCache
  | [], c => ([], c)
  | call :: calls, c =>
    let (answer, c) := perform policy call c
    let (rest, c) := performAll calls c
    ((call, answer) :: rest, c)

end Runs

variable {policy : CachePolicy} {hash : Hash} {s : Signature} {ss : List Signature}
  {c c' : SignatureCache} {k k' : Checks} {valid : Bool} {call : CacheCall} {answer : CacheAnswer}

section Distinct

theorem nodup_eraseDups {α : Type} [DecidableEq α] (xs : List α) : xs.eraseDups.Nodup := by
  induction hn : xs.length using Nat.strong_induction_on generalizing xs with
  | h n ih =>
    cases xs with
    | nil => exact List.nodup_nil
    | cons x xs =>
      have hl : (xs.filter fun y => !y == x).length < n := by
        have := List.length_filter_le (fun y => !y == x) xs
        rw [List.length_cons] at hn
        omega
      rw [List.eraseDups_cons]
      refine List.nodup_cons.mpr ⟨fun hx => ?_, ih _ hl _ rfl⟩
      simpa using (List.mem_filter.mp (List.mem_eraseDups.mp hx)).2

theorem support_eraseDups (policy : CachePolicy) (hash : Hash) (ss : List Signature) :
    support policy hash ss.eraseDups = (backers policy.keys ss hash).card := by
  have hset : ss.eraseDups.toFinset = ss.toFinset := by
    ext s
    rw [List.mem_toFinset, List.mem_toFinset, List.mem_eraseDups]
  unfold support backers
  rw [List.countP_eq_length_filter, ← hset, ← List.toFinset_filter,
    List.toFinset_card_of_nodup ((nodup_eraseDups ss).filter _)]

theorem backed_congr (keys : Keyring) (quorum : Nat) {ss ts : List Signature}
    (h : ∀ s, s ∈ ss ↔ s ∈ ts) (hash : Hash) :
    backed keys quorum ss hash = backed keys quorum ts hash := by
  have hset : ss.toFinset = ts.toFinset := by
    ext s
    rw [List.mem_toFinset, List.mem_toFinset, h]
  unfold backed backers
  rw [hset]

end Distinct

section Steps

theorem support_split (policy : CachePolicy) (hash : Hash) (before after : List Signature)
    (s : Signature) :
    support policy hash (before ++ s :: after) =
      support policy hash (before ++ after) + if policy.keys.verify s hash then 1 else 0 := by
  have hb := fun ss => @List.countP_append _ (fun s => policy.keys.verify s hash) before ss
  have hc := support_cons policy hash s after
  unfold support at hc ⊢
  rw [hb, hb, hc, Nat.add_assoc]

def Checks.tally (policy : CachePolicy) (hash : Hash) (k : Checks) : Nat :=
  k.valid + support policy hash k.waiting + support policy hash k.missing

theorem checkStep_tally (h : CheckStep policy hash k k') (ht : Truthful policy k.cache) :
    Truthful policy k'.cache ∧ k'.tally policy hash = k.tally policy hash := by
  cases h with
  | hit before h =>
    refine ⟨truthful_promote ht h, ?_⟩
    unfold Checks.tally
    rw [support_split, if_pos (ht _ _ (stored_promote h).1)]
    dsimp only
    omega
  | miss before h =>
    refine ⟨ht, ?_⟩
    unfold Checks.tally
    rw [support_split, support_cons]
    dsimp only
    omega
  | accept before h =>
    refine ⟨truthful_remember ht h, ?_⟩
    unfold Checks.tally
    rw [support_split, if_pos h]
    dsimp only
    omega
  | reject before h =>
    refine ⟨ht, ?_⟩
    unfold Checks.tally
    rw [support_split, h, if_neg Bool.false_ne_true]
    dsimp only
    omega

theorem steps_tally (h : ReflTransGen (CheckStep policy hash) k k') (ht : Truthful policy k.cache) :
    Truthful policy k'.cache ∧ k'.tally policy hash = k.tally policy hash := by
  induction h with
  | refl => exact ⟨ht, rfl⟩
  | tail _ hstep ih =>
    obtain ⟨ht', he⟩ := checkStep_tally hstep ih.1
    exact ⟨ht', he.trans ih.2⟩

theorem checkStep_left (h : CheckStep policy hash k k') : k'.left < k.left := by
  cases h <;> simp only [Checks.left, List.length_append, List.length_cons] <;> omega

theorem checkStep_acc (policy : CachePolicy) (hash : Hash) (k : Checks) :
    Acc (fun k' k => CheckStep policy hash k k') k :=
  Subrelation.accessible (fun h => checkStep_left h) ((measure Checks.left).wf.apply k)

theorem exists_checkStep (policy : CachePolicy) (hash : Hash) (h : k.left ≠ 0) :
    ∃ k', CheckStep policy hash k k' := by
  obtain ⟨waiting, missing, valid, c⟩ := k
  cases waiting with
  | cons s waiting =>
    cases hp : c.entries.promote? (hash, s) with
    | some entries => exact ⟨_, .hit [] hp⟩
    | none => exact ⟨_, .miss [] hp⟩
  | nil =>
    cases missing with
    | cons s missing =>
      cases hv : policy.keys.verify s hash with
      | true => exact ⟨_, .accept [] hv⟩
      | false => exact ⟨_, .reject [] hv⟩
    | nil => exact absurd rfl h

end Steps

section Orders

theorem steps_verify (policy : CachePolicy) (hash : Hash) (before after : List Signature)
    (valid : Nat) (c : SignatureCache) (s : Signature) :
    ReflTransGen (CheckStep policy hash) ⟨before ++ s :: after, [], valid, c⟩
      ⟨before ++ after, [], valid + (if (verify policy s hash c).1 then 1 else 0),
        (verify policy s hash c).2⟩ := by
  unfold verify
  cases hp : c.entries.promote? (hash, s) with
  | some entries => exact .single (.hit _ hp)
  | none =>
    refine .head (.miss _ hp) ?_
    dsimp only
    cases hv : policy.keys.verify s hash with
    | true => exact .single (.accept [] hv)
    | false => exact .single (.reject [] hv)

/-- To check the signatures one after the other, in any order, is one way to check them. -/
theorem steps_countValid {order waiting : List Signature} (ho : order.Perm waiting) (valid : Nat)
    (c : SignatureCache) :
    ReflTransGen (CheckStep policy hash) ⟨waiting, [], valid, c⟩
      ⟨[], [], valid + (countValid policy hash order c).1, (countValid policy hash order c).2⟩ := by
  induction order generalizing waiting valid c with
  | nil =>
    obtain rfl := ho.nil_eq
    exact .refl
  | cons s order ih =>
    obtain ⟨before, after, rfl⟩ := List.append_of_mem (ho.subset List.mem_cons_self)
    have hrest : order.Perm (before ++ after) := (ho.trans List.perm_middle).cons_inv
    refine (steps_verify policy hash before after valid c s).trans ?_
    have hi := ih hrest (valid + if (verify policy s hash c).1 then 1 else 0)
      (verify policy s hash c).2
    have he : (countValid policy hash (s :: order) c).1 =
        (if (verify policy s hash c).1 then 1 else 0) +
          (countValid policy hash order (verify policy s hash c).2).1 := by
      rw [countValid]
      dsimp only
      split <;> omega
    rw [he, ← Nat.add_assoc]
    exact hi

theorem aggregated_verifyAggregate (policy : CachePolicy) (ss : List Signature) (hash : Hash)
    (c : SignatureCache) :
    Aggregated policy ss hash c (verifyAggregate policy ss hash c).1
      (verifyAggregate policy ss hash c).2 := by
  unfold verifyAggregate
  split
  · rename_i hg
    exact .genesis hg
  · rename_i hg
    dsimp only
    split
    · rename_i hl
      exact .few hg hl
    · rename_i hl
      split
      · rename_i hc
        exact .cached hg (Nat.le_of_not_lt hl) hc
      · rename_i hc
        exact .checked hg (Nat.le_of_not_lt hl) (Nat.lt_of_not_le hc)
          (steps_countValid (.refl _) _ _)

end Orders

section Answers

theorem lookUp_support (hash : Hash) (ss : List Signature) (ht : Truthful policy c) :
    (lookUp hash ss c).1 + support policy hash (lookUp hash ss c).2.1 = support policy hash ss ∧
      Truthful policy (lookUp hash ss c).2.2 := by
  obtain ⟨hle, ht'⟩ := @lookUp_le_support policy c hash ss ht
  exact ⟨Nat.le_antisymm hle (support_le_lookUp c), ht'⟩

theorem backed_of_ne (hg : hash ≠ Block.genesisHash) :
    backed policy.keys policy.quorum ss hash =
      decide (policy.quorum ≤ support policy hash ss.eraseDups) := by
  unfold backed
  rw [support_eraseDups]
  simp [hg]

/-- In whatever order an aggregate is checked, a truthful cache counts what the scheme would. -/
theorem aggregated_eq (ht : Truthful policy c) (h : Aggregated policy ss hash c valid c') :
    valid = backed policy.keys policy.quorum ss hash ∧ Truthful policy c' := by
  have hle : support policy hash ss.eraseDups ≤ ss.eraseDups.length := List.countP_le_length
  obtain ⟨hfound, ht'⟩ := lookUp_support hash ss.eraseDups ht
  cases h with
  | genesis hg => exact ⟨(decide_eq_true (.inl hg)).symm, ht⟩
  | few hg h =>
    refine ⟨?_, ht⟩
    rw [backed_of_ne hg, decide_eq_false (by omega)]
  | cached hg hl h =>
    refine ⟨?_, ht'⟩
    rw [backed_of_ne hg, decide_eq_true (by omega)]
  | @checked valid c' hg hl h steps =>
    obtain ⟨ht', htally⟩ := steps_tally steps ht'
    have hvalid : valid = support policy hash ss.eraseDups := htally.trans hfound
    rw [backed_of_ne hg, hvalid]
    exact ⟨rfl, ht'⟩

theorem answered_perform (policy : CachePolicy) (call : CacheCall) (c : SignatureCache) :
    Answered policy call c (perform policy call c).1 (perform policy call c).2 := by
  cases call with
  | sign hash => exact .sign hash c
  | verify s hash => exact .verify s hash c
  | aggregate ss hash => exact .aggregate (aggregated_verifyAggregate policy ss hash c)
  | qc qc =>
    rw [perform, verifyQc]
    split
    · rename_i hg
      exact .genesisQc hg
    · rename_i hg
      exact .qc (Bool.eq_false_iff.mpr hg) (aggregated_verifyAggregate policy _ _ c)
  | tc tc =>
    rw [perform, verifyTc]
    split
    · rename_i hz
      exact .initialTc hz
    · rename_i hz
      exact .tc hz (aggregated_verifyAggregate policy _ _ c)

theorem history_performAll (policy : CachePolicy) (calls : List CacheCall) (c : SignatureCache) :
    (performAll policy calls c).1.map (·.1) = calls ∧
      History policy c (performAll policy calls c).1 (performAll policy calls c).2 := by
  induction calls generalizing c with
  | nil => exact ⟨rfl, .nil c⟩
  | cons call calls ih =>
    obtain ⟨hcalls, hh⟩ := ih (perform policy call c).2
    exact ⟨congrArg (call :: ·) hcalls, .cons (answered_perform policy call c) hh⟩

variable (hown : ∀ hash, policy.keys.verify (policy.keys.sign hash) hash = true)
include hown

theorem answered_eq (ht : Truthful policy c) (h : Answered policy call c answer c') :
    answer = reference policy.keys policy.quorum call ∧ Truthful policy c' := by
  cases h with
  | sign hash => exact ⟨rfl, truthful_sign ht (hown hash)⟩
  | verify s hash =>
    obtain ⟨he, ht'⟩ := @verify_eq policy c hash s ht
    exact ⟨congrArg _ he, ht'⟩
  | aggregate h =>
    obtain ⟨he, ht'⟩ := aggregated_eq ht h
    exact ⟨congrArg _ he, ht'⟩
  | genesisQc hg =>
    refine ⟨?_, ht⟩
    rw [reference, hg, Bool.true_or]
  | qc hg h =>
    obtain ⟨he, ht'⟩ := aggregated_eq ht h
    rw [reference, hg, Bool.false_or, he]
    exact ⟨rfl, ht'⟩
  | initialTc hz =>
    refine ⟨?_, ht⟩
    rw [reference, decide_eq_false (not_not_intro hz), Bool.false_and]
  | tc hz h =>
    obtain ⟨he, ht'⟩ := aggregated_eq ht h
    rw [reference, decide_eq_true hz, Bool.true_and, he]
    exact ⟨rfl, ht'⟩

theorem history_eq {history : List (CacheCall × CacheAnswer)} (ht : Truthful policy c)
    (h : History policy c history c') :
    ∀ x ∈ history, x.2 = reference policy.keys policy.quorum x.1 := by
  induction h with
  | nil => exact nofun
  | cons first later ih =>
    obtain ⟨he, ht'⟩ := answered_eq hown ht first
    intro x hx
    rcases List.mem_cons.mp hx with rfl | hx
    · exact he
    · exact ih ht' x hx

end Answers

structure Transparent (policy : CachePolicy) : Prop where
  /-- Whatever was asked before, the answers are those without a cache. -/
  answers : ∀ {history c}, History policy {} history c →
    ∀ x ∈ history, x.2 = reference policy.keys policy.quorum x.1
  /-- Every call is answered. -/
  serves : ∀ calls, (performAll policy calls {}).1.map (·.1) = calls ∧
    History policy {} (performAll policy calls {}).1 (performAll policy calls {}).2
  /-- Checks that are made side by side come to an end, and only when all are made. -/
  ends : ∀ hash k, Acc (fun k' k => CheckStep policy hash k k') k ∧
    ((∀ k', ¬ CheckStep policy hash k k') → k.waiting = [] ∧ k.missing = [])
  /-- Neither the order of signatures nor their repetition matters. -/
  unordered : ∀ {ss ts : List Signature}, (∀ s, s ∈ ss ↔ s ∈ ts) → ∀ hash,
    reference policy.keys policy.quorum (.aggregate ss hash) =
      reference policy.keys policy.quorum (.aggregate ts hash)

theorem cache_transparent
    (hown : ∀ hash, policy.keys.verify (policy.keys.sign hash) hash = true) :
    Transparent policy where
  answers h := history_eq hown truthful_empty h
  serves calls := history_performAll policy calls {}
  ends hash k := by
    refine ⟨checkStep_acc policy hash k, fun h => ?_⟩
    have hleft : k.left = 0 := by
      by_contra hne
      obtain ⟨k', hk⟩ := exists_checkStep policy hash hne
      exact h k' hk
    unfold Checks.left at hleft
    exact ⟨List.length_eq_zero_iff.mp (by omega), List.length_eq_zero_iff.mp (by omega)⟩
  unordered h hash := congrArg CacheAnswer.verdict (backed_congr _ _ h hash)

section Crowded

open Agreement (plainScheme)

def crowded : CachePolicy := ⟨⟨plainScheme, .ofNat 1, [1, 2, 3].map .ofNat⟩, 1, 2⟩

def signedBy (r : Nat) (hash : Hash) : Signature := ⟨.ofNat r, plainScheme.sign (.ofNat r) hash⟩

def forged : Signature := ⟨.ofNat 3, .fill 7⟩

def queries : List CacheCall :=
  let hash := Hash.fill 1
  [.sign hash, .aggregate [signedBy 2 hash, forged, signedBy 2 hash] hash,
    .aggregate [signedBy 1 hash, forged, signedBy 2 hash] hash, .verify (signedBy 1 hash) hash,
    .qc .genesis, .tc ⟨.zero, [1, 2, 3].map fun r => signedBy r View.zero.hash⟩]

theorem cache_transparent_crowded :
    ((performAll crowded queries {}).1.map (·.2) =
      [.signature (signedBy 1 (.fill 1)), .verdict false, .verdict true, .verdict true,
        .verdict true, .verdict false]) ∧
      (performAll crowded queries {}).2.checks = 4 := by
  have hown : ∀ hash, crowded.keys.verify (crowded.keys.sign hash) hash = true := by
    intro hash
    simp [Keyring.verify, Keyring.sign, crowded, plainScheme]
  have h := cache_transparent hown
  obtain ⟨hcalls, hh⟩ := h.serves queries
  have hanswers :=
    calc (performAll crowded queries {}).1.map (·.2)
      _ = (performAll crowded queries {}).1.map
          (reference crowded.keys crowded.quorum ∘ (·.1)) := List.map_congr_left (h.answers hh)
      _ = queries.map (reference crowded.keys crowded.quorum) := by rw [← List.map_map, hcalls]
  rw [hanswers]
  decide +kernel

end Crowded

end Equivocation.Proofs.Transparency
