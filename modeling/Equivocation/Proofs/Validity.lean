import Equivocation.Replica.State

namespace Equivocation.Proofs.Validity

section Recency

variable {κ : Type} [DecidableEq κ] {e e' : Lru κ} {k l : κ}

def Stored (e : Lru κ) (k : κ) : Prop := ∃ n, Table.get? e.stamps k = some n

theorem stored_stamp (h : Stored (e.stamp k) l) : l = k ∨ Stored e l := by
  obtain ⟨n, hn⟩ := h
  unfold Lru.stamp at hn
  rw [Table.get?_set] at hn
  split at hn
  · rename_i hl
    exact .inl hl
  · exact .inr ⟨n, hn⟩

theorem stored_promote (h : e.promote? k = some e') :
    Stored e k ∧ ∀ l, Stored e' l → Stored e l := by
  unfold Lru.promote? at h
  split at h
  · cases h
  · rename_i old hold
    cases h
    refine ⟨⟨old, hold⟩, fun l hl => ?_⟩
    rcases stored_stamp hl with rfl | hl
    · exact ⟨old, hold⟩
    · exact hl

theorem get?_evict {capacity n : Nat} {stamps : Table κ Nat} {order : Table Nat κ}
    (h : Table.get? (Lru.evict capacity stamps order).1 l = some n) :
    Table.get? stamps l = some n := by
  induction order generalizing stamps with
  | nil => exact h
  | cons x order ih =>
    unfold Lru.evict at h
    split at h
    · exact h
    · have hl := ih h
      rw [Table.get?_erase] at hl
      split at hl
      · cases hl
      · exact hl

theorem stored_insert {capacity : Nat} (h : Stored (e.insert k capacity) l) :
    l = k ∨ Stored e l := by
  unfold Lru.insert at h
  split at h
  · rename_i promoted hp
    exact .inr ((stored_promote hp).2 l h)
  · rcases stored_stamp h with rfl | ⟨n, hn⟩
    · exact .inl rfl
    · exact .inr ⟨n, get?_evict hn⟩

end Recency

section Signatures

open SignatureCache

def Truthful (policy : CachePolicy) (c : SignatureCache) : Prop :=
  ∀ hash s, Stored c.entries (hash, s) → policy.keys.verify s hash = true

def support (policy : CachePolicy) (hash : Hash) (ss : List Signature) : Nat :=
  ss.countP fun s => policy.keys.verify s hash

/-- A quorum of different signatures is valid. The genesis block needs none. -/
def Endorsed (policy : CachePolicy) (ss : List Signature) (hash : Hash) : Prop :=
  hash = Block.genesisHash ∨ policy.quorum ≤ support policy hash ss.eraseDups

variable {policy : CachePolicy} {c : SignatureCache} {hash : Hash} {s : Signature}
  {ss : List Signature}

theorem truthful_empty : Truthful policy {} := by
  rintro hash s ⟨n, hn⟩
  cases hn

theorem truthful_remember (ht : Truthful policy c) (hs : policy.keys.verify s hash = true) :
    Truthful policy (remember policy c hash s) := by
  unfold remember
  split
  · exact ht
  · intro h t hst
    rcases stored_insert hst with he | hst
    · cases he
      exact hs
    · exact ht h t hst

theorem truthful_promote {entries : Lru (Hash × Signature)} (ht : Truthful policy c)
    (h : c.entries.promote? (hash, s) = some entries) : Truthful policy { c with entries } :=
  fun g t hst => ht g t ((stored_promote h).2 _ hst)

theorem truthful_sign (ht : Truthful policy c)
    (hs : policy.keys.verify (policy.keys.sign hash) hash = true) :
    Truthful policy (SignatureCache.sign policy hash c).2 := truthful_remember ht hs

theorem verify_of_valid (c : SignatureCache) (hs : policy.keys.verify s hash = true) :
    (verify policy s hash c).1 = true := by
  unfold verify
  split
  · rfl
  · rw [if_pos hs]

theorem verify_eq (ht : Truthful policy c) :
    (verify policy s hash c).1 = policy.keys.verify s hash ∧
      Truthful policy (verify policy s hash c).2 := by
  unfold verify
  split
  · rename_i entries h
    exact ⟨(ht _ _ (stored_promote h).1).symm, truthful_promote ht h⟩
  · dsimp only
    split
    · rename_i hs
      exact ⟨hs.symm, truthful_remember ht hs⟩
    · rename_i hs
      exact ⟨(Bool.eq_false_iff.mpr hs).symm, ht⟩

theorem support_cons (policy : CachePolicy) (hash : Hash) (s : Signature) (ss : List Signature) :
    support policy hash (s :: ss) =
      support policy hash ss + if policy.keys.verify s hash then 1 else 0 := List.countP_cons

theorem support_le_lookUp (c : SignatureCache) :
    support policy hash ss ≤
      (lookUp hash ss c).1 + support policy hash (lookUp hash ss c).2.1 := by
  induction ss generalizing c with
  | nil => exact Nat.zero_le _
  | cons s ss ih =>
    rw [support_cons, lookUp]
    cases c.entries.promote? (hash, s) with
    | some entries =>
      have hi := ih { c with entries }
      dsimp only
      generalize lookUp hash ss { c with entries } = found at hi ⊢
      obtain ⟨cached, rest, c'⟩ := found
      dsimp only at hi ⊢
      split <;> omega
    | none =>
      have hi := ih c
      dsimp only
      generalize lookUp hash ss c = found at hi ⊢
      obtain ⟨cached, rest, c'⟩ := found
      dsimp only at hi ⊢
      rw [support_cons]
      omega

theorem lookUp_le_support (ht : Truthful policy c) :
    (lookUp hash ss c).1 + support policy hash (lookUp hash ss c).2.1 ≤ support policy hash ss ∧
      Truthful policy (lookUp hash ss c).2.2 := by
  induction ss generalizing c with
  | nil => exact ⟨Nat.le_refl _, ht⟩
  | cons s ss ih =>
    rw [support_cons, lookUp]
    cases h : c.entries.promote? (hash, s) with
    | some entries =>
      have hi := ih (truthful_promote ht h)
      dsimp only
      generalize lookUp hash ss { c with entries } = found at hi ⊢
      obtain ⟨cached, rest, c'⟩ := found
      rw [if_pos (ht _ _ (stored_promote h).1)]
      dsimp only at hi ⊢
      exact ⟨by omega, hi.2⟩
    | none =>
      have hi := ih ht
      dsimp only
      generalize lookUp hash ss c = found at hi ⊢
      obtain ⟨cached, rest, c'⟩ := found
      dsimp only at hi ⊢
      rw [support_cons]
      exact ⟨by omega, hi.2⟩

theorem support_le_countValid (c : SignatureCache) :
    support policy hash ss ≤ (countValid policy hash ss c).1 := by
  induction ss generalizing c with
  | nil => exact Nat.le_refl _
  | cons s ss ih =>
    have hi := ih (verify policy s hash c).2
    have hv := @verify_of_valid policy hash s c
    rw [support_cons]
    unfold countValid
    dsimp only
    split
    · rename_i hs
      rw [if_pos (hv hs)]
      omega
    · split <;> omega

theorem countValid_le_support (ht : Truthful policy c) :
    (countValid policy hash ss c).1 ≤ support policy hash ss ∧
      Truthful policy (countValid policy hash ss c).2 := by
  induction ss generalizing c with
  | nil => exact ⟨Nat.le_refl _, ht⟩
  | cons s ss ih =>
    obtain ⟨hv, ht'⟩ := @verify_eq policy c hash s ht
    obtain ⟨hi, ht''⟩ := ih ht'
    refine ⟨?_, ht''⟩
    rw [support_cons]
    unfold countValid
    dsimp only
    rw [hv]
    split <;> omega

/-- The aggregate check counts cached signatures and checks the others. It never misses a quorum,
and with a truthful cache it finds no other. -/
theorem verifyAggregate_of_endorsed (c : SignatureCache) (h : Endorsed policy ss hash) :
    (verifyAggregate policy ss hash c).1 = true := by
  unfold verifyAggregate
  split
  · rfl
  · rename_i hg
    have hq := h.resolve_left hg
    have hl : support policy hash ss.eraseDups ≤ ss.eraseDups.length := List.countP_le_length
    have hc := @support_le_lookUp policy hash ss.eraseDups c
    dsimp only
    rw [if_neg (by omega)]
    generalize lookUp hash ss.eraseDups c = found at hc ⊢
    obtain ⟨cached, rest, c'⟩ := found
    have hv := @support_le_countValid policy hash rest c'
    dsimp only at hc ⊢
    split
    · rfl
    · exact decide_eq_true (by omega)

theorem endorsed_of_verifyAggregate (ht : Truthful policy c)
    (h : (verifyAggregate policy ss hash c).1 = true) : Endorsed policy ss hash := by
  unfold verifyAggregate at h
  split at h
  · rename_i hg
    exact .inl hg
  · have hc := @lookUp_le_support policy c hash ss.eraseDups ht
    dsimp only at h
    split at h
    · cases h
    · generalize lookUp hash ss.eraseDups c = found at hc h
      obtain ⟨cached, rest, c'⟩ := found
      have hv := (@countValid_le_support policy c' hash rest hc.2).1
      right
      dsimp only at hc h
      split at h
      · omega
      · have hq := of_decide_eq_true h
        omega

theorem truthful_verifyAggregate (ht : Truthful policy c) :
    Truthful policy (verifyAggregate policy ss hash c).2 := by
  unfold verifyAggregate
  split
  · exact ht
  · obtain ⟨-, ht'⟩ := @lookUp_le_support policy c hash ss.eraseDups ht
    dsimp only
    split
    · exact ht
    · split
      · exact ht'
      · exact (countValid_le_support ht').2

end Signatures

section Certificates

open Replica

/-- Different signers, a quorum of them with valid signatures. -/
def Attested (policy : CachePolicy) (q : QuorumCertificate) : Prop :=
  q.hasDistinctSigners = true ∧ Endorsed policy q.signatures q.block

/-- The certified block, if it is stored, is of the certificate's view. -/
def Labelled (c : Chain) (q : QuorumCertificate) : Prop :=
  ∀ b, c.get? q.block = some b → b.view = q.view

def ValidQc (policy : CachePolicy) (c : Chain) (q : QuorumCertificate) : Prop :=
  Attested policy q ∧ Labelled c q

def ValidTc (policy : CachePolicy) (tc : TimeoutCertificate) : Prop :=
  tc.hasDistinctSigners = true ∧ tc.view ≠ .zero ∧ Endorsed policy tc.signatures tc.view.hash

def Valid (policy : CachePolicy) (c : Chain) (s : SyncInfo) : Prop :=
  (∀ tc, s.tc = some tc → ValidTc policy tc) ∧ ∀ q, s.qc = some q → ValidQc policy c q

variable {seat : Seat} {q : QuorumCertificate} {tc : TimeoutCertificate} {r : Replica}

theorem verifyQc_of_endorsed (c : SignatureCache) {policy : CachePolicy}
    (h : Endorsed policy q.signatures q.block) : (SignatureCache.verifyQc policy q c).1 = true := by
  unfold SignatureCache.verifyQc
  split
  · rfl
  · exact verifyAggregate_of_endorsed c h

theorem endorsed_of_verifyQc {c : SignatureCache} {policy : CachePolicy} (ht : Truthful policy c)
    (h : (SignatureCache.verifyQc policy q c).1 = true) :
    Endorsed policy q.signatures q.block := by
  unfold SignatureCache.verifyQc at h
  split at h
  · rename_i hg
    exact .inl (of_decide_eq_true hg).1
  · exact endorsed_of_verifyAggregate ht h

theorem truthful_verifyQc {c : SignatureCache} {policy : CachePolicy} (ht : Truthful policy c) :
    Truthful policy (SignatureCache.verifyQc policy q c).2 := by
  unfold SignatureCache.verifyQc
  split
  · exact ht
  · exact truthful_verifyAggregate ht

theorem labelled_iff (c : Chain) (q : QuorumCertificate) :
    Labelled c q ↔ (match c.get? q.block with
      | none => true
      | some b => decide (b.view = q.view)) = true := by
  unfold Labelled
  cases c.get? q.block with
  | none => simp
  | some b => simp

theorem labelled_of_checkQc (h : (checkQc seat q r).1 = true) : Labelled r.chain q := by
  unfold checkQc at h
  split at h
  · exact (labelled_iff _ _).mpr (Bool.and_eq_true_iff.mp h).2
  · cases h

theorem attested_of_checkQc (ht : Truthful seat.policy r.signatures)
    (h : (checkQc seat q r).1 = true) : Attested seat.policy q := by
  unfold checkQc at h
  split at h
  · rename_i hd
    exact ⟨hd, endorsed_of_verifyQc ht (Bool.and_eq_true_iff.mp h).1⟩
  · cases h

theorem checkQc_of_valid (h : ValidQc seat.policy r.chain q) : (checkQc seat q r).1 = true := by
  obtain ⟨⟨hd, he⟩, hl⟩ := h
  unfold checkQc
  rw [if_pos hd]
  exact Bool.and_eq_true_iff.mpr ⟨verifyQc_of_endorsed _ he, (labelled_iff _ _).mp hl⟩

theorem validTc_of_checkTc (ht : Truthful seat.policy r.signatures)
    (h : (checkTc seat tc r).1 = true) : ValidTc seat.policy tc := by
  unfold checkTc SignatureCache.verifyTc at h
  split at h
  · rename_i hd
    dsimp only at h
    split at h
    · cases h
    · rename_i hz
      exact ⟨hd, hz, endorsed_of_verifyAggregate ht h⟩
  · cases h

theorem checkTc_of_valid (h : ValidTc seat.policy tc) : (checkTc seat tc r).1 = true := by
  obtain ⟨hd, hz, he⟩ := h
  unfold checkTc SignatureCache.verifyTc
  rw [if_pos hd]
  dsimp only
  rw [if_neg hz]
  exact verifyAggregate_of_endorsed _ he

end Certificates

end Equivocation.Proofs.Validity
