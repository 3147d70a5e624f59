import Equivocation.Proofs.BlockEncoding
import Mathlib.Data.List.Basic
import Mathlib.Data.List.Induction

namespace Equivocation.Proofs.Canonicity

open Signature SignatureOrder BlockEncoding

/-- How two encoded signatures compare: by the bytes of the signers from the last one back, and
among signatures of one signer by all bytes from the first one on. -/
def compareEncoded (a b : List UInt8) : Ordering :=
  (compare (a.take 4).reverse (b.take 4).reverse).then (compare a b)

/-- The bytes are those of the signatures one after the other, signers in numeric order and the
signatures of one signer in the order of their bytes; and this is what sorting the encoded
signatures byte by byte gives. -/
structure Segment (ss : List Signature) (bytes : List UInt8) : Prop where
  ordered : ∃ ts : List Signature, ts.Perm ss ∧ ts.Pairwise Before ∧
    bytes = ts.flatMap Signature.encode
  sorted : bytes =
    ((ss.map Signature.encode).mergeSort fun a b => (compareEncoded a b).isLE).flatten

def tallied (E : Electorate) (view : View) (block : Hash) (ss : List Signature) :
    Option QuorumCertificate × VoteCollector :=
  ss.foldl (fun x s => VoteCollector.collect E view block s x.2) (none, [])

def DistinctReplicas (E : Electorate) (ss : List Signature) : Prop :=
  (∀ s ∈ ss, s.signer ∈ E.replicas) ∧ (ss.map Signature.signer).Nodup

instance (E : Electorate) (ss : List Signature) : Decidable (DistinctReplicas E ss) :=
  inferInstanceAs (Decidable (_ ∧ _))

structure CanonicalCertificates : Prop where
  qc : ∀ p q : QuorumCertificate, p.encode = q.encode ↔
    p.block = q.block ∧ p.view = q.view ∧ p.signatures.Perm q.signatures
  tc : ∀ p q : TimeoutCertificate, p.encode = q.encode ↔
    p.view = q.view ∧ p.signatures.Perm q.signatures
  qcSegment : ∀ q : QuorumCertificate, ∃ bytes, Segment q.signatures bytes ∧
    q.encode = q.block.bytes ++ q.view.encode ++ bytes
  tcSegment : ∀ q : TimeoutCertificate, ∃ bytes, Segment q.signatures bytes ∧
    q.encode = q.view.encode ++ bytes
  total : ∀ s t : Signature,
    (compareEncoded s.encode t.encode).isLE = true ∨ (compareEncoded t.encode s.encode).isLE = true
  ties : ∀ s t : Signature, compareEncoded s.encode t.encode = .eq ↔ s = t
  hash : ∀ (parent : Hash) (command : List UInt8) (view : View) (proposer : ReplicaId)
      (p q : QuorumCertificate),
    p.block = q.block → p.view = q.view → p.signatures.Perm q.signatures →
      (Block.ofContents ⟨parent, some p, command, view, proposer⟩).hash =
        (Block.ofContents ⟨parent, some q, command, view, proposer⟩).hash
  arrival : ∀ (E : Electorate) (v : View) (block : Hash) (ss ts : List Signature),
    DistinctReplicas E ss → 0 < E.quorum → ss.length = E.quorum → ss.Perm ts →
      ∃ p q, (tallied E v block ss).1 = some p ∧ (tallied E v block ts).1 = some q ∧
        ∀ (parent : Hash) (command : List UInt8) (view : View) (proposer : ReplicaId),
          (Block.ofContents ⟨parent, some p, command, view, proposer⟩).hash =
            (Block.ofContents ⟨parent, some q, command, view, proposer⟩).hash

variable {as bs : List UInt8} {s t : Signature} {ss ts : List Signature}

section Bytes

theorem ofLittleEndian_concat (as : List UInt8) (b : UInt8) :
    Bytes.ofLittleEndian (as ++ [b]) =
      Bytes.ofLittleEndian as + Bytes.capacity as.length * b.toNat := by
  induction as with
  | nil => simp [Bytes.ofLittleEndian, Bytes.capacity]
  | cons a as ih =>
    rw [List.cons_append, Bytes.ofLittleEndian, ih, Bytes.ofLittleEndian, List.length_cons,
      Bytes.capacity, Nat.mul_add, Nat.mul_assoc, Nat.add_assoc]

theorem ofBigEndian_cons (b : UInt8) (bs : List UInt8) :
    Bytes.ofBigEndian (b :: bs) =
      Bytes.ofBigEndian bs + Bytes.capacity bs.length * b.toNat := by
  rw [Bytes.ofBigEndian, List.reverse_cons, ofLittleEndian_concat, List.length_reverse,
    Bytes.ofBigEndian]

theorem ofBigEndian_lt (bs : List UInt8) : Bytes.ofBigEndian bs < Bytes.capacity bs.length := by
  rw [Bytes.ofBigEndian, ← List.length_reverse]
  exact Bytes.ofLittleEndian_lt bs.reverse

/-- A greater leading digit outweighs all digits after it. -/
theorem compare_digits {a b r s c : Nat} (hr : r < c) (hs : s < c) :
    compare (r + c * a) (s + c * b) = (compare a b).then (compare r s) := by
  rcases Nat.lt_trichotomy a b with h | rfl | h
  · have hm := Nat.mul_le_mul_left c (Nat.succ_le_of_lt h)
    rw [Nat.compare_eq_lt.mpr h, Nat.compare_eq_lt.mpr (by rw [Nat.mul_succ] at hm; omega)]
    rfl
  · rw [Nat.compare_eq_eq.mpr rfl, Ordering.eq_then]
    rcases Nat.lt_trichotomy r s with h | rfl | h
    · rw [Nat.compare_eq_lt.mpr h, Nat.compare_eq_lt.mpr (by omega)]
    · rw [Nat.compare_eq_eq.mpr rfl, Nat.compare_eq_eq.mpr rfl]
    · rw [Nat.compare_eq_gt.mpr h, Nat.compare_eq_gt.mpr (by omega)]
  · have hm := Nat.mul_le_mul_left c (Nat.succ_le_of_lt h)
    rw [Nat.compare_eq_gt.mpr h, Nat.compare_eq_gt.mpr (by rw [Nat.mul_succ] at hm; omega)]
    rfl

theorem compare_byte (a b : UInt8) : compare a b = compare a.toNat b.toNat := by
  rcases Nat.lt_trichotomy a.toNat b.toNat with h | h | h
  · rw [Nat.compare_eq_lt.mpr h, Std.compare_eq_lt.mpr (UInt8.lt_iff_toNat_lt.mpr h)]
  · rw [Nat.compare_eq_eq.mpr h, Std.LawfulEqOrd.compare_eq_iff_eq.mpr (UInt8.toNat_inj.mp h)]
  · rw [Nat.compare_eq_gt.mpr h, Std.compare_eq_gt.mpr (UInt8.lt_iff_toNat_lt.mpr h)]

/-- Byte strings of one length compare as the numbers that they spell, the first byte counting
most. -/
theorem compare_ofBigEndian (h : as.length = bs.length) :
    compare as bs = compare (Bytes.ofBigEndian as) (Bytes.ofBigEndian bs) := by
  induction as generalizing bs with
  | nil =>
    cases bs with
    | nil => rfl
    | cons b bs => cases h
  | cons a as ih =>
    cases bs with
    | nil => cases h
    | cons b bs =>
      have hl : as.length = bs.length := Nat.succ.inj h
      have hs := ofBigEndian_lt bs
      rw [← hl] at hs
      rw [List.compare_cons_cons, ih hl, ofBigEndian_cons, ofBigEndian_cons, ← hl,
        compare_digits (ofBigEndian_lt as) hs, compare_byte]

theorem compare_eq_lt_iff : compare as bs = .lt ↔ as < bs := by
  induction as generalizing bs with
  | nil => cases bs <;> simp
  | cons a as ih =>
    cases bs with
    | nil => simp
    | cons b bs =>
      rw [List.compare_cons_cons, Ordering.then_eq_lt, List.cons_lt_cons_iff, ih,
        Std.compare_eq_lt, Std.LawfulEqOrd.compare_eq_iff_eq]

theorem isLE_compare_iff : (compare as bs).isLE = true ↔ as ≤ bs := by
  rw [← List.not_lt, ← compare_eq_lt_iff, ← Std.OrientedCmp.gt_iff_lt, Ordering.isLE_iff_ne_gt]

theorem compare_append_left (cs as bs : List UInt8) :
    compare (cs ++ as) (cs ++ bs) = compare as bs := by
  induction cs with
  | nil => rfl
  | cons c cs ih =>
    rw [List.cons_append, List.cons_append, List.compare_cons_cons, ih,
      Std.LawfulEqOrd.compare_eq_iff_eq.mpr rfl, Ordering.eq_then]

end Bytes

section Signatures

theorem take_encode (s : Signature) : s.encode.take 4 = s.signer.encode := by
  rw [Signature.encode, List.take_left' (length_replica_encode s.signer)]

theorem compare_signers (s t : Signature) :
    compare s.signer.encode.reverse t.signer.encode.reverse =
      compare s.signer.toNat t.signer.toNat := by
  have hn : ∀ r : ReplicaId, Bytes.ofBigEndian r.encode.reverse = r.toNat := by
    intro r
    rw [Bytes.ofBigEndian, List.reverse_reverse]
    exact Bytes.ofLittleEndian_littleEndian 4 r.toNat r.isLt
  rw [compare_ofBigEndian (by simp), hn, hn]

theorem isLE_compareEncoded_iff :
    (compareEncoded s.encode t.encode).isLE = true ↔ Before s t := by
  rw [compareEncoded, take_encode, take_encode, compare_signers, Ordering.isLE_then_iff_or,
    Nat.compare_eq_lt, Nat.compare_eq_eq, Before]
  refine or_congr_right (and_congr_right fun hr => ?_)
  rw [Signature.encode, Signature.encode, ReplicaId.ext hr, compare_append_left, isLE_compare_iff]

theorem compareEncoded_eq_iff : compareEncoded s.encode t.encode = .eq ↔ s = t := by
  rw [compareEncoded, Ordering.then_eq_eq]
  constructor
  · rintro ⟨-, h⟩
    exact signature_encode_inj (Std.LawfulEqOrd.compare_eq_iff_eq.mp h)
  · rintro rfl
    exact ⟨Std.LawfulEqOrd.compare_eq_iff_eq.mpr rfl, Std.LawfulEqOrd.compare_eq_iff_eq.mpr rfl⟩

theorem sort_eq_mergeSort (ss : List Signature) :
    sort ss = ss.mergeSort fun s t => (compareEncoded s.encode t.encode).isLE := by
  rw [sort_eq_insertionSort, ← List.mergeSort_eq_insertionSort]
  congr 1
  funext s t
  exact Bool.eq_iff_iff.mpr (decide_eq_true_iff.trans isLE_compareEncoded_iff.symm)

theorem encode_sort (ss : List Signature) :
    (sort ss).flatMap Signature.encode =
      ((ss.map Signature.encode).mergeSort fun a b => (compareEncoded a b).isLE).flatten := by
  have hm := @List.map_mergeSort _ _ (fun s t => (compareEncoded s.encode t.encode).isLE)
    (fun a b => (compareEncoded a b).isLE) Signature.encode ss fun _ _ _ _ => rfl
  rw [sort_eq_mergeSort, List.flatMap_def, hm]

theorem tc_encode_eq_iff {p q : TimeoutCertificate} :
    p.encode = q.encode ↔ p.view = q.view ∧ p.signatures.Perm q.signatures := by
  constructor
  · intro h
    obtain ⟨hv, hs⟩ := List.append_inj h (by simp)
    exact ⟨view_encode_inj hv, sort_eq_sort_iff.mp (signatures_encode_inj hs)⟩
  · rintro ⟨hv, hs⟩
    rw [TimeoutCertificate.encode, hv, sort_eq_sort_iff.mpr hs, TimeoutCertificate.encode]

theorem segment_sort (ss : List Signature) : Segment ss ((sort ss).flatMap Signature.encode) where
  ordered := by
    rw [sort_eq_insertionSort]
    exact ⟨_, List.perm_insertionSort Before ss, List.pairwise_insertionSort Before ss, rfl⟩
  sorted := encode_sort ss

end Signatures

section Arrival

variable {E : Electorate} {v : View} {block : Hash}

theorem tallied_concat (E : Electorate) (v : View) (block : Hash) (ss : List Signature)
    (s : Signature) : tallied E v block (ss ++ [s]) =
      VoteCollector.collect E v block s (tallied E v block ss).2 :=
  List.foldl_concat ..

theorem DistinctReplicas.init (h : DistinctReplicas E (ss ++ [s])) : DistinctReplicas E ss :=
  ⟨fun t ht => h.1 t (List.mem_append_left _ ht),
    h.2.sublist ((List.sublist_append_left ss [s]).map _)⟩

theorem DistinctReplicas.admits (h : DistinctReplicas E (ss ++ [s])) : E.admits s ss = true := by
  have hs : s.signer ∈ E.replicas := h.1 s (List.mem_append_right _ (List.mem_singleton.mpr rfl))
  have hnew : ∀ t ∈ ss, t.signer ≠ s.signer := by
    have hn := h.2
    rw [List.map_append, List.nodup_append] at hn
    exact fun t ht => hn.2.2 _ (List.mem_map_of_mem ht) _ (List.mem_singleton.mpr rfl)
  simpa [Electorate.admits, hs] using hnew

theorem tallied_short (h : DistinctReplicas E ss) (hq : ss.length < E.quorum) :
    (Table.get? (tallied E v block ss).2 (v, block)).getD [] = ss := by
  induction ss using List.reverseRecOn with
  | nil => rfl
  | append_singleton ss s ih =>
    have hlt : ss.length < E.quorum := by
      rw [List.length_append] at hq
      exact Nat.lt_of_succ_lt hq
    rw [tallied_concat, VoteCollector.collect]
    simp only [ih h.init hlt, h.admits, if_true, if_neg (Nat.not_le_of_lt hq)]
    rw [Table.get?_set, if_pos rfl, Option.getD_some]

/-- The votes leave as a certificate in the order in which they came. -/
theorem tallied_quorum (h : DistinctReplicas E ss) (hpos : 0 < E.quorum)
    (hq : ss.length = E.quorum) :
    (tallied E v block ss).1 = some ⟨v, block, ss⟩ := by
  obtain rfl | ⟨ss, s, rfl⟩ := List.eq_nil_or_concat' ss
  · exact absurd hq (Nat.ne_of_lt hpos)
  · have hlt : ss.length < E.quorum := by
      rw [List.length_append] at hq
      exact hq ▸ Nat.lt_succ_self _
    rw [tallied_concat, VoteCollector.collect]
    simp only [tallied_short h.init hlt, h.admits, if_true, if_pos (Nat.le_of_eq hq.symm)]

theorem DistinctReplicas.perm (h : DistinctReplicas E ss) (hp : ss.Perm ts) :
    DistinctReplicas E ts :=
  ⟨fun t ht => h.1 t (hp.mem_iff.mpr ht), (hp.map _).nodup_iff.mp h.2⟩

end Arrival

theorem hash_eq_of_perm (parent : Hash) (command : List UInt8) (view : View) (proposer : ReplicaId)
    {p q : QuorumCertificate} (hb : p.block = q.block) (hv : p.view = q.view)
    (hs : p.signatures.Perm q.signatures) :
    (Block.ofContents ⟨parent, some p, command, view, proposer⟩).hash =
      (Block.ofContents ⟨parent, some q, command, view, proposer⟩).hash := by
  have he : p.encode = q.encode := qc_encode_eq_iff.mpr ⟨hb, hv, hs⟩
  have hc : Block.Contents.encode ⟨parent, some p, command, view, proposer⟩ =
      Block.Contents.encode ⟨parent, some q, command, view, proposer⟩ :=
    encode_eq_iff.mpr ⟨rfl, rfl, rfl, congrArg (command ++ ·) he⟩
  exact congrArg Hash.digest hc

theorem certificates_canonical : CanonicalCertificates where
  qc _ _ := qc_encode_eq_iff
  tc _ _ := tc_encode_eq_iff
  qcSegment q := ⟨_, segment_sort q.signatures, rfl⟩
  tcSegment q := ⟨_, segment_sort q.signatures, rfl⟩
  total s t := by
    rw [isLE_compareEncoded_iff, isLE_compareEncoded_iff]
    exact before_total s t
  ties _ _ := compareEncoded_eq_iff
  hash parent command view proposer _ _ := hash_eq_of_perm parent command view proposer
  arrival E v block ss ts he hpos hq hp :=
    ⟨⟨v, block, ss⟩, ⟨v, block, ts⟩, tallied_quorum he hpos hq,
      tallied_quorum (he.perm hp) hpos (hp.length_eq ▸ hq), fun parent command view proposer =>
        hash_eq_of_perm parent command view proposer rfl rfl hp⟩

/-- Three votes decide. The number of one replica has its only digit in the second byte. -/
def council : Electorate := ⟨[1, 3, 4, 256].map .ofNat, 3⟩

def ballots : List Signature :=
  [⟨.ofNat 256, .fill 5⟩, ⟨.ofNat 3, .fill 9⟩, ⟨.ofNat 1, .fill 7⟩]

theorem certificates_canonical_ballots :
    DistinctReplicas council ballots ∧ 0 < council.quorum ∧ ballots.length = council.quorum ∧
      ballots.Perm ballots.reverse ∧ ballots ≠ ballots.reverse ∧
      ∃ p q, (tallied council .zero .zero ballots).1 = some p ∧
        (tallied council .zero .zero ballots.reverse).1 = some q ∧
        ∀ (parent : Hash) (command : List UInt8) (view : View) (proposer : ReplicaId),
          (Block.ofContents ⟨parent, some p, command, view, proposer⟩).hash =
            (Block.ofContents ⟨parent, some q, command, view, proposer⟩).hash := by
  have he : DistinctReplicas council ballots := by decide
  have hp : ballots.Perm ballots.reverse := (List.reverse_perm ballots).symm
  exact ⟨he, by decide, rfl, hp, by decide,
    certificates_canonical.arrival council .zero .zero ballots ballots.reverse he
      (by decide) rfl hp⟩

end Equivocation.Proofs.Canonicity
