import Equivocation.Certificate
import Mathlib.Data.List.Sort

namespace Equivocation.Proofs.SignatureOrder

open Signature

theorem before_total (s t : Signature) : Before s t ∨ Before t s := by
  rcases Nat.lt_trichotomy s.signer.toNat t.signer.toNat with h | h | h
  · exact Or.inl (Or.inl h)
  · rcases List.le_total s.bytes.bytes t.bytes.bytes with hb | hb
    · exact Or.inl (Or.inr ⟨h, hb⟩)
    · exact Or.inr (Or.inr ⟨h.symm, hb⟩)
  · exact Or.inr (Or.inl h)

theorem before_trans {s t u : Signature} (hst : Before s t) (htu : Before t u) : Before s u := by
  rcases hst with hst | ⟨hst, hb⟩ <;> rcases htu with htu | ⟨htu, hc⟩
  · exact Or.inl (Nat.lt_trans hst htu)
  · exact Or.inl (htu ▸ hst)
  · exact Or.inl (hst ▸ htu)
  · exact Or.inr ⟨hst.trans htu, List.le_trans hb hc⟩

theorem before_antisymm {s t : Signature} (hst : Before s t) (hts : Before t s) : s = t := by
  rcases hst with hst | ⟨hst, hb⟩ <;> rcases hts with hts | ⟨hts, hc⟩
  · omega
  · omega
  · omega
  · exact Signature.ext (ReplicaId.ext hst) (SignatureBytes.ext (List.le_antisymm hb hc))

instance : Std.Total Before := ⟨before_total⟩

instance : IsTrans Signature Before := ⟨fun _ _ _ => before_trans⟩

instance : Std.Antisymm Before := ⟨fun _ _ => before_antisymm⟩

theorem insertSorted_eq_orderedInsert (s : Signature) (ts : List Signature) :
    insertSorted s ts = ts.orderedInsert Before s := by
  induction ts with
  | nil => rfl
  | cons t ts ih => rw [insertSorted, List.orderedInsert_cons, ih]

theorem sort_eq_insertionSort (ss : List Signature) : sort ss = ss.insertionSort Before := by
  induction ss with
  | nil => rfl
  | cons s ss ih =>
    rw [List.insertionSort_cons, ← ih]
    exact insertSorted_eq_orderedInsert s (sort ss)

/-- The canonical order forgets how signatures were arranged, and nothing else. -/
theorem sort_eq_sort_iff {ss ts : List Signature} : sort ss = sort ts ↔ ss.Perm ts := by
  have hs := List.perm_insertionSort Before ss
  have ht := List.perm_insertionSort Before ts
  rw [sort_eq_insertionSort, sort_eq_insertionSort]
  constructor
  · intro h
    exact hs.symm.trans (h ▸ ht)
  · intro h
    exact (hs.trans (h.trans ht.symm)).eq_of_pairwise' (List.pairwise_insertionSort Before ss)
      (List.pairwise_insertionSort Before ts)

end Equivocation.Proofs.SignatureOrder
