import Equivocation.Bytes

namespace Equivocation

/-- A view number. View 0 belongs to the genesis block, and view 1 is the first that is run. -/
@[ext] structure View where
  toNat : Nat
  isLt : toNat < 0x10000000000000000 := by decide
deriving DecidableEq

namespace View

def zero : View := ⟨0, by decide⟩

def ofNat (n : Nat) : View := ⟨n % 0x10000000000000000, Nat.mod_lt _ (by decide)⟩

def ofNat? (n : Nat) : Option View := if h : n < 0x10000000000000000 then some ⟨n, h⟩ else none

instance : Inhabited View := ⟨zero⟩

instance : LT View := ⟨fun v w => v.toNat < w.toNat⟩

instance : LE View := ⟨fun v w => v.toNat ≤ w.toNat⟩

instance (v w : View) : Decidable (v < w) := inferInstanceAs (Decidable (v.toNat < w.toNat))

instance (v w : View) : Decidable (v ≤ w) := inferInstanceAs (Decidable (v.toNat ≤ w.toNat))

instance : ToString View := ⟨fun v => toString v.toNat⟩

/-- Addition stops at the last view. -/
def add (v : View) (k : Nat) : View := ⟨min (v.toNat + k) 0xFFFFFFFFFFFFFFFF, by omega⟩

def sub (v : View) (k : Nat) : View := ⟨v.toNat - k, by have := v.isLt; omega⟩

def next (v : View) : View := v.add 1

theorem lt_def (v w : View) : v < w ↔ v.toNat < w.toNat := Iff.rfl

theorem le_def (v w : View) : v ≤ w ↔ v.toNat ≤ w.toNat := Iff.rfl

@[simp] theorem toNat_zero : zero.toNat = 0 := rfl

@[simp] theorem toNat_add (v : View) (k : Nat) :
    (v.add k).toNat = min (v.toNat + k) 0xFFFFFFFFFFFFFFFF := rfl

@[simp] theorem toNat_sub (v : View) (k : Nat) : (v.sub k).toNat = v.toNat - k := rfl

theorem toNat_next (v : View) : v.next.toNat = min (v.toNat + 1) 0xFFFFFFFFFFFFFFFF := rfl

theorem next_ne_zero (v : View) : v.next ≠ zero := by
  intro h
  have hn := congrArg toNat h
  rw [toNat_next, toNat_zero] at hn
  omega

theorem le_next (v : View) : v ≤ v.next := by
  have hv := v.isLt
  rw [le_def, toNat_next]
  omega

theorem next_le_next {v w : View} (h : v ≤ w) : v.next ≤ w.next := by
  rw [le_def] at h ⊢
  rw [toNat_next, toNat_next]
  omega

theorem next_le_of_lt {v w : View} (h : v < w) : v.next ≤ w := by
  rw [lt_def] at h
  rw [le_def, toNat_next]
  omega

theorem le_of_lt_next {v w : View} (h : v < w.next) : v ≤ w := by
  rw [lt_def, toNat_next] at h
  rw [le_def]
  omega

/-- Except for the last view, the next one has the number after it. -/
theorem toNat_of_next_eq {v w : View} (hlt : v < w) (hn : v.next = w) :
    w.toNat = v.toNat + 1 := by
  have hw := w.isLt
  rw [lt_def] at hlt
  rw [← hn, toNat_next] at hlt ⊢
  omega

def encode (v : View) : List UInt8 := Bytes.littleEndian 8 v.toNat

end View

end Equivocation
