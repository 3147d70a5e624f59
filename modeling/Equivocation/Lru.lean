import Equivocation.Table

namespace Equivocation

/-- Keys and their recency. Every key has a stamp of its own, and the smallest stamp belongs to
the key that was used least recently. -/
structure Lru (κ : Type) where
  stamps : Table κ Nat
  order : Table Nat κ
  nextStamp : Nat

namespace Lru

variable {κ : Type} [DecidableEq κ]

def empty : Lru κ := ⟨[], [], 0⟩

def size (e : Lru κ) : Nat := e.stamps.length

def stamp (e : Lru κ) (key : κ) : Lru κ :=
  ⟨Table.set e.stamps key e.nextStamp, Table.set e.order e.nextStamp key, e.nextStamp + 1⟩

def promote? (e : Lru κ) (key : κ) : Option (Lru κ) :=
  match Table.get? e.stamps key with
  | none => none
  | some old => some (stamp { e with order := Table.erase e.order old } key)

/-- Drops the least recent keys until fewer than `capacity` are left. -/
def evict (capacity : Nat) : Table κ Nat → Table Nat κ → Table κ Nat × Table Nat κ
  | stamps, [] => (stamps, [])
  | stamps, (old, key) :: order =>
    if stamps.length < capacity then (stamps, (old, key) :: order)
    else evict capacity (Table.erase stamps key) order

def insert (e : Lru κ) (key : κ) (capacity : Nat) : Lru κ :=
  match e.promote? key with
  | some promoted => promoted
  | none =>
    let (stamps, order) := evict capacity e.stamps e.order
    stamp ⟨stamps, order, e.nextStamp⟩ key

end Lru

end Equivocation
