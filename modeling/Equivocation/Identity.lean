namespace Equivocation

/-- The identity a replica signs with and is counted under in quorums; twins share one. -/
@[ext] structure ReplicaId where
  toNat : Nat
  isLt : toNat < 0x100000000 := by decide
deriving DecidableEq

/-- The identity of one simulated instance: it routes messages and keeps chains apart. -/
@[ext] structure NodeId where
  toNat : Nat
  isLt : toNat < 0x100000000 := by decide
deriving DecidableEq

namespace ReplicaId

/-- The replica of a number, modulo `2 ^ 32`. -/
def ofNat (n : Nat) : ReplicaId := ⟨n % 0x100000000, Nat.mod_lt _ (by decide)⟩

def ofNat? (n : Nat) : Option ReplicaId := if h : n < 0x100000000 then some ⟨n, h⟩ else none

instance : Inhabited ReplicaId := ⟨⟨0, by decide⟩⟩

instance : ToString ReplicaId := ⟨fun r => toString r.toNat⟩

@[simp] theorem toNat_ofNat (n : Nat) : (ofNat n).toNat = n % 0x100000000 := rfl

@[simp] theorem ofNat_toNat (r : ReplicaId) : ofNat r.toNat = r :=
  ReplicaId.ext (Nat.mod_eq_of_lt r.isLt)

end ReplicaId

namespace NodeId

def ofNat (n : Nat) : NodeId := ⟨n % 0x100000000, Nat.mod_lt _ (by decide)⟩

def ofNat? (n : Nat) : Option NodeId := if h : n < 0x100000000 then some ⟨n, h⟩ else none

instance : Inhabited NodeId := ⟨⟨0, by decide⟩⟩

instance : ToString NodeId := ⟨fun n => toString n.toNat⟩

@[simp] theorem toNat_ofNat (n : Nat) : (ofNat n).toNat = n % 0x100000000 := rfl

@[simp] theorem ofNat_toNat (n : NodeId) : ofNat n.toNat = n :=
  NodeId.ext (Nat.mod_eq_of_lt n.isLt)

end NodeId

end Equivocation
