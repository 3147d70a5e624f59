import Equivocation.Identity

namespace Equivocation

@[ext] structure NodeSet where
  nodes : List NodeId
  ascending : nodes.Pairwise fun m n => m.toNat < n.toNat
deriving DecidableEq

namespace NodeSet

def empty : NodeSet := ⟨[], .nil⟩

def contains (s : NodeSet) (n : NodeId) : Bool := s.nodes.contains n

def insertNode (n : NodeId) : List NodeId → List NodeId
  | [] => [n]
  | m :: ms =>
    if n.toNat < m.toNat then n :: m :: ms
    else if n.toNat = m.toNat then m :: ms
    else m :: insertNode n ms

theorem mem_insertNode {n m : NodeId} {ms : List NodeId} :
    m ∈ insertNode n ms ↔ m = n ∨ m ∈ ms := by
  induction ms with
  | nil => simp [insertNode]
  | cons k ms ih =>
    simp only [insertNode]
    split
    · simp
    · split
      · rename_i h
        have hk : n = k := NodeId.ext h
        subst hk
        simp
      · simp only [List.mem_cons, ih]
        constructor
        · rintro (h | h | h) <;> simp [h]
        · rintro (h | h | h) <;> simp [h]

theorem ascending_insertNode (n : NodeId) {ms : List NodeId}
    (h : ms.Pairwise fun m n => m.toNat < n.toNat) :
    (insertNode n ms).Pairwise fun m n => m.toNat < n.toNat := by
  induction ms with
  | nil => simp [insertNode]
  | cons k ms ih =>
    have hk := List.pairwise_cons.mp h
    simp only [insertNode]
    split
    · rename_i hlt
      refine List.pairwise_cons.mpr ⟨fun m hm => ?_, h⟩
      rcases List.mem_cons.mp hm with rfl | hm
      · exact hlt
      · exact Nat.lt_trans hlt (hk.1 m hm)
    · split
      · exact h
      · refine List.pairwise_cons.mpr ⟨fun m hm => ?_, ih hk.2⟩
        rcases mem_insertNode.mp hm with rfl | hm
        · omega
        · exact hk.1 m hm

def insert (s : NodeSet) (n : NodeId) : NodeSet :=
  ⟨insertNode n s.nodes, ascending_insertNode n s.ascending⟩

def ofList (ns : List NodeId) : NodeSet := ns.foldl insert empty

def size (s : NodeSet) : Nat := s.nodes.length

def first? (s : NodeSet) : Option NodeId := s.nodes.head?

instance : ToString NodeSet where
  toString s := "\x7b" ++ " ".intercalate (s.nodes.map toString) ++ "\x7d"

end NodeSet

end Equivocation
