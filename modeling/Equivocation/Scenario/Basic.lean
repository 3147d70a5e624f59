import Equivocation.NodeSet
import Equivocation.View

namespace Equivocation

@[ext] structure ViewSchedule where
  leader : ReplicaId
  groups : List NodeSet
deriving DecidableEq

/-- A plan for a whole run. Entry `i` governs view `i + 1`. -/
@[ext] structure Scenario where
  views : List ViewSchedule
deriving DecidableEq

namespace ViewSchedule

def connected (s : ViewSchedule) (a b : NodeId) : Bool :=
  s.groups.any fun g => g.contains a && g.contains b

def groupsText (groups : List NodeSet) : String := String.join (groups.map toString)

instance : ToString ViewSchedule where
  toString s := s!"leader {s.leader} " ++ groupsText s.groups

end ViewSchedule

namespace Scenario

def size (s : Scenario) : Nat := s.views.length

def lastView (s : Scenario) : View := .ofNat s.size

/-- View 0 is never scheduled. -/
def schedule? (s : Scenario) (v : View) : Option ViewSchedule :=
  if v = View.zero then none else s.views[v.toNat - 1]?

def leaders (s : Scenario) : List ReplicaId := s.views.map (·.leader)

def text (s : Scenario) : List String :=
  s.views.zipIdx.map fun (schedule, i) => s!"view {i + 1}: {schedule}"

def baseline (nodes views : Nat) : Scenario :=
  let everyone := NodeSet.ofList ((List.range nodes).map fun i => .ofNat (i + 1))
  ⟨List.replicate views ⟨.ofNat 1, [everyone]⟩⟩

end Scenario

end Equivocation
