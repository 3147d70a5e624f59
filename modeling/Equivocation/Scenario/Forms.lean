import Equivocation.Layout.Consensus
import Equivocation.Scenario.Basic
import Equivocation.Wire.Consensus

namespace Equivocation

open Wire

/-- Nodes are read in any order, and repeated ones are dropped. -/
def NodeSet.codec : Codec NodeSet := (Codec.list NodeId.codec).map .ofList (·.nodes)

def ViewSchedule.codec : Codec ViewSchedule :=
  (ReplicaId.codec.pair (Codec.list NodeSet.codec)).map (fun p => ⟨p.1, p.2⟩)
    (fun s => (s.leader, s.groups))

def Scenario.codec : Codec Scenario := (Codec.list ViewSchedule.codec).map (⟨·⟩) (·.views)

def NodeSet.layout (s : NodeSet) : Layout :=
  .apply "NodeSet" [.set (s.nodes.map NodeId.layout)]

def ViewSchedule.layout (s : ViewSchedule) : Layout :=
  .record "ViewSchedule"
    [("leader", s.leader.layout), ("partitions", .list (s.groups.map NodeSet.layout))]

def Scenario.layout (s : Scenario) : Layout :=
  .apply "Scenario" [.list (s.views.map ViewSchedule.layout)]

end Equivocation
