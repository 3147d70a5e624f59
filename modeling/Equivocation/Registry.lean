import Equivocation.Replica.Handlers

namespace Equivocation

abbrev Registry := Table String Protocol

namespace Registry

/-- Registers a protocol, in place of any other of the same name. -/
def register (r : Registry) (name : String) (p : Protocol) : Registry :=
  r.setSorted (fun a b => a < b) name p

def names (r : Registry) : List String := r.map (·.1)

def builtIn : Registry :=
  (register [] Rules.chained.name Rules.chained.protocol).register Rules.simple.name
    Rules.simple.protocol

end Registry

end Equivocation
