import Equivocation.Corpus
import Equivocation.Fault
import Equivocation.Layout.Consensus
import Equivocation.Table

namespace Equivocation

/-- One distinct fault: where it arose, what it said and at which step it was caught, with the
smallest message known to bring it about, spread over lines and encoded. The detail does not tell
faults apart. -/
structure FaultRecord where
  location : String
  text : String
  detail : String
  step : String
  rendering : List String
  encoded : String
  offending : Message
  seed : Option Nat
  occurrences : Nat
deriving DecidableEq

namespace FaultRecord

def once (fault : Fault) (step : String) (offending : Message) (seed : Option Nat) :
    FaultRecord where
  location := fault.location
  text := fault.text
  detail := fault.detail
  step
  rendering := offending.layout.spread
  encoded := offending.encoded
  offending
  seed
  occurrences := 1

def key (r : FaultRecord) : String :=
  s!"error location:\t{r.location}\nerror info:\t{r.text}\nrecovered from:\t{r.step}"

def size (r : FaultRecord) : Nat × Nat :=
  (r.rendering.length, ("\n".intercalate r.rendering).utf8ByteSize)

def smaller (a b : FaultRecord) : Bool :=
  a.size.1 < b.size.1 || a.size.1 = b.size.1 && a.size.2 < b.size.2

/-- Takes in more occurrences of the same fault. Of equally small messages the first one stays. -/
def absorb (r new : FaultRecord) : FaultRecord :=
  { (if new.smaller r then new else r) with occurrences := r.occurrences + new.occurrences }

end FaultRecord

structure FaultLog where
  faults : Table String FaultRecord := []
  totalScenarios : Nat := 0
  failedScenarios : Nat := 0
  totalMessages : Nat := 0
  failedMessages : Nat := 0
  errors : Nat := 0

namespace FaultLog

def insert (faults : Table String FaultRecord) (r : FaultRecord) : Table String FaultRecord :=
  let merged :=
    match faults.get? r.key with
    | none => r
    | some existing => existing.absorb r
  faults.setSorted (fun a b => a < b) r.key merged

def record (log : FaultLog) (fault : Fault) (step : String) (offending : Message)
    (seed : Option Nat) : FaultLog :=
  { log with
    faults := insert log.faults (.once fault step offending seed)
    errors := log.errors + 1 }

def count (log : FaultLog) (scenarios failedScenarios messages failedMessages : Nat) : FaultLog :=
  { log with
    totalScenarios := log.totalScenarios + scenarios
    failedScenarios := log.failedScenarios + failedScenarios
    totalMessages := log.totalMessages + messages
    failedMessages := log.failedMessages + failedMessages }

def merge (log other : FaultLog) : FaultLog :=
  { log.count other.totalScenarios other.failedScenarios other.totalMessages
      other.failedMessages with
    faults := (other.faults.map (·.2)).foldl insert log.faults
    errors := log.errors + other.errors }

def records (log : FaultLog) : List FaultRecord := log.faults.map (·.2)

def unique (log : FaultLog) : Nat := log.faults.length

def offending (log : FaultLog) : List Message := log.records.map (·.offending)

def seeds (log : FaultLog) : List Nat := log.records.filterMap (·.seed)

/-- Scenarios, failed ones, messages, failed ones, errors and distinct faults. Each is counted in 64
bits. -/
def counters (log : FaultLog) : Except Crash (List Nat) :=
  let counts :=
    [log.totalScenarios, log.failedScenarios, log.totalMessages, log.failedMessages, log.errors,
      log.unique]
  if counts.all (· < 0x10000000000000000) then .ok counts else .error (.overflow "fault log")

def reportFault (entry : String × FaultRecord) (i : Nat) : List String :=
  let r := entry.2
  ["", s!"ERROR NUMBER {i}", entry.1] ++
    (if r.detail.isEmpty then [] else [s!"error detail:\t{r.detail}"]) ++
    [s!"occurrences:\t{r.occurrences}"] ++
    (match r.seed with
    | none => []
    | some seed => [s!"seed:\t{seed}"]) ++
    ["- FUZZ MESSAGE BEGIN"] ++ r.rendering ++ ["- FUZZ MESSAGE END"]

def report (log : FaultLog) : List Char :=
  let faults := (log.faults.zipIdx 1).flatMap fun (entry, i) => reportFault entry i
  let counts :=
    [ "", s!"unique errors found: {log.unique}", s!"{log.errors} runs were errors",
      s!"{log.failedScenarios} of {log.totalScenarios} scenarios failed",
      s!"{log.failedMessages} of {log.totalMessages} messages failed" ]
  Text.unlines ((["ERROR INFO"] ++ faults ++ counts).map String.toList)

end FaultLog

end Equivocation
