namespace Equivocation

inductive Level where
  | error
  | warn
  | info
  | debug
  | trace
deriving DecidableEq

def Level.rank : Level → Nat
  | error => 1
  | warn => 2
  | info => 3
  | debug => 4
  | trace => 5

instance : ToString Level where
  toString
    | .error => "ERROR"
    | .warn => "WARN"
    | .info => "INFO"
    | .debug => "DEBUG"
    | .trace => "TRACE"

structure LogRecord where
  level : Level
  text : String
deriving DecidableEq

instance : ToString LogRecord := ⟨fun r => toString r.level ++ " " ++ r.text⟩

def LogRecord.atLevel (level : Level) (records : List LogRecord) : List LogRecord :=
  records.filter fun r => r.level.rank ≤ level.rank

end Equivocation
