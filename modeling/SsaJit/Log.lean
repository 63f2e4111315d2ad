import SsaJit.Config.Basic
import SsaJit.Fault

/-! Log entries and loggers. A logger is a threshold: it keeps the entries of its level and above. -/

namespace SsaJit.Log

/-- How grave an entry is, in rising order. -/
inductive Level
  | debug | info | warn | error | dpanic | panic | fatal
  deriving DecidableEq, Repr, Inhabited

namespace Level

def all : List Level := [.debug, .info, .warn, .error, .dpanic, .panic, .fatal]

def name : Level → String
  | .debug => "debug" | .info => "info" | .warn => "warn" | .error => "error"
  | .dpanic => "dpanic" | .panic => "panic" | .fatal => "fatal"

def rank : Level → Nat
  | .debug => 0 | .info => 1 | .warn => 2 | .error => 3 | .dpanic => 4 | .panic => 5 | .fatal => 6

/-- The level of a name in lower case. -/
def ofName? (s : String) : Option Level := all.find? (·.name == s)

end Level

/-- One line of a log. -/
structure Entry where
  level : Level
  message : String
  fields : List (String × String) := []
  deriving DecidableEq, Repr

/-- A logger's threshold; without one nothing is logged. -/
structure Logger where
  least : Option Level := none
  deriving DecidableEq, Repr, Inhabited

namespace Logger

/-- The logger that drops everything. -/
def silent : Logger := {}

def enabled (l : Logger) (level : Level) : Bool :=
  match l.least with
  | some t => t.rank ≤ level.rank
  | none => false

/-- The logger that settings ask for. The name of the level may be in any case; without settings or
with an empty name it is `info`. -/
def ofConfig : Option Config → Outcome Logger
  | none => .ok ⟨some .info⟩
  | some c =>
    if c.logLevel.isEmpty then .ok ⟨some .info⟩
    else
      let name := Text.lower c.logLevel
      match Level.ofName? name with
      | some l => .ok ⟨some l⟩
      | none => .fail (.reported ("bad log level " ++ Text.quoted c.logLevel ++
          ": unrecognized level: " ++ Text.quoted name))

end Logger

end SsaJit.Log
