import SsaJit.Word
import SsaJit.Text

/-! The settings that a compilation is run with, and what makes them acceptable. -/

namespace SsaJit

/-- Settings. A field that nobody sets has the value given here. -/
structure Config where
  /-- Raise the failures of unsupported input instead of handing them back. -/
  debug : Bool := false
  /-- Optimise before compiling, unless the caller says otherwise. -/
  optimize : Bool := true
  /-- The optimisations to run, in order; none means the usual ones. -/
  passes : List String := []
  /-- How many routines a cache holds. -/
  cacheCapacity : Int := 128
  /-- Bytes of stack for generated code. -/
  nativeStackSize : Int := 65536
  logLevel : String := "info"
  dumpIr : Bool := false
  dumpLlvm : Bool := false
  dumpAsm : Bool := false
  deriving DecidableEq, Repr, Inhabited

namespace Config

/-- Why settings are turned down. -/
inductive Flaw
  | cacheCapacity (n : Int)
  | nativeStackSize (n : Int)
  | logLevel (name : String)
  deriving DecidableEq, Repr

def Flaw.message : Flaw → String
  | .cacheCapacity n => "cache_capacity must be positive, got " ++ decimal n
  | .nativeStackSize n => "native_stack_size must be at least 4096, got " ++ decimal n
  | .logLevel s => "unknown log level " ++ Text.quoted s

/-- The least stack that generated code may have. -/
def leastStack : Int := 4096

/-- Names of log levels that settings may hold; the empty name is the usual level. -/
def logLevels : List String := ["", "debug", "info", "warn", "error"]

/-- The first flaw of the settings. -/
def flaw? (c : Config) : Option Flaw :=
  if c.cacheCapacity ≤ 0 then some (.cacheCapacity c.cacheCapacity)
  else if c.nativeStackSize < leastStack then some (.nativeStackSize c.nativeStackSize)
  else if logLevels.contains (Text.lower c.logLevel) then none
  else some (.logLevel c.logLevel)

/-- The stack used for a size asked for: a size below one gives the usual one. -/
def stackFor (size : Int) : Int :=
  if size ≤ 0 then ({} : Config).nativeStackSize else size

/-- One frame may take half of the stack. -/
def frameLimit (stack : Int) : Int := stack.tdiv 2

end Config

end SsaJit
