import SsaJit.Build.Type
import SsaJit.Graph.Edit
import SsaJit.Graph.Text
import SsaJit.Log
import SsaJit.Lower.Vector

/-! Building sessions. A session owns one function under construction and the block that new values go
to. Sessions are numbered in the order they were opened and only the newest can be open, so whatever
belongs to an older one belongs to a closed one. An operation that fails keeps what it did before. -/

namespace SsaJit.Build

abbrev SessionId := Nat
abbrev ScopeId := Nat

/-- A control-flow construct that was begun. -/
inductive Construct
  /-- A conditional: the block of its condition and the block after the arm that is being built. -/
  | branch (head after : BlockId) (inElse : Bool)
  /-- A loop that tests first: its header and, once the condition is there, its exit. -/
  | loop (header : BlockId) (exit : Option BlockId)
  /-- A loop that tests last: the start of its body. -/
  | doUntil (body : BlockId)
  deriving DecidableEq, Repr, Inhabited

def Construct.name : Construct → String
  | .branch _ _ false => "if"
  | .branch _ _ true => "else"
  | .loop _ _ => "loop"
  | .doUntil _ => "do"

/-- A construct and the session it belongs to. -/
structure Scope where
  session : SessionId
  construct : Construct
  deriving DecidableEq, Repr, Inhabited

structure Session where
  id : SessionId := 0
  config : Config := {}
  cpu : Lower.Features := {}
  module : Module := { name := "reactor" }
  /-- The function under construction. It stays readable after the session is closed. -/
  func : Option Func := none
  /-- Where new values go. -/
  cursor : Option BlockId := none
  /-- Every construct that was begun, in this session and in older ones. -/
  scopes : Array Scope := #[]
  /-- The open constructs, innermost first. -/
  nest : List ScopeId := []
  acquired : Bool := false
  closed : Bool := false
  log : List Log.Entry := []
  /-- The functions of the older sessions, by session. -/
  past : Array Func := #[]
  deriving Inhabited

namespace Session

/-- A session without a function. -/
def start (config : Config) (cpu : Lower.Features) : Session := { config, cpu }

/-- Begin the session's function; new values go to its entry. -/
def createFunction (s : Session) (name : String) (ret : Ty) (params : List Ty) : Session :=
  let f := Func.empty name ret params
  { s with func := some f, cursor := f.entry? }

/-- End the session. Nothing can be built in it any more. -/
def close (s : Session) : Session :=
  if s.closed then s else { s with closed := true, cursor := none, nest := [] }

/-- Close the session and open the next one. -/
def next (s : Session) : Session :=
  { id := s.id + 1, config := s.config, cpu := s.cpu, scopes := s.scopes, log := s.log,
    past := s.past.push (s.func.getD default) }

/-- Is there a function that can be built? -/
def hasFunction (s : Session) : Bool := !s.closed && s.func.isSome

end Session

abbrev BuildM := ExceptT Fault (StateM Session)

namespace BuildM

def lift {α : Type} (r : Outcome α) : BuildM α := ExceptT.mk (pure r)
def refuse {α : Type} (r : Refusal) : BuildM α := throw (.refusal r)
def raise {α : Type} (f : Failure) : BuildM α := throw (.raised f)
def crash {α : Type} (c : Crash) : BuildM α := throw (.crash c)

/-- Raise unless the session is open. -/
def live : BuildM Unit := do
  if (← get).closed then raise .sessionClosed

/-- The function under construction. -/
def function : BuildM Func := do
  live
  match (← get).func with
  | some f => return f
  | none => raise .noFunction

def setFunction (f : Func) : BuildM Unit := modify fun s => { s with func := some f }

/-- The block that new values go to. -/
def insertBlock : BuildM BlockId := do
  match (← get).cursor with
  | some b => return b
  | none => crash .absent

def setInsertBlock (b : BlockId) : BuildM Unit := modify fun s => { s with cursor := some b }

/-- A new block; the insertion point stays. -/
def newBlock : BuildM BlockId := do
  let (f, b) := (← function).newBlock
  setFunction f
  return b

/-- Append a value to the insertion block. -/
def emit (v : Value) : BuildM Operand := do
  let f ← function
  let b ← insertBlock
  if (f.block b).isTerminated then refuse (.emitTerminated v.op b)
  let (f, id) := f.appendValue b v
  setFunction f
  return .value id

/-- The type of an operand. -/
def typeOf (x : Operand) : BuildM Ty := do
  return (← lift (((← get).func.getD default).find x)).type

/-- The insertion block, which must not have an end yet. -/
def openBlock : BuildM BlockId := do
  let f ← function
  let b ← insertBlock
  if (f.block b).isTerminated then refuse (.blockTerminated b)
  return b

/-- Give the open insertion block an end. -/
def endWith (g : Func → BlockId → Outcome Func) : BuildM Unit := do
  let b ← openBlock
  setFunction (← lift (g (← function) b))

end BuildM

end SsaJit.Build
