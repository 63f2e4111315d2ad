import SsaJit.Native.Routine

/-! The life of a routine as its holder sees it: each operation one assignment after another, on the
routine and on the pages that it lives in. An operation that fails keeps what it did before. -/

namespace SsaJit.Native

/-- The address to call, of a routine whose buffer lies at `base`; zero if there is nothing to call. -/
def Routine.entryAddress (r : Routine) (base : UInt64) : UInt64 :=
  if r.hasEntry then base + (Int64.ofInt r.entry).toUInt64 else 0

/-- A routine and the pages that it lives in. -/
structure Holding where
  routine : Routine
  pages : Pages := {}

abbrev HoldingM := ExceptT Fault (StateM Holding)

namespace HoldingM

def lift {α : Type} (r : Outcome α) : HoldingM α := ExceptT.mk (pure r)

def routine : HoldingM Routine := return (← get).routine

def alter (f : Routine → Routine) : HoldingM Unit := modify fun h => { h with routine := f h.routine }

def remap (f : Pages → Pages) : HoldingM Unit := modify fun h => { h with pages := f h.pages }

/-- A failure, with a note on what was tried. -/
def noting {α : Type} (context : String) : Outcome α → Outcome α
  | .error (.failure e) => .fail (.noted context e)
  | r => r

def mutable (operation : String) : HoldingM Unit := do lift ((← routine).mutable operation)

def resize (n : Int) : HoldingM Unit := do
  mutable "Resize"
  let r ← routine
  if !r.dynamic || r.isSealed then lift (.refuse .resizeSealed)
  if r.length < n then
    let (id, room, p) ← lift (noting "routine: resize" ((← get).pages.allocateCode (.ofInt n)))
    remap fun _ => p
    let grown := r.bytes ++ Array.replicate (room - r.length) 0
    remap (·.unmap r.mapping)
    alter fun r => { r with buffer := some grown, mapping := id }

def setFunctionSize (n : Int) : HoldingM Unit := do
  mutable "SetFunctionSize"
  let r ← routine
  if n < 0 ∨ (r.length : Int) < n then lift (.refuse (.functionSize n r.length))
  alter fun r => { r with size := n }

def sealAt (offset : Int) : HoldingM Unit := do
  mutable "Seal"
  let r ← routine
  if offset < 0 ∨ (r.length : Int) ≤ offset then lift (.refuse (.entryOffset offset))
  alter fun r => { r with entry := offset }
  alter fun r => { r with isSealed := true }

def markExecutable : HoldingM Unit := do
  mutable "MarkExecutable"
  let r ← routine
  if !r.isSealed then lift (.refuse .executableUnsealed)
  if r.dynamic && !r.executable then
    lift (noting "routine" ((← get).pages.protect r.length))
    alter fun r => { r with executable := true }

def bind : HoldingM Unit := do
  if (← routine).freed then lift (.refuse .bindAfterFree)
  alter fun r => { r with frozen := true }
  alter Routine.counted

/-- Give the pages back, the first time. -/
def release : HoldingM Unit := do
  let r ← routine
  if !r.freed then
    alter fun r => { r with freed := true }
    if r.dynamic then
      remap (·.unmap r.mapping)
      alter fun r => { r with buffer := none }

/-- The count goes down before it is looked at. -/
def unbind : HoldingM Bool := do
  alter Routine.uncounted
  let n := (← routine).refs
  if n < 0 then lift (.refuse .unboundUnbind)
  if 0 < n then return false
  release
  return true

def free : HoldingM Unit := do
  if (← routine).frozen then lift (.refuse .freeBound)
  release

end HoldingM

/-- What a holder can do with a routine. -/
inductive Operation
  | resize (bytes : Int)
  | setFunctionSize (n : Int)
  | sealAt (offset : Int)
  | markExecutable
  | bind
  | unbind
  | free
  deriving DecidableEq, Repr

/-- Run an operation. The answer is whether it reports the release of the routine, which only
unbinding does. -/
def Operation.act : Operation → HoldingM Bool
  | .resize n => do HoldingM.resize n; return false
  | .setFunctionSize n => do HoldingM.setFunctionSize n; return false
  | .sealAt offset => do HoldingM.sealAt offset; return false
  | .markExecutable => do HoldingM.markExecutable; return false
  | .bind => do HoldingM.bind; return false
  | .unbind => HoldingM.unbind
  | .free => do HoldingM.free; return false

/-- What an operation answers, and what it leaves. -/
def Holding.exec (h : Holding) (o : Operation) : Outcome Bool × Holding := o.act.run.run h

end SsaJit.Native
