import SsaJit.Native.Pages

/-! A piece of native code and its life cycle. A dynamic routine owns its pages and is resized,
filled, sealed and made executable; a static one wraps memory that someone else owns. The first
binding freezes it, and when the last reference goes its pages are released. -/

namespace SsaJit.Native

structure Routine where
  /-- None once the pages of a dynamic routine are released. -/
  buffer : Option (Array UInt8)
  /-- The mapping of a dynamic routine. -/
  mapping : Nat := 0
  entry : Int := 0
  size : Int := 0
  dynamic : Bool := false
  isSealed : Bool := false
  executable : Bool := false
  /-- Counts references, in 32 bits that wrap. -/
  counter : Int32 := 0
  frozen : Bool := false
  freed : Bool := false
  deriving DecidableEq, Repr, Inhabited

namespace Routine

def bytes (r : Routine) : Array UInt8 := r.buffer.getD #[]

def length (r : Routine) : Nat := r.bytes.size

/-- How many references the counter shows. -/
def refs (r : Routine) : Int := r.counter.toInt

/-- A dynamic routine with room for some bytes. -/
def new (bytes : Int) (p : Pages) : Outcome (Routine × Pages) :=
  match p.allocateCode (.ofInt bytes) with
  | .error (.failure e) => .fail (.noted "routine" e)
  | .error e => .error e
  | .ok (id, n, p) => .ok ({ buffer := some (Array.replicate n 0), mapping := id, dynamic := true }, p)

/-- A routine over the first `size` bytes of existing memory. -/
def static (memory : Array UInt8) (size offset : Int) : Outcome Routine :=
  if (memory.size : Int) < size ∨ offset < 0 ∨ size < offset then
    .refuse (.staticBuffer size memory.size offset)
  else .ok { buffer := some (memory.take size.toNat), entry := offset, size, isSealed := true,
             executable := true }

/-- Changes are for routines that are neither bound nor freed. -/
def mutable (r : Routine) (operation : String) : Outcome Unit :=
  if r.frozen then .refuse (.afterBind operation)
  else if r.freed then .refuse (.afterFree operation)
  else .ok ()

/-- Grow the buffer to at least `n` bytes, keeping its contents. -/
def resize (r : Routine) (n : Int) (p : Pages) : Outcome (Routine × Pages) := do
  r.mutable "Resize"
  if !r.dynamic || r.isSealed then .refuse .resizeSealed
  else if n ≤ r.length then return (r, p)
  else match p.allocateCode (.ofInt n) with
    | .error (.failure e) => .fail (.noted "routine: resize" e)
    | .error e => .error e
    | .ok (id, n, p) =>
      let grown := r.bytes ++ Array.replicate (n - r.length) 0
      return ({ r with buffer := some grown, mapping := id }, p.unmap r.mapping)

/-- Put bytes into the buffer from an offset on; what does not fit is dropped. -/
def write (r : Routine) (offset : Int) (bs : List UInt8) : Outcome Routine :=
  if offset < 0 ∨ (r.length : Int) < offset then .crash .outOfRange
  else
    let put := (bs.zipIdx).foldl (fun (a : Array UInt8) (b, i) =>
      a.setIfInBounds (offset.toNat + i) b) r.bytes
    .ok { r with buffer := r.buffer.map fun _ => put }

/-- Record how many bytes the code has. -/
def setFunctionSize (r : Routine) (n : Int) : Outcome Routine := do
  r.mutable "SetFunctionSize"
  if n < 0 ∨ (r.length : Int) < n then .refuse (.functionSize n r.length)
  else return { r with size := n }

/-- Fix the entry; the size stays from now on. -/
def sealAt (r : Routine) (offset : Int) : Outcome Routine := do
  r.mutable "Seal"
  if offset < 0 ∨ (r.length : Int) ≤ offset then .refuse (.entryOffset offset)
  else return { r with entry := offset, isSealed := true }

/-- Make a sealed routine's pages executable. -/
def markExecutable (r : Routine) (p : Pages) : Outcome Routine := do
  r.mutable "MarkExecutable"
  if !r.isSealed then .refuse .executableUnsealed
  else if !r.dynamic || r.executable then return r
  else match p.protect r.length with
    | .error (.failure e) => .fail (.noted "routine" e)
    | .error e => .error e
    | .ok () => return { r with executable := true }

/-- Is there an entry to call? -/
def hasEntry (r : Routine) : Bool := r.isSealed && !r.freed && r.length != 0

/-- The bytes of the code. -/
def code (r : Routine) : List UInt8 := (r.bytes.toList).take r.size.toNat

/-- One reference more on the counter. Nothing keeps it from wrapping. -/
def counted (r : Routine) : Routine := { r with counter := r.counter + 1 }

/-- One reference less. -/
def uncounted (r : Routine) : Routine := { r with counter := r.counter - 1 }

/-- Add a reference and freeze the routine. -/
def bind (r : Routine) : Outcome Routine :=
  if r.freed then .refuse .bindAfterFree
  else .ok { r.counted with frozen := true }

/-- Give the pages back, the first time. -/
def release (r : Routine) (p : Pages) : Routine × Pages :=
  if r.freed then (r, p)
  else if r.dynamic then ({ r with freed := true, buffer := none }, p.unmap r.mapping)
  else ({ r with freed := true }, p)

/-- Drop a reference; the last one releases the routine, which the answer reports. The count goes
down even when there is no reference to drop. -/
def unbind (r : Routine) (p : Pages) : Outcome Bool × Routine × Pages :=
  let r := r.uncounted
  if r.refs < 0 then (.refuse .unboundUnbind, r, p)
  else if 0 < r.refs then (.ok false, r, p)
  else (.ok true, r.release p)

/-- Release a routine that was never bound. -/
def free (r : Routine) (p : Pages) : Outcome (Routine × Pages) :=
  if r.frozen then .refuse .freeBound else .ok (r.release p)

end Routine

end SsaJit.Native
