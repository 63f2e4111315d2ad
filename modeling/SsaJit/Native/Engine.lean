import SsaJit.Lower.Function
import SsaJit.Native.Routine

/-! Compiling a function into memory that a body manager hands out. The first buffer is asked for
without a size; if the code does not fit, the next ones are asked for with the size needed. -/

namespace SsaJit.Native

/-- Whoever provides buffers for function bodies. `start` is given the size wanted, zero for an
estimate of its own, and answers the size of the buffer. -/
structure BodyManager (σ : Type) where
  start : Func → Int → σ → Outcome Nat × σ
  tooSmall : Func → σ → σ
  write : List UInt8 → σ → σ
  finish : Func → Int → Int → σ → Outcome Unit × σ
  makeExecutable : σ → Outcome Unit × σ

/-- What a compilation took. -/
structure Stats where
  codeBytes : Nat := 0
  dataBytes : Nat := 0
  frameBytes : Int := 0
  attempts : Nat := 0
  deriving DecidableEq, Repr, Inhabited

/-- How often a body is asked for at most. -/
def maxAttempts : Nat := 3

/-- Find room for the code in at most `n` more attempts. -/
def fill {σ : Type} (m : BodyManager σ) (f : Func) (code : List UInt8) :
    Nat → Int → Stats → σ → Outcome Unit × Stats × σ
  | 0, _, stats, s =>
    (.fail (.bodyTooSmall f.name code.length stats.attempts), stats, s)
  | n + 1, size, stats, s =>
    let stats := { stats with attempts := stats.attempts + 1 }
    match m.start f size s with
    | (.error e, s) => (.error e, stats, s)
    | (.ok room, s) =>
      if code.length ≤ room then (.ok (), stats, m.write code s)
      else fill m f code n code.length stats (m.tooSmall f s)

/-- Generate code and install it. -/
def compile {σ : Type} (m : BodyManager σ) (cpu : Lower.Features) (frameLimit : Int) (f : Func)
    (s : σ) : Outcome Unit × Stats × σ :=
  match Lower.generate f cpu frameLimit with
  | .error e => (.error e, {}, s)
  | .ok out =>
    let code := out.code.toList
    let stats : Stats := { codeBytes := out.codeSize, dataBytes := code.length - out.codeSize,
                           frameBytes := out.frameSize.toInt }
    match fill m f code maxAttempts 0 stats s with
    | (.error e, stats, s) => (.error e, stats, s)
    | (.ok (), stats, s) =>
      match m.finish f 0 code.length s with
      | (.error e, s) => (.error e, stats, s)
      | (.ok (), s) =>
        let (r, s) := m.makeExecutable s
        (r, stats, s)

/-! ## Bodies in routines -/

/-- Keeps the body under construction in a routine. Without a size it estimates one from the number
of instructions, and learns from estimates that were too small. -/
structure RoutineManager where
  debug : Bool := false
  pages : Pages := {}
  current : Option Routine := none
  /-- Estimated bytes of code for one instruction. -/
  average : Nat := 5

namespace RoutineManager

/-- Release the body under construction. -/
def discard (m : RoutineManager) : Outcome RoutineManager :=
  match m.current with
  | none => .ok m
  | some r => do
    let (_, pages) ← r.free m.pages
    return { m with current := none, pages }

def noteBody (f : Func) : Fault → Fault
  | .failure e => .failure (.noted ("jit: function body for " ++ f.name) e)
  | e => e

/-- A buffer of at least `size` bytes, the current one grown if there is one. -/
def start (f : Func) (size : Int) (m : RoutineManager) : Outcome Nat × RoutineManager :=
  let size : Int := if size ≤ 0 then (f.numInstructions * m.average : Nat) else size
  let size := (m.pages.roundUp (.ofInt (if size < 1 then 1 else size))).toInt
  match m.current with
  | some r =>
    match r.resize size m.pages with
    | .ok (r, pages) => (.ok r.length, { m with current := some r, pages })
    | .error (.failure e) =>
      match m.discard with
      | .ok m => (.error (noteBody f (.failure e)), m)
      | .error e => (.error e, m)
    | .error e => (.error e, m)
  | none =>
    match Routine.new size m.pages with
    | .ok (r, pages) => (.ok r.length, { m with current := some r, pages })
    | .error e => (.error (noteBody f e), m)

def tooSmall (_ : Func) (m : RoutineManager) : RoutineManager := { m with average := m.average + 1 }

def write (bs : List UInt8) (m : RoutineManager) : RoutineManager :=
  { m with current := m.current.map fun r => (r.write 0 bs).toOption.getD r }

/-- The body is complete: its code lies between two offsets. -/
def finish (f : Func) (first last : Int) (m : RoutineManager) : Outcome Unit × RoutineManager :=
  match m.current with
  | none => (.fail (.noBody f.name), m)
  | some r =>
    match r.setFunctionSize last with
    | .error e => (.error e, m)
    | .ok r =>
      match r.sealAt first with
      | .error e => (.error e, { m with current := some r })
      | .ok r => (.ok (), { m with current := some r })

def makeExecutable (m : RoutineManager) : Outcome Unit × RoutineManager :=
  match m.current with
  | none => (.ok (), m)
  | some r =>
    match r.markExecutable m.pages with
    | .error e => (.error e, m)
    | .ok r => (.ok (), { m with current := some r })

/-- Hand over the finished routine. -/
def take (m : RoutineManager) : Option Routine × RoutineManager :=
  (m.current, { m with current := none })

/-- Requests that are not supported are refused in debug mode and fail otherwise. -/
def unsupported (m : RoutineManager) (request : String) : Outcome Unit :=
  if m.debug then .refuse (.callback request) else .fail (.callback request)

def bodies : BodyManager RoutineManager := { start, tooSmall, write, finish, makeExecutable }

end RoutineManager

end SsaJit.Native
