import SsaJit.Build.Handle
import SsaJit.Graph.Verify
import SsaJit.Pass.Pipeline
import SsaJit.Native.Engine
import SsaJit.Llvm.Export

/-! Finishing a session's function: blocks without an end get one, the function is verified and
optimised, and its code is generated into a routine. A session gives one routine at most. -/

namespace SsaJit.Build

/-- A routine with what its compilation took. -/
structure Acquired where
  routine : Native.Routine
  stats : Native.Stats

/-- The single errors that a failure reports. -/
def causes : Failure → List String
  | .invalidFunction f vs => vs.map (Violation.message f)
  | e => [e.message]

namespace BuildM

def note (level : Log.Level) (message : String) (fields : List (String × String)) : BuildM Unit :=
  modify fun s => { s with log := s.log ++ [⟨level, message, fields⟩] }

/-- Give up with a failure: raise it in debug mode if the input is to blame, else log it and hand it
back. -/
def giveUp {α : Type} (e : Failure) : BuildM α := do
  if (← get).config.debug && (e.class == .unsupported || e.class == .invalid) then raise e
  let name := ((← get).func.map (·.name)).getD ""
  note .error "reactor: failed to generate routine"
    (("function", name) :: (causes e).map fun c => ("error", c))
  throw (.failure e)

/-- Run the usual optimisations once. -/
def optimize : BuildM Unit := do
  let p ← lift (Pipeline.ofNames (← get).config.passes)
  let f ← function
  let (f, _, _) ← lift (p.run f {})
  setFunction f

/-- The value that a function returns when control falls off its end. -/
def zeroOf (t : Ty) : Value :=
  { op := .const, type := t,
    lanes := if t.isVector then some (List.replicate t.numLanes 0) else none }

/-- Give every block an end: the insertion block returns zero or nothing, the others are not
reached. -/
def terminate (cursor : Option BlockId) (f : Func) : Outcome Func :=
  f.layout.foldlM (fun f b =>
    if (f.block b).isTerminated then .ok f
    else if some b ≠ cursor then f.setUnreachable b
    else if f.ret.isVoid then f.setRet b .missing
    else
      let (f, result) := f.appendValue b (zeroOf f.ret)
      f.setRet b (.value result)) f

/-- Verify the function; a flawed one is given up, with a note on where it was found. -/
def verified (wrapFailure : Failure → Failure) : BuildM Unit := do
  let f ← function
  let found ← lift f.verify
  if !found.isEmpty then giveUp (wrapFailure (.invalidFunction f.name found))

/-- Log the texts of the function that the settings ask for. -/
def dump : BuildM Unit := do
  let s ← get
  let f ← function
  if s.config.dumpIr then
    note .info "reactor: IR" [("function", f.name), ("ir", ← lift f.text)]
  if s.config.dumpLlvm then
    match f.llvm s.module.globals with
    | .ok t => note .info "reactor: LLVM" [("function", f.name), ("llvm", t)]
    | .error (.failure e) => note .warn "reactor: LLVM export failed" [("error", e.message)]
    | .error e => throw e

/-- Finish the function and generate its routine, referenced once. -/
def acquire (name : String) (optimizing : Bool) : BuildM Acquired := do
  let s ← get
  if s.closed then throw (.failure .sessionClosed)
  if s.acquired then throw (.failure .alreadyAcquired)
  let some f := s.func | throw (.failure .noFunction)
  match s.nest with
  | [] => pure ()
  | top :: _ =>
    let inner := (s.scopes.getD top default).construct.name
    throw (.failure (.scope (.stillOpen s.nest.length inner)))
  let f := if name.isEmpty then f else { f with name }
  set { s with acquired := true, func := some f }
  setFunction (← lift (terminate s.cursor f))
  verified id
  if optimizing then
    optimize
    verified (.noted "after optimization")
  dump
  let f ← function
  let stack := ({} : Config).nativeStackSize
  match Native.compile Native.RoutineManager.bodies s.cpu (Config.frameLimit stack) f
      { debug := s.config.debug } with
  | (.error (.failure e), _, _) => giveUp e
  | (.error e, _, _) => throw e
  | (.ok (), stats, m) =>
    match m.current with
    | none => crash .absent
    | some r =>
      let r ← lift r.bind
      if s.config.dumpAsm then note .info "reactor: disassembly" [("function", f.name)]
      return ⟨r, stats⟩

/-- End the session, whatever comes of it. -/
def closing {α : Type} (act : BuildM α) : BuildM α := do
  try
    let a ← act
    modify Session.close
    return a
  catch e =>
    modify Session.close
    throw e

/-- Finish the function as the settings say and close the session. -/
def finalize (name : String) : BuildM Acquired := do
  closing (acquire name (← get).config.optimize)

end BuildM

end SsaJit.Build
