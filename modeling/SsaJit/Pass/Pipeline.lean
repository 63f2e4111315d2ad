import SsaJit.Pass.Combine
import SsaJit.Pass.ControlFlow
import SsaJit.Pass.Hoist
import SsaJit.Pass.Dead
import SsaJit.Pass.CommonValue
import SsaJit.Pass.Reassociate
import SsaJit.Pass.Promote
import SsaJit.Pass.ConstProp

/-! The optimisations by name, and sequences of them with a tally of what they did. -/

namespace SsaJit

/-- The optimisations. -/
inductive Pass
  | instcombine | simplifycfg | licm | dce | cse | reassociate | sroa | sccp
  deriving DecidableEq, Repr

namespace Pass

/-- All of them, in the order in which they run unless told otherwise. -/
def all : List Pass :=
  [.instcombine, .simplifycfg, .licm, .dce, .cse, .reassociate, .sroa, .sccp]

def name : Pass → String
  | .instcombine => "instcombine" | .simplifycfg => "simplifycfg" | .licm => "licm"
  | .dce => "dce" | .cse => "cse" | .reassociate => "reassociate" | .sroa => "sroa"
  | .sccp => "sccp"

/-- The optimisation of a name. -/
def named (n : String) : Outcome Pass :=
  match all.find? (·.name == n) with
  | some p => .ok p
  | none => .fail (.unknownPass n (all.map name))

/-- Run an optimisation. -/
def run : Pass → Func → Func.Optimized
  | .instcombine => Func.combine
  | .simplifycfg => Func.simplifyControlFlow
  | .licm => Func.hoist
  | .dce => Func.removeDead
  | .cse => Func.shareCommon
  | .reassociate => Func.reassociate
  | .sroa => Func.promote
  | .sccp => Func.propagateConstants

/-- Run optimisations by name and collect whether each changed something and the function after it.
At the first name that is none the run ends, with the function as it is by then. -/
def runNamed : List String → Func → Outcome (List (Bool × Func)) × Func
  | [], f => (.ok [], f)
  | n :: rest, f =>
    match do (← named n).run f with
    | .error e => (.error e, f)
    | .ok (f, changed) =>
      let (more, last) := runNamed rest f
      (more.map ((changed, f) :: ·), last)

end Pass

/-- What a pipeline has done. -/
structure Tally where
  runs : Nat := 0
  changes : Nat := 0
  /-- Changes by optimisation, in the order of the first. -/
  perPass : List (Pass × Nat) := []
  deriving Repr, Inhabited

def Tally.count (t : Tally) (p : Pass) : Nat := (t.perPass.lookup p).getD 0

def Tally.add (t : Tally) (p : Pass) (changed : Bool) : Tally :=
  if changed then
    { runs := t.runs + 1, changes := t.changes + 1,
      perPass := if (t.perPass.lookup p).isSome
        then t.perPass.map fun (q, n) => if q = p then (q, n + 1) else (q, n)
        else t.perPass ++ [(p, 1)] }
  else { t with runs := t.runs + 1 }

/-- A sequence of optimisations. -/
structure Pipeline where
  passes : List Pass

namespace Pipeline

/-- The pipeline of these names; no names mean all optimisations. -/
def ofNames (names : List String) : Outcome Pipeline := do
  if names.isEmpty then return ⟨Pass.all⟩
  return ⟨← names.mapM Pass.named⟩

/-- Run the pipeline once. -/
def run (p : Pipeline) (f : Func) (t : Tally) : Outcome (Func × Tally × Bool) :=
  p.passes.foldlM (fun (f, t, changed) q => do
    let (f, more) ← q.run f
    return (f, t.add q more, changed || more)) (f, t, false)

/-- Run the pipeline until it changes nothing, at most `n` times. -/
def runUntilFixed (p : Pipeline) : Nat → Func → Tally → Outcome (Func × Tally)
  | 0, f, t => .ok (f, t)
  | n + 1, f, t => do
    let (f, t, changed) ← p.run f t
    if changed then p.runUntilFixed n f t else return (f, t)

end Pipeline

end SsaJit
