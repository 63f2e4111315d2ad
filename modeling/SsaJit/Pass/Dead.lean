import SsaJit.Pass.Basic

/-! Dead-value elimination. Values that must run, parameters and what the blocks' ends read are
live, and so is whatever a live value reads; all else is taken out. -/

namespace SsaJit.Func

/-- A value that is live on its own account. -/
def isRoot (v : Value) : Bool := v.op.hasSideEffects || v.volatile || v.op == .param

/-- Liveness by number, and the operands whose own operands are still to be marked. -/
structure Marking where
  live : Array Bool
  work : List Operand

/-- Mark an operand live; marking nothing is allowed. -/
def Marking.mark (f : Func) (m : Marking) (o : Operand) : Outcome Marking := do
  if o = .missing then return m
  let n ← f.number o
  match m.live[n]? with
  | none => .crash .outOfRange
  | some true => return m
  | some false => return { live := m.live.setIfInBounds n true, work := o :: m.work }

/-- Mark what the waiting operands read, and so on. -/
def Marking.close (f : Func) : Nat → Marking → Outcome Marking
  | 0, m => .ok m
  | fuel + 1, m =>
    match m.work with
    | [] => .ok m
    | o :: work => do
      let v ← f.find o
      let m ← v.args.foldlM (Marking.mark f) { m with work }
      Marking.close f fuel m

/-- Which numbers are live. Each number waits at most once. -/
def liveness (f : Func) : Outcome (Array Bool) := do
  let start : Marking := { live := Array.replicate f.numValues false, work := [] }
  let m ← f.layout.foldlM (fun m b => do
    let m ← (f.valuesOf b).foldlM (fun m (id, v) =>
      if isRoot v then Marking.mark f m (.value id) else .ok m) m
    Marking.mark f m (f.block b).control) start
  return (← Marking.close f (f.numValues + 1) m).live

/-- Take the dead values out. -/
def removeDead (f : Func) : Optimized := do
  let live ← f.liveness
  return f.layout.foldl (fun (f, changed) b =>
    let dead := (f.block b).values.filter fun v => !live.getD v false
    let f := f.modifyBlock b fun blk => { blk with
      values := blk.values.filter fun v => live.getD v false }
    let f := dead.foldl (fun f v => f.modifyValue v fun val => { val with block := none }) f
    (f, changed || !dead.isEmpty)) (f, false)

end SsaJit.Func
