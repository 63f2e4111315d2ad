import SsaJit.Pass.Basic
import SsaJit.Graph.Dominance

/-! Moving loop invariants out of loops. A loop whose header is entered from one outside block that
only leads there gets its invariants moved to the end of that block, inner loops first. -/

namespace SsaJit.Func

/-- The one block outside a loop that leads to its header and nowhere else. -/
def preheader? (f : Func) (l : Loop) : Option BlockId :=
  match ((f.block l.header).preds.filter fun p => !l.contains p).eraseDups with
  | [p] => if (f.block p).succs.length = 1 then some p else none
  | _ => none

/-- Is the value pure, without traps, and free of operands from the loop? -/
def isInvariant (f : Func) (l : Loop) (v : Value) : Outcome Bool :=
  if !v.isPure || v.op.isTrapping then .ok false
  else v.args.foldlM (fun ok o => do
    if !ok then return false
    let a ← f.find o
    match o, a.block with
    | .value _, some b => return !l.contains b
    | _, _ => return true) true

/-- Move a value to the end of another block. -/
def moveValue (f : Func) (source target : BlockId) (id : ValueId) : Func :=
  let f := f.removeValue source id
  let f := f.modifyValue id fun v => { v with block := some target }
  f.modifyBlock target fun blk => { blk with values := blk.values ++ [id] }

/-- Move the invariants of a loop once through its blocks. -/
def hoistSweep (l : Loop) (pre : BlockId) (rpo : List BlockId) (f : Func) : Optimized :=
  (rpo.filter l.contains).foldlM (fun (f, moved) b =>
    (f.block b).values.foldlM (fun (f, moved) id => do
      if ← f.isInvariant l (f.value id) then return (f.moveValue b pre id, true)
      return (f, moved)) (f, moved)) (f, false)

/-- Sweeps until nothing moves. -/
def hoistSweeps (l : Loop) (pre : BlockId) (rpo : List BlockId) : Nat → Func → Bool → Optimized
  | 0, f, changed => .ok (f, changed)
  | fuel + 1, f, changed => do
    let (f, moved) ← hoistSweep l pre rpo f
    if moved then hoistSweeps l pre rpo fuel f true else return (f, changed)

/-- Hoist out of one loop. Every sweep but the last takes a value out of the loop. -/
def hoistLoop (f : Func) (l : Loop) (rpo : List BlockId) : Optimized :=
  match f.preheader? l with
  | none => .ok (f, false)
  | some pre => hoistSweeps l pre rpo (f.numValues + 1) f false

/-- Hoist out of all loops. -/
def hoist (f : Func) : Optimized := do
  let dom ← f.domTree
  (f.loops dom).reverse.foldlM (fun (f, changed) l => do
    let (f, more) ← f.hoistLoop l dom.rpo
    return (f, changed || more)) (f, false)

end SsaJit.Func
