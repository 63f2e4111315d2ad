import SsaJit.Graph.Basic

/-! Edits of the control-flow graph. An edge is entered at both ends; taking one away also takes the
argument that each phi of the target has for it, so that phis stay in step with predecessors. -/

namespace SsaJit.Func

/-- Drop the element at a position that must exist. -/
def dropAt {α : Type} (xs : List α) (i : Nat) : Outcome (List α) :=
  if i < xs.length then .ok (xs.eraseIdx i) else .crash .outOfRange

/-- Drop the `i`-th predecessor of a block and the phi arguments that belong to it. -/
def removePred (f : Func) (b : BlockId) (i : Int) : Outcome Func := do
  if i < 0 then .crash .outOfRange
  let i := i.toNat
  let preds ← dropAt (f.block b).preds i
  let f := f.modifyBlock b fun blk => { blk with preds }
  (f.valuesOf b).foldlM (fun f (id, v) => do
    if v.op == .phi then
      let args ← dropAt v.args i
      return f.modifyValue id fun v => { v with args }
    else return f) f

def addEdge (f : Func) (b c : BlockId) : Func :=
  (f.modifyBlock b fun blk => { blk with succs := blk.succs ++ [c] }).modifyBlock c
    fun blk => { blk with preds := blk.preds ++ [b] }

/-- Take away a block's end and its edges. -/
def clearTerminator (f : Func) (b : BlockId) : Outcome Func := do
  let f ← (f.block b).succs.foldlM (fun f s =>
    match (f.block s).predIndex? b with
    | some i => f.removePred s i
    | none => .ok f) f
  return f.modifyBlock b fun blk => { blk with succs := [], control := .missing, kind := .pending }

/-- End a block with a jump. -/
def setJump (f : Func) (b target : BlockId) : Outcome Func := do
  let f ← f.clearTerminator b
  return (f.modifyBlock b fun blk => { blk with kind := .jump }).addEdge b target

/-- End a block with a branch on a condition. -/
def setBranch (f : Func) (b : BlockId) (cond : Operand) (yes no : BlockId) : Outcome Func := do
  let f ← f.clearTerminator b
  let f := f.modifyBlock b fun blk => { blk with kind := .branch, control := cond }
  return (f.addEdge b yes).addEdge b no

/-- End a block with a return, of nothing if the operand is missing. -/
def setRet (f : Func) (b : BlockId) (result : Operand) : Outcome Func := do
  let f ← f.clearTerminator b
  return f.modifyBlock b fun blk => { blk with kind := .ret, control := result }

/-- End a block that control never leaves. -/
def setUnreachable (f : Func) (b : BlockId) : Outcome Func := do
  let f ← f.clearTerminator b
  return f.modifyBlock b fun blk => { blk with kind := .unreachable }

/-- The phis of a block. -/
def phisOf (f : Func) (b : BlockId) : List (ValueId × Value) :=
  (f.valuesOf b).filter fun (_, v) => v.op == .phi

/-- Give the first phis of a block one more argument each. -/
def extendPhis (f : Func) (b : BlockId) (incoming : List Operand) : Func :=
  ((f.phisOf b).zip incoming).foldl (fun f ((id, _), o) =>
    f.modifyValue id fun v => { v with args := v.args ++ [o] }) f

/-- Turn the first edge of a block to `old` towards `repl`; the arguments that phis of `old` had for
it go to the phis of `repl` in order. -/
def replaceSucc (f : Func) (b old repl : BlockId) : Outcome Func := do
  match (f.block b).succs.findIdx? (· == old) with
  | none => return f
  | some i =>
    let (f, incoming) ← match (f.block old).predIndex? b with
      | none => pure (f, [])
      | some j =>
        let incoming ← (f.phisOf old).mapM fun (_, v) => .at? v.args j
        pure (← f.removePred old j, incoming)
    let f := f.modifyBlock b fun blk => { blk with succs := blk.succs.set i repl }
    let f := f.modifyBlock repl fun blk => { blk with preds := blk.preds ++ [b] }
    return f.extendPhis repl incoming

end SsaJit.Func
