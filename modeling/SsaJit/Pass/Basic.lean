import SsaJit.Graph.Edit
import SsaJit.Graph.Order
import SsaJit.Graph.Basic

/-! Steps that several optimisations share. -/

namespace SsaJit.Func

/-- What an optimisation answers: the function after it and whether it reports a change. -/
abbrev Optimized := Outcome (Func × Bool)

/-- Put an operand for a value everywhere and take the value out of its block. -/
def replaceValue (f : Func) (v : ValueId) (w : Operand) : Func :=
  let f := f.replaceUses (.value v) w
  match (f.value v).block with
  | some b => f.removeValue b v
  | none => f

/-- Where a value stands in its block. -/
def indexIn (f : Func) (b : BlockId) (v : ValueId) : Int :=
  match (f.block b).values.findIdx? (· == v) with
  | some i => i
  | none => -1

/-- Put a new constant just before a value, for the value. -/
def replaceByConst (f : Func) (v : ValueId) (lanes : List UInt64) : Outcome Func := do
  let b ← .need (f.value v).block
  let (f, c) ← f.insertConst b (f.indexIn b v) (f.value v).type lanes
  return f.replaceValue v (.value c)

/-- One pattern in every lane. -/
def splat (t : Ty) (w : UInt64) : List UInt64 := List.replicate t.numLanes w

/-- Is the operand a constant with this pattern, cut to its kind, in every lane? -/
def isSplat (f : Func) (o : Operand) (w : UInt64) : Outcome Bool := do
  let v ← f.find o
  match v.constLanes with
  | none => return false
  | some lanes => return lanes.all (· == v.type.elemKind.canon w)

/-- Places of a block among the predecessors of another. -/
def predPlaces (f : Func) (s b : BlockId) : List Nat :=
  ((f.block s).preds.zipIdx.filter fun (p, _) => p == b).map (·.2)

/-- Make a branch a jump along its `k`-th edge. If both edges lead to one block, its first entry for
the branch belongs to edge 0 and its second to edge 1. -/
def foldBranch (f : Func) (b : BlockId) (k : Nat) : Outcome Func := do
  let succs := (f.block b).succs
  let keep ← .at? succs k
  let drop ← .at? succs (1 - k)
  let places := f.predPlaces drop b
  let i ← .at? places (if drop = keep ∧ k = 0 then 1 else 0)
  let f ← f.removePred drop i
  return f.modifyBlock b fun blk => { blk with kind := .jump, control := .missing, succs := [keep] }

/-- Drop the blocks that the entry does not reach. -/
def removeUnreachable (f : Func) : Optimized := do
  let live ← f.reversePostOrder
  let dead := f.layout.filter fun b => !live.contains b
  let f ← dead.foldlM (fun f b => f.clearTerminator b) f
  let f := dead.foldl (fun f b =>
    let f := (f.block b).values.foldl (fun f v =>
      f.modifyValue v fun val => { val with block := none }) f
    f.removeBlock b) f
  return (f, !dead.isEmpty)

end SsaJit.Func
