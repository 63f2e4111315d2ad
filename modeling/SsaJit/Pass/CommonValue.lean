import SsaJit.Pass.Basic
import SsaJit.Graph.Dominance

/-! Common values. Going down the dominator tree with a table of the pure values met on the way, a
value with the same key as one in the table is replaced by it. -/

namespace SsaJit.Func

/-- What two pure values must agree on to be the same. -/
structure ValueKey where
  op : Op
  type : Ty
  aux : Int64
  args : List Nat
  lanes : Option (List UInt64)
  mask : Option (List Int)
  global : Option Nat
  deriving DecidableEq, Repr

/-- The key of a value; the operands of a commutative operation are put in order. -/
def valueKey (f : Func) (v : Value) : Outcome ValueKey := do
  let args ← v.args.mapM f.number
  let args := match args with
    | [a, b] => if v.op.isCommutative && b < a then [b, a] else [a, b]
    | args => args
  return { op := v.op, type := v.type, aux := v.aux, args, lanes := v.lanes, mask := v.mask,
           global := v.global.map Global.id }

/-- Pure values that dominate the place reached, by key. -/
abbrev Available := List (ValueKey × ValueId)

/-- Share one block's values. -/
def shareBlock (f : Func) (seen : Available) (b : BlockId) :
    Outcome (Func × Available × Bool) :=
  (f.block b).values.foldlM (fun (f, seen, changed) id => do
    let v := f.value id
    if !v.isPure then return (f, seen, changed)
    let key ← f.valueKey v
    match seen.lookup key with
    | some w => return (f.replaceValue id (.value w), seen, true)
    | none => return (f, (key, id) :: seen, changed)) (f, seen, false)

/-- Share the values of a block and of those it dominates. -/
def shareTree (dom : DomTree) : Nat → Func → Available → BlockId → Optimized
  | 0, f, _, _ => .ok (f, false)
  | fuel + 1, f, seen, b => do
    let (f, seen, changed) ← f.shareBlock seen b
    (dom.childrenOf b).foldlM (fun (f, changed) c => do
      let (f, more) ← shareTree dom fuel f seen c
      return (f, changed || more)) (f, changed)

/-- Share common values. The dominator tree is no deeper than the function has blocks. -/
def shareCommon (f : Func) : Optimized := do
  let dom ← f.domTree
  shareTree dom (f.numBlocks + 1) f [] (← f.entry)

end SsaJit.Func
