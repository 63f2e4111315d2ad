import SsaJit.Pass.Basic

/-! Reassociation: the constants in a chain of an associative integer operation are joined into one,
and subtracting a constant becomes adding its negative. -/

namespace SsaJit.Func

def isAssociative : Op → Bool
  | .add | .mul | .and | .or | .xor => true
  | _ => false

/-- Put a new constant just before a value and make it the value's second operand. -/
def setSecondConst (f : Func) (id : ValueId) (lanes : List UInt64) : Outcome Func := do
  let v := f.value id
  let b ← .need v.block
  let (f, c) ← f.insertConst b (f.indexIn b id) v.type lanes
  return f.modifyValue id fun v => { v with args := v.args.set 1 (.value c) }

/-- Lanes of a constant, as many as a type has. -/
def lanesLike (t : Ty) (c : Value) : Outcome (List UInt64) :=
  (List.range t.numLanes).mapM c.constLane

/-- `x - c` as `x + (-c)`. -/
def negateSubtrahend (f : Func) (id : ValueId) (c : Value) : Outcome Func := do
  let lanes ← lanesLike (f.value id).type c
  let f := f.modifyValue id fun v => { v with op := .add }
  f.setSecondConst id (lanes.map (0 - ·))

/-- `(x op c₁) op c₂` as `x op (c₁ op c₂)`; the constant operand goes to the right in any case. -/
def joinConstants (f : Func) (id : ValueId) : Optimized := do
  let v := f.value id
  let left ← f.argument v 0
  let f ← if left.isConst then do
      let right ← f.argument v 1
      if right.isConst then pure f else
        pure (f.modifyValue id fun v => { v with
          args := match v.args with
            | a :: b :: rest => b :: a :: rest
            | args => args })
    else pure f
  let v := f.value id
  let inner ← f.argument v 0
  if inner.op ≠ v.op then return (f, false)
  let c₂ ← f.argument v 1
  if !c₂.isConst || inner.volatile then return (f, false)
  let x ← .at? inner.args 0
  let y ← .at? inner.args 1
  let yValue ← f.find y
  let picked ← if yValue.isConst then pure (some (x, yValue)) else do
    let xValue ← f.find x
    pure (if xValue.isConst then some (y, xValue) else none)
  match picked with
  | none => return (f, false)
  | some (x, c₁) =>
    let joined ← Operation.perLane (fun i => do
      evalBinary v.op v.type.elemKind (← c₁.constLane i) (← c₂.constLane i))
      (List.range v.type.numLanes)
    match joined with
    | none => return (f, false)
    | some lanes =>
      let f := f.modifyValue id fun v => { v with args := v.args.set 0 x }
      return (← f.setSecondConst id lanes, true)

/-- Reassociate one value. -/
def reassociateValue (f : Func) (id : ValueId) : Optimized := do
  let v := f.value id
  if v.args.length ≠ 2 then return (f, false)
  if v.op = .sub then
    let c ← f.argument v 1
    if c.isConst then return (← f.negateSubtrahend id c, true)
  if isAssociative v.op then f.joinConstants id else return (f, false)

/-- Reassociate every integer value, block by block in reverse postorder. -/
def reassociate (f : Func) : Optimized := do
  (← f.reversePostOrder).foldlM (fun (f, changed) b =>
    (f.block b).values.foldlM (fun (f, changed) id => do
      let v := f.value id
      if v.block.isNone || !v.type.isInt || v.volatile then return (f, changed)
      let (f, more) ← f.reassociateValue id
      return (f, changed || more)) (f, changed)) (f, false)

end SsaJit.Func
