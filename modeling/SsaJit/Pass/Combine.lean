import SsaJit.Pass.Basic

/-! Combining instructions: constants are folded, constant operands of commutative operations move
to the right, and values equal to one of their operands or to a constant are replaced. -/

namespace SsaJit.Func

/-- Move the constant operand of a commutative operation to the right. -/
def commuteConst (f : Func) (id : ValueId) : Outcome Func := do
  let v := f.value id
  if !v.op.isCommutative then return f
  let left ← f.argument v 0
  if !left.isConst then return f
  let right ← f.argument v 1
  if right.isConst then return f
  return f.modifyValue id fun v => { v with
    args := match v.args with
      | a :: b :: rest => b :: a :: rest
      | args => args }

/-- An operand the value is equal to; `missing` if none is known. -/
def equalOperand (f : Func) (v : Value) : Outcome Operand := do
  match v.args with
  | [] => return .missing
  | x :: rest =>
    let y := rest.headD .missing
    match v.op with
    | .add | .sub | .xor | .shl | .lshr | .ashr =>
      return if ← f.isSplat y 0 then x else .missing
    | .or =>
      return if ← f.isSplat y 0 then x else if x = y then x else .missing
    | .sdiv | .udiv => return if ← f.isSplat y 1 then x else .missing
    | .mul =>
      if ← f.isSplat y 1 then return x
      return if ← f.isSplat y 0 then y else .missing
    | .and =>
      if (← f.isSplat y (-1)) || x = y then return x
      return if ← f.isSplat y 0 then y else .missing
    | .copy => return x
    | .select =>
      let yes ← .at? v.args 1
      let no ← .at? v.args 2
      if yes = no then return yes
      let cond ← f.find x
      if !cond.type.isVector && cond.isConst then
        return if cond.aux ≠ 0 then yes else no
      return .missing
    | .bitcast =>
      let inner ← f.find x
      if inner.type = v.type then return x
      if inner.op = .bitcast then
        let source ← .at? inner.args 0
        if (← f.find source).type = v.type then return source
      return .missing
    | .trunc =>
      let inner ← f.find x
      if inner.op = .zext ∨ inner.op = .sext then
        let source ← .at? inner.args 0
        if (← f.find source).type = v.type then return source
      return .missing
    | .inttoptr =>
      let inner ← f.find x
      if inner.op = .ptrtoint then .at? inner.args 0 else return .missing
    | _ => return .missing

/-- The lanes of a value that does not depend on its two equal operands. -/
def equalConst? (v : Value) : Option (List UInt64) :=
  match v.args with
  | [x, y] =>
    if x ≠ y ∨ v.volatile then none
    else match v.op with
      | .sub | .xor => some (splat v.type 0)
      | .icmp => match v.predicate with
        | .eq | .sle | .sge | .ule | .uge => some (splat v.type (-1))
        | .ne | .slt | .sgt | .ult | .ugt => some (splat v.type 0)
        | _ => none
      | _ => none
  | _ => none

/-- Combine one value. -/
def combineValue (f : Func) (id : ValueId) : Optimized := do
  let f ← f.commuteConst id
  let v := f.value id
  let folded ← if v.isPure && v.op != .const && v.op != .intrinsic then f.foldValue v else pure none
  match folded with
  | some lanes => return (← f.replaceByConst id lanes, true)
  | none =>
    match ← f.equalOperand v with
    | .missing =>
      match equalConst? v with
      | some lanes => return (← f.replaceByConst id lanes, true)
      | none => return (f, false)
    | w => return (f.replaceValue id w, true)

/-- Combine every value, block by block in reverse postorder. -/
def combine (f : Func) : Optimized := do
  (← f.reversePostOrder).foldlM (fun (f, changed) b =>
    (f.block b).values.foldlM (fun (f, changed) id => do
      let v := f.value id
      if v.block.isNone || v.volatile then return (f, changed)
      let (f, more) ← f.combineValue id
      return (f, changed || more)) (f, changed)) (f, false)

end SsaJit.Func
