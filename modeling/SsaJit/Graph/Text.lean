import SsaJit.Graph.Basic

/-! Functions as text: one line for each value and each block's end. -/

namespace SsaJit

/-- Items between square brackets, separated by blanks. -/
def bracketed (xs : List String) : String := "[" ++ joinWith " " xs ++ "]"

namespace Func

/-- An operand as it is written. -/
def label (f : Func) : Operand → String
  | .missing => "<nil>"
  | .value v => valueLabel v
  | .foreign k => valueLabel (f.foreigns.getD k default).number

/-- What stands between a value's type and its operands. -/
def auxText (v : Value) : Outcome String :=
  match v.op with
  | .const =>
    .ok (if v.type.isVector then " " ++ bracketed ((v.lanes.getD []).map hexWord)
      else " " ++ hexWord v.aux.toUInt64)
  | .param => .ok (" #" ++ decimal v.aux.toInt)
  | .alloca => .ok (" [" ++ decimal v.aux.toInt ++ " bytes]")
  | .gep => .ok (" ×" ++ decimal v.aux.toInt)
  | .extract | .insert => .ok (" [" ++ decimal v.aux.toInt ++ "]")
  | .globalAddr => do return " @" ++ (← .need v.global).name
  | _ => .ok ""

/-- What stands between an operation and its type. -/
def qualifier (v : Value) : String :=
  match v.op with
  | .icmp | .fcmp => " " ++ v.predicate.name
  | .intrinsic => " " ++ v.intrinsic.name
  | _ => ""

/-- What stands after the operands. -/
def suffixText (v : Value) : String :=
  match v.op with
  | .shuffle => " " ++ bracketed ((v.mask.getD []).map decimal)
  | .load | .store =>
    " align " ++ decimal v.aux.toInt ++ if v.volatile then " volatile" else ""
  | _ => ""

/-- The instruction of a value numbered `n`. -/
def instrText (f : Func) (n : Nat) (v : Value) : Outcome String := do
  let result := if v.type.isVoid then "" else valueLabel n ++ " = "
  let operands := String.join (v.args.map fun o => " " ++ f.label o)
  return result ++ v.op.name ++ qualifier v ++ " " ++ v.type.name ++ (← auxText v) ++ operands ++
    suffixText v

/-- The instruction of one of the function's values. -/
def valueText (f : Func) (v : ValueId) : Outcome String := f.instrText v (f.value v)

/-- The end of a block. -/
def endText (f : Func) (b : Block) : Outcome String := do
  match b.kind with
  | .jump => return "    br " ++ blockLabel (← .at? b.succs 0) ++ "\n"
  | .branch =>
    return "    br " ++ f.label b.control ++ ", " ++ blockLabel (← .at? b.succs 0) ++ ", " ++
      blockLabel (← .at? b.succs 1) ++ "\n"
  | .ret =>
    return if b.control = .missing then "    ret void\n"
      else "    ret " ++ f.label b.control ++ "\n"
  | .unreachable => return "    unreachable\n"
  | _ => return "    <open>\n"

def blockText (f : Func) (b : BlockId) : Outcome String := do
  let blk := f.block b
  let preds := if blk.preds.isEmpty then ""
    else " ; preds" ++ String.join (blk.preds.map fun p => " " ++ blockLabel p)
  let lines ← blk.values.mapM fun v => return "    " ++ (← f.valueText v) ++ "\n"
  return blockLabel b ++ ":" ++ preds ++ "\n" ++ String.join lines ++ (← f.endText blk)

/-- The whole function. -/
def text (f : Func) : Outcome String := do
  let blocks ← f.layout.mapM f.blockText
  return "func " ++ f.name ++ "(" ++ joinWith ", " (f.params.map Ty.name) ++ ") " ++ f.ret.name ++
    " \x7b\n" ++ String.join blocks ++ "\x7d\n"

end Func

end SsaJit
