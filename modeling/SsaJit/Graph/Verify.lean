import SsaJit.Graph.Dominance
import SsaJit.Graph.Text

/-! The verifier: edges entered at both ends, blocks that end properly, phis in front and in step with
the predecessors, definitions that dominate their uses, and operands of the right types. It reports
every violation it finds, block by block. -/

namespace SsaJit.Func

/-- What the checks of one function share. -/
structure Checker where
  func : Func
  dom : DomTree
  /-- Where each value stands in the block that lists it. -/
  position : Array Nat

/-- Violations found by a check; the check itself may crash on what it looks at. -/
abbrev Findings := Outcome (List Violation)

/-- Report a violation unless a condition holds. -/
def orReport (holds : Bool) (v : Violation) : List Violation := if holds then [] else [v]

/-- The operand must be defined before position `pos` of block `b` on every path. -/
def Checker.use (c : Checker) (b : BlockId) (pos : Nat) (o : Operand) : Findings := do
  if o = .missing then return [.missingOperand b]
  let n ← c.func.number o
  match o with
  | .value v =>
    match (c.func.value v).block with
    | none => return [.undefinedOperand b n]
    | some d =>
      if (c.func.block d).isForeign then return [.undefinedOperand b n]
      else if !c.dom.isReachable b then return []
      else if d = b then return orReport (c.position.getD v 0 < pos) (.usedBeforeDefinition b n)
      else return orReport (c.dom.dominates d b) (.notDominating b n)
  | _ => return [.undefinedOperand b n]

/-- The edges of a block must be entered at their other ends. -/
def Checker.edges (c : Checker) (b : BlockId) : List Violation :=
  let blk := c.func.block b
  (blk.succs.flatMap fun s =>
    orReport ((c.func.block s).preds.contains b) (.edgeWithoutPred b s)) ++
  blk.preds.flatMap fun p =>
    orReport ((c.func.block p).succs.contains b) (.predWithoutEdge b p)

/-- A block must end, and end in keeping with the function's type. -/
def Checker.terminator (c : Checker) (b : BlockId) : Findings := do
  let blk := c.func.block b
  let ret := c.func.ret
  match blk.kind with
  | .pending => return [.unterminated b]
  | .jump => return orReport (blk.succs.length == 1) (.jumpArity b)
  | .branch =>
    let arity := orReport (blk.succs.length == 2) (.branchArity b)
    if blk.control = .missing then return arity ++ [.branchCondition b]
    else if (← c.func.find blk.control).type ≠ .i1 then return arity ++ [.branchCondition b]
    else return arity ++ (← c.use b blk.values.length blk.control)
  | .ret =>
    if blk.control = .missing then
      return orReport ret.isVoid (.returnType b ret)
    else if ret.isVoid then return [.valueFromVoid b]
    else if (← c.func.find blk.control).type ≠ ret then return [.returnType b ret]
    else c.use b blk.values.length blk.control
  | _ => return []

/-- The type rules of a cast. -/
def castRule? (op : Op) (source target : Ty) : Option CastRule :=
  let s := source.elemKind
  let t := target.elemKind
  let broken (ok : Bool) (r : CastRule) := if ok then none else some r
  if op = .bitcast then broken (source.size == target.size && source.kind != .i1) .bitcastSize
  else if source.numLanes ≠ target.numLanes then some .laneCount
  else match op with
    | .trunc => broken (s.isInt && t.isInt && t.bits < s.bits) .trunc
    | .zext | .sext => broken (s.isInt && t.isInt && s.bits < t.bits) .extension
    | .fptosi | .fptoui => broken (s == .f32 && t.isInt && t != .i1) .floatToInt
    | .sitofp | .uitofp => broken (s.isInt && t == .f32) .intToFloat
    | .ptrtoint => broken (s == .ptr && t.isInt) .ptrToInt
    | .inttoptr => broken (s.isInt && t == .ptr) .intToPtr
    | _ => none

/-- Both conditions, the second looked at only if the first holds. -/
def both (a b : Outcome Bool) : Outcome Bool := do if ← a then b else return false

/-- Operand count and types of a value that is no phi. -/
def Checker.types (c : Checker) (id : ValueId) (v : Value) : Findings := do
  let f := c.func
  let argType (i : Nat) : Outcome Ty := return (← f.argument v i).type
  let require (ok : Bool) (r : TypeRule) : Findings := do
    if ok then return [] else return [.type (← f.instrText id v) r]
  let arity (n : Nat) (k : Findings) : Findings := do
    if v.args.length ≠ n then return [.operandCount (← f.instrText id v) n] else k
  let laneInside (t : Ty) : Bool := 0 ≤ v.aux.toInt && v.aux.toInt < t.numLanes
  if v.op.isBinary then
    arity 2 do
      let same ← both (return (← argType 0) == v.type) (return (← argType 1) == v.type)
      let kind ← if v.op.isFloatBinary then require v.type.isFloat .floatOperation
        else require v.type.isInt .integerOperation
      return (← require same .operandTypes) ++ kind
  else if v.op.isCast then
    arity 1 do
      let source ← argType 0
      match castRule? v.op source v.type with
      | some r => return [.cast (← f.instrText id v) r source v.type]
      | none => return []
  else match v.op with
  | .fneg | .fsqrt =>
    arity 1 do
      require (← both (return v.type.isFloat) (return (← argType 0) == v.type)) .floatUnary
  | .icmp | .fcmp =>
    arity 2 do
      let a ← argType 0
      let operands ← require (a == (← argType 1)) .compareOperands
      let result ← require (v.type == (← a.maskType)) .compareResult
      let cls ← require (v.predicate.isFloat == (v.op == .fcmp)) .predicateClass
      let kind ← if v.op == .icmp then require (a.isInt || a.isPtr) .integerCompare
        else require a.isFloat .floatCompare
      return operands ++ result ++ cls ++ kind
  | .alloca =>
    let place ← require (v.block == some (← f.entry)) .allocaBlock
    return place ++ (← require (v.type == .ptr && 0 < v.aux.toInt) .allocaShape)
  | .load => arity 1 do require ((← argType 0) == .ptr) .load
  | .store => arity 2 do require ((← argType 1) == .ptr && v.type == .void) .store
  | .gep =>
    arity 2 do
      let index : Outcome Bool := do
        let t ← argType 1
        return t.isInt && !t.isVector
      require ((← both (return (← argType 0) == .ptr) index) && v.type == .ptr) .address
  | .extract =>
    arity 1 do
      let a ← argType 0
      require (a.isVector && laneInside a && v.type == a.elemType) .extract
  | .insert =>
    arity 2 do
      let a ← argType 0
      let elem ← both (return a.isVector && v.type == a) (return (← argType 1) == a.elemType)
      require (elem && laneInside a) .insert
  | .shuffle =>
    arity 2 do
      let a ← argType 0
      let mask := v.mask.getD []
      let operands ← require (← both (return a.isVector) (return (← argType 1) == a))
        .shuffleOperands
      let result ← require (v.type.isVector && v.type.elemKind == a.elemKind &&
        mask.length == v.type.numLanes) .shuffleResult
      let selectors ← mask.mapM fun (m : Int) => require (m < 2 * a.numLanes) .shuffleSelector
      return operands ++ result ++ selectors.flatten
  | .select =>
    arity 3 do
      let cond ← argType 0
      let arms ← require
        (← both (return (← argType 1) == v.type) (return (← argType 2) == v.type)) .selectArms
      return arms ++ (← require (cond == .i1 ||
        (cond.isVector && cond.isInt && cond.numLanes == v.type.numLanes)) .selectCondition)
  | .call =>
    require (← both (return 1 ≤ v.args.length) (return (← argType 0) == .ptr)) .callTarget
  | .copy => arity 1 do require ((← argType 0) == v.type) .copy
  | .const =>
    require (!v.type.isVector || (v.lanes.getD []).length == v.type.numLanes) .constantLanes
  | .globalAddr => require (v.global.isSome && v.type == .ptr) .globalAddress
  | _ => return []

/-- The arguments of a phi: one for each predecessor, of the phi's type, and defined there. -/
def Checker.phi (c : Checker) (b : BlockId) (id : ValueId) (v : Value) : Findings := do
  let preds := (c.func.block b).preds
  if v.args.length ≠ preds.length then
    return [.phiArity b id v.args.length preds.length]
  let found ← (v.args.zip preds).mapM fun (o, p) => do
    let a ← c.func.find o
    return orReport (a.type == v.type) (.phiArgument b id a.type) ++
      (← c.use p (c.func.block p).values.length o)
  return found.flatten

/-- One value of a block; `late` says that a value that must follow the phis came before it. -/
def Checker.value (c : Checker) (b : BlockId) (late : Bool) (pos : Nat) (id : ValueId) :
    Findings := do
  let v := c.func.value id
  let home := orReport (v.block == some b) (.wrongBlock b id)
  if v.op == .phi then
    return home ++ orReport (!late) (.latePhi b id) ++ (← c.phi b id v)
  else
    let uses ← v.args.mapM (c.use b pos)
    return home ++ uses.flatten ++ (← c.types id v)

/-- The values of a block in order. -/
def Checker.values (c : Checker) (b : BlockId) : Findings := do
  let (_, found) ← (c.func.block b).values.zipIdx.foldlM (fun (late, found) (id, pos) => do
    let more ← c.value b late pos id
    let op := (c.func.value id).op
    return (late || !(op == .phi || op == .param), found ++ more)) (false, [])
  return found

def Checker.block (c : Checker) (b : BlockId) : Findings := do
  let owner := orReport (!(c.func.block b).isForeign) (.foreignBlock b)
  return owner ++ c.edges b ++ (← c.terminator b) ++ (← c.values b)

/-- Where each value stands in its block. -/
def positions (f : Func) : Array Nat :=
  f.layout.foldl (fun a b =>
    (f.block b).values.zipIdx.foldl (fun a (v, i) => a.setIfInBounds v i) a)
    (Array.replicate f.numValues 0)

/-- Every violation in the function. -/
def verify (f : Func) : Outcome (List Violation) := do
  let c : Checker := { func := f, dom := ← f.domTree, position := f.positions }
  return (← f.layout.mapM c.block).flatten

end SsaJit.Func
