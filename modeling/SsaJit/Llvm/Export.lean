import SsaJit.Graph.Order
import SsaJit.Llvm.Number

/-! Functions as LLVM assembly, for comparison with other tools. Each value becomes an instruction of
its own name; helper instructions are numbered. Vector comparisons, which give masks here, become a
comparison and a sign extension, and memory is addressed through byte pointers. -/

namespace SsaJit.Llvm

/-! ## Names and strings -/

/-- Bytes between quotes: printable ones as they are, but quotes, backslashes and all others as a
backslash and two hexadecimal digits. -/
def escapeBytes (bs : List UInt8) : String :=
  String.join (bs.map fun b =>
    if 0x20 ≤ b ∧ b ≤ 0x7E ∧ b ≠ 0x22 ∧ b ≠ 0x5C then String.ofList [Char.ofNat b.toNat]
    else "\\" ++ upperHexByte b)

def quoteBytes (bs : List UInt8) : String := "\"" ++ escapeBytes bs ++ "\""

def quoteText (s : String) : String := quoteBytes s.toUTF8.toList

/-- Stands in a name without quotes. -/
def isNameChar (c : Char) : Bool := c.isAlphanum || c == '$' || c == '.' || c == '_' || c == '-'

/-- A name as it is written; one that reads as a number is quoted. -/
def nameText (s : String) : String :=
  let cs := s.toList
  let isNumber := !cs.isEmpty && cs.all Char.isDigit && Nat.ofDigitChars 10 cs 0 < UInt64.size
  if cs.all isNameChar && !isNumber then s else quoteText s

/-! ## Types -/

/-- Types of the exported text. -/
inductive LTy
  | void
  | int (bits : Nat)
  | float
  | ptr (pointee : LTy)
  | vec (lanes : Nat) (elem : LTy)
  | array (size : Nat) (elem : LTy)
  | func (ret : LTy) (params : List LTy)
  deriving Repr, Inhabited, BEq

def LTy.text : LTy → String
  | .void => "void"
  | .int n => "i" ++ decimal n
  | .float => "float"
  | .ptr t => t.text ++ "*"
  | .vec n t => "<" ++ decimal n ++ " x " ++ t.text ++ ">"
  | .array n t => "[" ++ decimal n ++ " x " ++ t.text ++ "]"
  | .func r ps => r.text ++ " (" ++ joinWith ", " (ps.attach.map fun ⟨p, _⟩ => p.text) ++ ")"

/-- How a complaint about a type calls it. -/
def LTy.className : LTy → String
  | .void => "*types.VoidType" | .int _ => "*types.IntType" | .float => "*types.FloatType"
  | .ptr _ => "*types.PointerType" | .vec _ _ => "*types.VectorType"
  | .array _ _ => "*types.ArrayType" | .func _ _ => "*types.FuncType"

def bytePtr : LTy := .ptr (.int 8)

def scalarType : Kind → Option LTy
  | .void => some .void | .i1 => some (.int 1) | .i8 => some (.int 8) | .i16 => some (.int 16)
  | .i32 => some (.int 32) | .i64 => some (.int 64) | .f32 => some .float | .ptr => some bytePtr
  | .vector => some (.vec 0 .void)
  | .other _ => none

def typeOf (t : Ty) : Outcome LTy :=
  match t with
  | .scalar k => match scalarType k with
    | some l => .ok l
    | none => .refuse (.noExportType t)
  | .vec e n => match scalarType e with
    | some l => .ok (.vec n.toNat l)
    | none => .refuse (.noExportType t.elemType)

/-- A value of the exported text. -/
structure LVal where
  type : LTy
  text : String
  deriving Inhabited

/-- The value with its type in front. -/
def LVal.typed (v : LVal) : String := v.type.text ++ " " ++ v.text

/-! ## Constants -/

def scalarConst (k : Kind) (w : UInt64) : Outcome LVal :=
  let int (bits : Nat) : Outcome LVal := .ok ⟨.int bits, intText (k.signExtend w).toInt⟩
  match k with
  | .i1 => .ok ⟨.int 1, if w &&& 1 != 0 then "true" else "false"⟩
  | .f32 => .ok ⟨.float, singleText (.ofWord w)⟩
  | .ptr =>
    .ok ⟨bytePtr, if w = 0 then "null"
      else "inttoptr (i64 " ++ intText w.toInt64.toInt ++ " to i8*)"⟩
  | .i8 => int 8 | .i16 => int 16 | .i32 => int 32 | .i64 => int 64
  | .other c => .refuse (.noExportType (.scalar (.other c)))
  | .void | .vector => .crash .wrongType

/-- Constants between angle brackets. -/
def vectorText (xs : List LVal) : String := "<" ++ joinWith ", " (xs.map LVal.typed) ++ ">"

def vectorConst (t : Ty) (lanes : List UInt64) : Outcome LVal := do
  let elem := match t with
    | .vec e _ => e
    | .scalar _ => .void
  let elems ← lanes.mapM (scalarConst elem)
  match ← typeOf t with
  | .vec n e => return ⟨.vec n e, vectorText elems⟩
  | _ => .crash .wrongType

def intConst (bits : Nat) (n : Int) : LVal := ⟨.int bits, intText n⟩

/-! ## Functions -/

/-- A line of a block. The operands of a phi are filled in at the end. -/
inductive Line
  | text (s : String)
  | phi (v : ValueId) (head : String)

/-- What an export has come to. -/
structure State where
  /-- Numbers given to helper instructions. -/
  next : Nat := 0
  values : List (ValueId × LVal) := []
  lines : List Line := []
  /-- Functions declared so far, by name. -/
  declared : List String := []
  /-- Texts before and after the name of declarations made for the current function. -/
  pending : List (String × String × String) := []

/-- What stays the same throughout a function. -/
structure Context where
  func : Func
  params : List LVal
  globals : List (Global × LVal)

abbrev ExportM := StateT State Outcome

def writeLine (s : String) : ExportM Unit :=
  modify fun st => { st with lines := st.lines ++ [.text s] }

/-- A fresh number for a helper instruction. -/
def freshName : ExportM String := do
  let n := (← get).next
  modify fun st => { st with next := n + 1 }
  return "%" ++ decimal n

/-- A helper instruction. -/
def helper (t : LTy) (body : String) : ExportM LVal := do
  let name ← freshName
  writeLine (name ++ " = " ++ body)
  return ⟨t, name⟩

/-- The instruction of a value: it has the value's name, unless the value has no result. -/
def named (v : ValueId) (x : Value) (t : LTy) (body : String) : ExportM LVal := do
  if !x.type.isVoid then
    let name := "%" ++ valueLabel v
    writeLine (name ++ " = " ++ body)
    return ⟨t, name⟩
  else if t == .void then
    writeLine body
    return ⟨t, "%0"⟩
  else helper t body

/-- A complaint about ill-typed operands. -/
def complain {α : Type} (text : String) : ExportM α := throw (.raised (.reported text))

namespace Context

def param (c : Context) (i : Int) : Outcome LVal :=
  if i < 0 then .crash .outOfRange else .at? c.params i.toNat

/-- A value as an operand. One that has no text yet is undefined. -/
def use (c : Context) (o : Operand) : ExportM LVal := do
  let x ← c.func.find o
  let st ← get
  let known := match o with
    | .value v => st.values.lookup v
    | _ => none
  match known with
  | some l => return l
  | none => if x.op = .param then c.param x.aux.toInt else return ⟨← typeOf x.type, "undef"⟩

def arg (c : Context) (x : Value) (i : Nat) : ExportM LVal := do c.use (← Outcome.at? x.args i)

end Context

def castText (op : String) (a : LVal) (t : LTy) : String := op ++ " " ++ a.typed ++ " to " ++ t.text

def bitcastTo (a : LVal) (t : LTy) : ExportM LVal := helper t (castText "bitcast" a t)

/-- A byte pointer as a pointer to a type. -/
def typedPtr (p : LVal) (t : Ty) : ExportM LVal := do
  if t = .i8 then return p else bitcastTo p (.ptr (← typeOf t))

/-- A function that is only declared, made known at its first use. -/
def declare (name : String) (ret : Ty) (params : List Ty) : ExportM LVal := do
  let r ← typeOf ret
  let ps ← params.mapM fun p => (typeOf p : ExportM LTy)
  let fresh := !(← get).declared.contains name
  if fresh then
    let args := ps.zipIdx.map fun (p, i) => p.text ++ " %" ++ decimal i
    modify fun st => { st with
      declared := name :: st.declared
      pending := st.pending ++ [("declare " ++ r.text ++ " ", name, "(" ++ joinWith ", " args ++ ")")] }
  return ⟨.ptr (.func r ps), "@" ++ nameText name⟩

def callText (ret : LTy) (callee : String) (args : List LVal) : String :=
  "call " ++ ret.text ++ " " ++ callee ++ "(" ++ joinWith ", " (args.map LVal.typed) ++ ")"

def alignText (aux : Int64) : String :=
  if aux = 0 then "" else ", align " ++ decimal aux.toUInt64.toNat

def volatileText (x : Value) : String := if x.volatile then "volatile " else ""

/-- Bytes as an array type. -/
def byteArray (n : Int64) : LTy := .array n.toUInt64.toNat (.int 8)

def intPredText (p : Predicate) : String := if p.isFloat then "eq" else p.name

def floatPredText (p : Predicate) : String :=
  match p with
  | .other _ => "false"
  | p => if p.isFloat then p.name else "false"

/-- The type of a comparison's result. -/
def compareType (op : Op) (t : LTy) : ExportM LTy :=
  match op, t with
  | _, .vec n _ => return .vec n (.int 1)
  | .fcmp, .float => return .int 1
  | .icmp, .int _ | .icmp, .ptr _ => return .int 1
  | .fcmp, t => complain
      ("invalid fcmp operand type; expected *types.FloatType or *types.VectorType, got " ++ t.className)
  | _, t => complain
      ("invalid icmp operand type; expected *types.IntType, *types.PointerType or *types.VectorType, got "
        ++ t.className)

def elemOf (t : LTy) : ExportM LTy :=
  match t with
  | .vec _ e => return e
  | t => complain ("invalid vector type; expected *types.VectorType, got " ++ t.className)

def compareText (op : Op) (p : Predicate) (a b : LVal) : String :=
  (if op = .icmp then "icmp " ++ intPredText p else "fcmp " ++ floatPredText p) ++ " " ++ a.typed ++
    ", " ++ b.text

/-- Lanes of two operands; lanes that are to be zero are masked out afterwards. -/
def Context.shuffle (c : Context) (v : ValueId) (x : Value) : ExportM LVal := do
  let mask := x.mask.getD []
  let selectors := mask.map fun m => intConst 32 (Int64.ofInt (if m < 0 then 0 else m)).toInt
  let a ← c.arg x 0
  let b ← c.arg x 1
  let t := LTy.vec mask.length (← elemOf a.type)
  let body := "shufflevector " ++ a.typed ++ ", " ++ b.typed ++ ", " ++
    (LVal.typed ⟨.vec mask.length (.int 32), vectorText selectors⟩)
  if mask.any (· < 0) then
    let keep : List UInt64 := mask.map fun m => if m < 0 then 0 else -1
    let r ← helper t body
    let it ← x.type.maskType
    let bits ← bitcastTo r (← typeOf it)
    let kept ← vectorConst it keep
    let anded ← helper bits.type ("and " ++ bits.typed ++ ", " ++ kept.text)
    let rt ← typeOf x.type
    named v x rt (castText "bitcast" anded rt)
  else named v x t body

/-- The instructions of a value; none if it leaves no value behind. -/
def Context.value (c : Context) (v : ValueId) (x : Value) : ExportM (Option LVal) := do
  let final := named v x
  let binary : ExportM (Option LVal) := do
    let a ← c.arg x 0
    let b ← c.arg x 1
    some <$> final a.type (x.op.name ++ " " ++ a.typed ++ ", " ++ b.text)
  match x.op with
  | .param =>
    return some (← c.param x.aux.toInt)
  | .const =>
    if x.type.isVector then return some (← vectorConst x.type (x.lanes.getD []))
    else return some (← scalarConst x.type.kind x.aux.toUInt64)
  | .globalAddr =>
    match x.global.bind fun g => c.globals.lookup g with
    | some g => some <$> final bytePtr (castText "bitcast" g bytePtr)
    | none =>
      let g ← Outcome.need x.global
      Outcome.fail (.notExportable ("global " ++ g.name ++ " not in module"))
  | .fmin | .fmax =>
    let a ← c.arg x 0
    let b ← c.arg x 1
    let cond ← helper (← compareType .fcmp a.type)
      (compareText .fcmp (if x.op = .fmin then .olt else .ogt) a b)
    some <$> final a.type ("select " ++ cond.typed ++ ", " ++ a.typed ++ ", " ++ b.typed)
  | .fsqrt =>
    let name := "llvm.sqrt." ++ match x.type with
      | .vec _ n => "v" ++ decimal n.toNat ++ "f32"
      | .scalar _ => "f32"
    let f ← declare name x.type [x.type]
    let a ← c.arg x 0
    let t ← typeOf x.type
    some <$> final t (callText t f.text [a])
  | .fneg =>
    let a ← c.arg x 0
    some <$> final a.type ("fneg " ++ a.typed)
  | .icmp | .fcmp =>
    let a ← c.arg x 0
    let b ← c.arg x 1
    let t ← compareType x.op a.type
    let body := compareText x.op x.predicate a b
    if x.type.isVector then
      let m ← helper t body
      let r ← typeOf x.type
      some <$> final r (castText "sext" m r)
    else some <$> final t body
  | .alloca =>
    let room := byteArray x.aux
    let a ← helper (.ptr room) ("alloca " ++ room.text ++ ", align 16")
    some <$> final bytePtr (castText "bitcast" a bytePtr)
  | .load =>
    let t ← typeOf x.type
    let p ← typedPtr (← c.arg x 0) x.type
    some <$> final t ("load " ++ volatileText x ++ t.text ++ ", " ++ p.typed ++ alignText x.aux)
  | .store =>
    let a ← c.arg x 0
    let p ← typedPtr (← c.arg x 1) (← c.func.argument x 0).type
    match p.type with
    | .ptr t =>
      if t != a.type then
        complain ("store operands are not compatible: src=" ++ a.type.text ++ "; dst=" ++ p.type.text)
    | t => complain ("invalid store dst operand type; expected *types.Pointer, got " ++ t.className)
    writeLine ("store " ++ volatileText x ++ a.typed ++ ", " ++ p.typed ++ alignText x.aux)
    return none
  | .gep =>
    let elem := byteArray x.aux
    let base ← bitcastTo (← c.arg x 0) (.ptr elem)
    let i ← c.arg x 1
    let p ← helper (.ptr elem) ("getelementptr " ++ elem.text ++ ", " ++ base.typed ++ ", " ++ i.typed)
    some <$> final bytePtr (castText "bitcast" p bytePtr)
  | .extract =>
    let a ← c.arg x 0
    some <$> final (← elemOf a.type)
      ("extractelement " ++ a.typed ++ ", " ++ (intConst 32 x.aux.toInt).typed)
  | .insert =>
    let a ← c.arg x 0
    let e ← c.arg x 1
    let _ ← elemOf a.type
    some <$> final a.type
      ("insertelement " ++ a.typed ++ ", " ++ e.typed ++ ", " ++ (intConst 32 x.aux.toInt).typed)
  | .shuffle => some <$> c.shuffle v x
  | .select =>
    let cond ← c.arg x 0
    let ct := (← c.func.argument x 0).type
    let cond ← if ct.isVector then do
        let zero ← vectorConst ct (List.replicate ct.numLanes 0)
        helper (← compareType .icmp cond.type) (compareText .icmp .ne cond zero)
      else pure cond
    let a ← c.arg x 1
    let b ← c.arg x 2
    some <$> final a.type ("select " ++ cond.typed ++ ", " ++ a.typed ++ ", " ++ b.typed)
  | .call =>
    match x.args with
    | [] => Outcome.crash .outOfRange
    | callee :: rest =>
      let params ← rest.mapM fun o => do
        let t ← typeOf (← c.func.find o).type
        return (t, ← c.use o)
      let r ← typeOf x.type
      let target ← bitcastTo (← c.use callee) (.ptr (.func r (params.map Prod.fst)))
      some <$> final r (callText r target.text (params.map Prod.snd))
  | .intrinsic =>
    let args ← x.args.mapM fun o => do
      return ((← c.func.find o).type, ← c.use o)
    let mangled := match x.type with
      | .vec e n => "v" ++ decimal n.toNat ++ e.name
      | .scalar k => k.name
    let f ← declare ("reactor." ++ x.intrinsic.name ++ "." ++ mangled) x.type (args.map Prod.fst)
    let t ← typeOf x.type
    some <$> final t (callText t f.text (args.map Prod.snd))
  | .phi =>
    let t ← typeOf x.type
    let name ← if x.type.isVoid then freshName else pure ("%" ++ valueLabel v)
    modify fun st => { st with
      lines := st.lines ++ [.phi v (name ++ " = phi " ++ t.text ++ " ")] }
    return some ⟨t, name⟩
  | .copy =>
    let a ← c.arg x 0
    some <$> final a.type ("select i1 true, " ++ a.typed ++ ", " ++ a.typed)
  | op =>
    if op.isBinary then binary
    else if op.isCast then
      let a ← c.arg x 0
      let t ← typeOf x.type
      some <$> final t (castText op.name a t)
    else Outcome.fail (.notExportable ("no LLVM form for " ++ op.name))

def blockRef (b : BlockId) : String := "label %" ++ blockLabel b

def Context.terminator (c : Context) (b : BlockId) : ExportM Unit := do
  let blk := c.func.block b
  match blk.kind with
  | .jump => writeLine ("br " ++ blockRef (← Outcome.at? blk.succs 0))
  | .branch =>
    let cond ← c.use blk.control
    writeLine ("br " ++ cond.typed ++ ", " ++ blockRef (← Outcome.at? blk.succs 0) ++ ", " ++
      blockRef (← Outcome.at? blk.succs 1))
  | .ret =>
    if blk.control = .missing then writeLine "ret void"
    else writeLine ("ret " ++ (← c.use blk.control).typed)
  | .unreachable => writeLine "unreachable"
  | _ => Outcome.fail (.notExportable (blockLabel b ++ " has no terminator"))

/-- The lines of a block. -/
def Context.block (c : Context) (b : BlockId) : ExportM (List Line) := do
  modify fun st => { st with lines := [] }
  for (v, x) in c.func.valuesOf b do
    if let some l ← c.value v x then
      modify fun st => { st with values := (v, l) :: st.values }
  c.terminator b
  return (← get).lines

/-- A line with the operands of a phi filled in; edges from blocks that are not exported are left
out. -/
def Context.finish (c : Context) (order : List BlockId) : Line → ExportM String
  | .text s => return "\t" ++ s ++ "\n"
  | .phi v head => do
    let x := c.func.value v
    let preds := (c.func.block (← Outcome.need x.block)).preds
    let incoming ← x.args.zipIdx.filterMapM fun (a, i) => do
      let p ← Outcome.at? preds i
      if order.contains p then
        return some ("[ " ++ (← c.use a).text ++ ", %" ++ blockLabel p ++ " ]")
      else return none
    return "\t" ++ head ++ joinWith ", " incoming ++ "\n"

/-- The name a parameter has in the end: that of the last value that stands for it. -/
def paramName (f : Func) (order : List BlockId) (i : Nat) : String :=
  let standing := (order.flatMap f.valuesOf).filter fun (_, x) =>
    x.op == .param && x.aux.toInt == i && !x.type.isVoid
  match standing.getLast? with
  | some (v, _) => "%" ++ valueLabel v
  | none => "%p" ++ decimal i

/-- A function's text before and after its name, followed by the declarations it brings. -/
def functionText (f : Func) (globals : List (Global × LVal)) (declared : List String) :
    Outcome (List (String × String × String) × List String) := do
  let ptypes ← f.params.mapM typeOf
  let ret ← typeOf f.ret
  let order ← f.reversePostOrder
  let params := ptypes.zipIdx.map fun (t, i) => (⟨t, paramName f order i⟩ : LVal)
  let c : Context := { func := f, params, globals }
  let body : ExportM String := do
    let blocks ← order.mapM fun b => return (b, ← c.block b)
    let texts ← blocks.mapM fun (b, lines) => do
      return blockLabel b ++ ":\n" ++ String.join (← lines.mapM (c.finish order))
    return joinWith "\n" texts
  let (text, st) ← body.run { declared }
  let head := "define " ++ ret.text ++ " "
  let tail := "(" ++ joinWith ", " (params.map LVal.typed) ++ ") \x7b\n" ++ text ++ "\x7d"
  return ((head, f.name, tail) :: st.pending, st.declared)

/-- Names after `@`; those that are empty are numbered. -/
def globalNames (names : List String) : List String :=
  (names.foldl (fun (out, n) s =>
    if s.isEmpty then (out ++ ["@" ++ decimal (n : Nat)], n + 1)
    else (out ++ ["@" ++ nameText s], n)) (([] : List String), 0)).1

/-- A whole module. -/
def moduleText (name : String) (globals : List Global) (funcs : List Func) : Outcome String := do
  let gnames := globalNames (globals.map Global.name)
  let gtypes := globals.map fun g => LTy.array g.data.length (.int 8)
  let refs := globals.zip ((gtypes.zip gnames).map fun (t, n) => (⟨.ptr t, n⟩ : LVal))
  let (parts, _) ← funcs.foldlM (fun (parts, declared) f => do
    let (more, declared) ← functionText f refs declared
    return (parts ++ more, declared)) (([] : List (String × String × String)), ([] : List String))
  let fnames := (globalNames (globals.map Global.name ++ parts.map (·.2.1))).drop globals.length
  let source := if name.isEmpty then "" else "source_filename = " ++ quoteText name ++ "\n"
  let glines := (globals.zip (gtypes.zip gnames)).map fun (g, t, n) =>
    n ++ " = constant " ++ t.text ++ " c" ++ quoteBytes g.data ++
      (if g.align = 0 then "" else ", align " ++ decimal g.align) ++ "\n"
  let flines := (parts.zip fnames).map fun ((head, _, tail), n) => head ++ n ++ tail ++ "\n"
  let gap (before : String) (part : List String) := if before.isEmpty || part.isEmpty then "" else "\n"
  let upToGlobals := source ++ gap source glines ++ String.join glines
  return upToGlobals ++ gap upToGlobals flines ++ joinWith "\n" flines

end SsaJit.Llvm

namespace SsaJit

/-- The function alone as LLVM assembly, with the read-only data of its module. -/
def Func.llvm (f : Func) (globals : List Global) : Outcome String := Llvm.moduleText f.name globals [f]

/-- The module as LLVM assembly. -/
def Module.llvm (m : Module) : Outcome String := Llvm.moduleText m.name m.globals m.funcs

end SsaJit
