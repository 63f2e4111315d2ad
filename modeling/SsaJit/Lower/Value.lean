import SsaJit.Lower.Frame
import SsaJit.Lower.Vector

/-! Machine code for one value of a function: operands are read from their slots and the result is
left in the value's own. -/

namespace SsaJit.Lower

open X86

/-- What the code of a value depends on besides the value. -/
structure Context where
  func : Func
  frame : Frame
  cpu : Features

/-- Labels given out so far, and the read-only data that has one, in order of first use. -/
structure Labels where
  next : Label
  globals : List (Option Global × Label) := []

/-- A place in the frame. -/
def inFrame (offset : Int32) : Place := .based .rbp offset

/-- Where a value of the function is kept. -/
def Context.home (c : Context) (v : ValueId) : Place := inFrame (c.frame.slots.getD v 0)

/-- Where predecessors leave a phi's next value. -/
def Context.stage (c : Context) (v : ValueId) : Place := inFrame (c.frame.staging.getD v 0)

/-- Where an operand is kept; one without a slot is looked for at rbp itself. -/
def Context.slot (c : Context) : Operand → Place
  | .value v => c.home v
  | _ => inFrame 0

/-- Integer arguments travel in these registers. -/
def argRegs : List Reg := [.rdi, .rsi, .rdx, .rcx, .r8, .r9]

/-- Vector registers that carry arguments. -/
def vectorArgs : Nat := 8

/-- Floats and vectors travel in vector registers, all else in general ones. -/
def inVectorReg (t : Ty) : Bool := t.isFloat || t.isVector

/-- How many values travel in general and in vector registers. -/
def classify (ts : List Ty) : Nat × Nat :=
  ((ts.filter (!inVectorReg ·)).length, (ts.filter inVectorReg).length)

/-- Too many for the registers? -/
def exceedsRegs (ts : List Ty) : Bool :=
  argRegs.length < (classify ts).1 || vectorArgs < (classify ts).2

/-- The instruction of an intrinsic value, if the processor has one. -/
def Context.intrinsic (c : Context) (x : Value) : Outcome (SseOp × Option UInt8) := do
  match x.args with
  | [] => .fail (.unsupported (.intrinsicArity x.intrinsic))
  | a :: _ =>
    let t := (← c.func.find a).type
    match c.cpu.intrinsic? x.intrinsic t with
    | some i => return i
    | none => .fail (.unsupported (.intrinsic x.intrinsic t))

/-- Code for each lane in turn. -/
def eachLane (n : Nat) (lane : Nat → Outcome Code) : Outcome Code := do
  return (← (List.range n).mapM lane).flatten

/-- A selection by a bit or by lanes. A vector comparison is known to give whole lanes of ones. -/
def Context.select (c : Context) (x : Value) (dst : Place) : Outcome Code := do
  let t := x.type
  let cond ← c.func.argument x 0
  let mask := c.slot (← .at? x.args 0)
  let yes := c.slot (← .at? x.args 1)
  let no := c.slot (← .at? x.args 2)
  let width := t.elemKind.size
  if !cond.type.isVector then
    return (← loadInt .rax mask .i1 false) ++ straight (.alu .test .rax .rax ::
      (wordChunks t.size).flatMap fun (off, n) =>
        selectChunk (shift dst off) (shift yes off) (shift no off) n)
  else if (cond.op = .icmp ∨ cond.op = .fcmp) ∧ t.size = 16 ∧ cond.type.elemKind.size = width then
    return blend dst mask yes no
  else
    let bits := cond.type.elemKind.size
    eachLane t.numLanes fun i => do
      let test ← Access.ofSize bits false
      let _ ← Access.ofSize width false
      return straight ([.load .rax (shift mask (i * bits)) test, .alu .test .rax .rax] ++
        selectChunk (shift dst (i * width)) (shift yes (i * width)) (shift no (i * width)) width)

/-- Load arguments into their registers, in order; `ints` and `vecs` are still free. -/
def Context.passArgs (c : Context) : List Operand → List Reg → Nat → Outcome Code
  | [], _, _ => return []
  | a :: rest, ints, vecs => do
    let t := (← c.func.find a).type
    if inVectorReg t then
      return (← loadX (Fin.ofNat 16 vecs) (c.slot a) t.size) ++ (← c.passArgs rest ints (vecs + 1))
    else match ints with
      | r :: ints => return (← loadInt r (c.slot a) t.kind false) ++ (← c.passArgs rest ints vecs)
      | [] => .crash .outOfRange

/-- An indirect call. -/
def Context.call (c : Context) (x : Value) (dst : Place) : Outcome Code := do
  match x.args with
  | [] => .crash .outOfRange
  | callee :: args =>
    let loaded ← c.passArgs args argRegs 0
    let target ← loadInt .r11 (c.slot callee) .ptr false
    let result ←
      if x.type.isVoid then pure []
      else if inVectorReg x.type then storeX dst 0 x.type.size
      else storeInt dst .rax x.type.kind
    return loaded ++ target ++ straight [.call .r11] ++ result

/-- The bytes of a constant. -/
def constant (x : Value) (dst : Place) : Outcome Code := do
  if x.type.isVector then return storeBytes dst (← bytesOfLanes x.type (x.lanes.getD []))
  else
    return straight [.movImm .rax x.aux.toUInt64, .store dst .rax (← Width.ofSize x.type.size)]

/-- A selection of lanes of two operands. -/
def Context.shuffle (c : Context) (x : Value) (dst : Place) : Outcome Code := do
  let width := x.type.elemKind.size
  let lanes := (← c.func.argument x 0).type.numLanes
  let parts ← (x.mask.getD []).zipIdx.mapM fun (m, i) => do
    if m < 0 then
      return straight [.alu .xor .rcx .rcx, .store (shift dst (i * width)) .rcx (← Width.ofSize width)]
    else if m < lanes then
      return copy (shift dst (i * width)) (shift (c.slot (← .at? x.args 0)) (m.toNat * width)) width
    else
      return copy (shift dst (i * width))
        (shift (c.slot (← .at? x.args 1)) ((m - lanes).toNat * width)) width
  return parts.flatten

/-- An intrinsic on one or two operands. -/
def Context.intrinsicCode (c : Context) (x : Value) (dst : Place) : Outcome Code := do
  let (op, imm) ← c.intrinsic x
  let size := (← c.func.argument x 0).type.size
  let first ← loadX 0 (c.slot (← .at? x.args 0)) size
  match x.args with
  | _ :: b :: _ =>
    return first ++ (← loadX 1 (c.slot b) size) ++ straight [vector op 0 1 imm] ++
      (← storeX dst 0 x.type.size)
  | _ => return first ++ straight [vector op 0 0 imm] ++ (← storeX dst 0 x.type.size)

/-- Code for a value that needs no labels. -/
def Context.plain (c : Context) (v : ValueId) (x : Value) : Outcome Code := do
  let t := x.type
  let k := t.elemKind
  let dst := c.home v
  let arg (i : Nat) : Outcome Place := do return c.slot (← .at? x.args i)
  let typeOf (i : Nat) : Outcome Ty := do return (← c.func.argument x i).type
  if x.op.isBinary ∧ t.numLanes = 0 then return []
  else if x.op.isBinary then
    let a ← arg 0
    let b ← arg 1
    match if t.isVector then vectorBinary c.cpu x.op t dst a b else none with
    | some code => return code
    | none => eachLane t.numLanes fun i =>
        scalarBinary x.op k (shift dst (i * k.size)) (shift a (i * k.size)) (shift b (i * k.size))
  else match x.op with
  | .const => constant x dst
  | .alloca =>
    return straight [.lea .rax (inFrame (c.frame.regions.getD v 0)), .store dst .rax .b8]
  | .fneg | .fsqrt =>
    if x.op = .fsqrt ∧ t.size = 16 then
      return straight [.movdquLoad 0 (← arg 0), vector .sqrtps 0 0, .movdquStore dst 0]
    else eachLane t.numLanes fun i => do
      return scalarUnary x.op (shift dst (i * 4)) (shift (← arg 0) (i * 4))
  | .icmp | .fcmp =>
    let source ← typeOf 0
    if source.numLanes = 0 then return []
    let a ← arg 0
    let b ← arg 1
    if !source.isVector then
      return (← compare x.predicate source.kind a b) ++ (← storeInt dst .rax .i1)
    else match vectorCompare x.op x.predicate source dst a b with
      | some code => return code
      | none =>
        let width := source.elemKind.size
        eachLane source.numLanes fun i => do
          return (← compare x.predicate source.elemKind (shift a (i * width)) (shift b (i * width))) ++
            straight [.unary .neg .rax, .store (shift dst (i * width)) .rax (← Width.ofSize width)]
  | .bitcast | .copy => return copy dst (← arg 0) t.size
  | .load =>
    let address ← loadInt .rax (← arg 0) .ptr false
    if t.kind = .i1 then
      return address ++ straight [.load .rcx (.based .rax 0) .u8] ++ (← storeInt dst .rcx .i1)
    else return address ++ copy dst (.based .rax 0) t.size
  | .store =>
    return (← loadInt .rax (← arg 1) .ptr false) ++
      copy (.based .rax 0) (← arg 0) (← typeOf 0).size
  | .gep =>
    let base ← loadInt .rax (← arg 0) .ptr false
    let index ← loadInt .rcx (← arg 1) (← typeOf 1).kind true
    let scale := if x.aux = 1 then [] else [.imulImm .rcx .rcx x.aux.toInt32]
    return base ++ index ++ straight (scale ++ [.alu .add .rax .rcx, .store dst .rax .b8])
  | .extract => return copy dst ((← arg 0).offset (x.aux * Int64.ofNat t.size)) t.size
  | .insert =>
    return copy dst (← arg 0) t.size ++
      copy (dst.offset (x.aux * Int64.ofNat k.size)) (← arg 1) k.size
  | .shuffle => c.shuffle x dst
  | .select => c.select x dst
  | .call => c.call x dst
  | .intrinsic => c.intrinsicCode x dst
  | op => .fail (.unsupported (.op op))

/-- Code for a conversion, lane by lane unless there is an instruction for the whole. Each lane takes
two labels. -/
def Context.conversion (c : Context) (v : ValueId) (x : Value) (ls : Labels) :
    Outcome (Code × Labels) := do
  let dst := c.home v
  let source := (← c.func.argument x 0).type
  let a := c.slot (← .at? x.args 0)
  match vectorCast x.op source x.type dst a with
  | some code => return (code, ls)
  | none =>
    let from' := source.elemKind
    let dest := x.type.elemKind
    let code ← eachLane x.type.numLanes fun i =>
      cast x.op from' dest (shift dst (i * dest.size)) (shift a (i * from'.size))
        (ls.next + 2 * i) (ls.next + 2 * i + 1)
    return (code, { ls with next := ls.next + 2 * x.type.numLanes })

/-- The label of read-only data, a new one at its first use. -/
def Labels.ofGlobal (ls : Labels) (g : Option Global) : Label × Labels :=
  match ls.globals.lookup g with
  | some l => (l, ls)
  | none => (ls.next, { next := ls.next + 1, globals := ls.globals ++ [(g, ls.next)] })

/-- Code for a value. -/
def Context.value (c : Context) (v : ValueId) (x : Value) (ls : Labels) :
    Outcome (Code × Labels) := do
  if x.op = .globalAddr then
    let (l, ls) := ls.ofGlobal x.global
    return (straight [.lea .rax (.code l), .store (c.home v) .rax .b8], ls)
  else if x.op.isCast ∧ x.op ≠ .bitcast then c.conversion v x ls
  else return (← c.plain v x, ls)

end SsaJit.Lower
