import SsaJit.Graph.Order
import SsaJit.Graph.Text
import SsaJit.Lower.Value

/-! Machine code for a whole function. Blocks come in reverse postorder, so that a jump to the block
that follows can be left out; before a block ends it leaves the next values of the phis on its
outgoing edges in their staging slots, and a block begins by taking its phis from there, which makes
the phis of a block change all at once. Read-only data stands after the code. -/

namespace SsaJit.Lower

open X86

/-- Finished code with its read-only data. -/
structure Output where
  code : Array UInt8
  /-- Bytes of instructions, before the data. -/
  codeSize : Nat
  frameSize : Int32

/-- Reject what the calling convention or the processor cannot do. -/
def Context.check (c : Context) : Outcome Unit := do
  let f := c.func
  if exceedsRegs f.params then
    let (ints, vecs) := classify f.params
    Outcome.fail (.unsupported (.parameters f.name ints vecs))
  for (_, x) in f.layout.flatMap f.valuesOf do
    match x.op with
    | .call =>
      if x.args.isEmpty then Outcome.crash .outOfRange
      let types ← (x.args.drop 1).mapM fun a => return (← f.find a).type
      if exceedsRegs types then
        let (ints, vecs) := classify types
        Outcome.fail (.unsupported (.callArguments ints vecs))
    | .intrinsic => let _ ← c.intrinsic x
    | _ => pure ()

/-- The label of a block. -/
def blockMark (b : BlockId) : Label := b

/-- Move the parameters from their registers to their slots. -/
def Context.storeParams (c : Context) : List (Ty × ValueId) → List Reg → Nat → Outcome Code
  | [], _, _ => return []
  | (t, v) :: rest, ints, vecs => do
    if inVectorReg t then
      return (← storeX (c.home v) (Fin.ofNat 16 vecs) t.size) ++
        (← c.storeParams rest ints (vecs + 1))
    else match ints with
      | r :: ints => return (← storeInt (c.home v) r t.kind) ++ (← c.storeParams rest ints vecs)
      | [] => .crash .outOfRange

def Context.prologue (c : Context) : Outcome Code := do
  let grow := if 0 < c.frame.size then [.aluImm .sub .rsp c.frame.size] else []
  return straight ([.push .rbp, .alu .mov .rbp .rsp] ++ grow) ++
    (← c.storeParams (c.func.params.zip c.func.paramValues) argRegs 0)

/-- Leave the next values of a successor's phis in their staging slots. The first entry for the
block among the successor's predecessors says which operands they take. -/
def Context.phiMoves (c : Context) (b s : BlockId) : Outcome Code := do
  match (c.func.block s).predIndex? b with
  | none => return []
  | some j =>
    let phis := (c.func.valuesOf s).filter fun (_, x) => x.op == .phi
    let parts ← phis.mapM fun (v, x) => do
      return copy (c.stage v) (c.slot (← .at? x.args j)) x.type.size
    return parts.flatten

/-- The end of a block; `next` is the block whose code follows. -/
def Context.terminator (c : Context) (b : BlockId) (next : Option BlockId) : Outcome Code := do
  let blk := c.func.block b
  match blk.kind with
  | .jump =>
    let s ← .at? blk.succs 0
    return (← c.phiMoves b s) ++ straight (if next = some s then [] else [.jmp (blockMark s)])
  | .branch =>
    let yes ← .at? blk.succs 0
    let no ← .at? blk.succs 1
    let moves := (← c.phiMoves b yes) ++ (← if no = yes then pure [] else c.phiMoves b no)
    let jumps :=
      if next = some no then [.jcc .ne (blockMark yes)]
      else if next = some yes then [.jcc .e (blockMark no)]
      else [.jcc .ne (blockMark yes), .jmp (blockMark no)]
    return moves ++ (← loadInt .rax (c.slot blk.control) .i1 false) ++
      straight (.alu .test .rax .rax :: jumps)
  | .ret =>
    let result ← if blk.control = .missing then pure [] else do
      let t := (← c.func.find blk.control).type
      if inVectorReg t then loadX 0 (c.slot blk.control) t.size
      else loadInt .rax (c.slot blk.control) t.kind false
    return result ++ straight [.leave, .ret]
  | .unreachable => return straight [.ud2]
  | _ => .fail (.unsupported (.unterminated c.func.name b))

/-- A failure inside a value's code names the function and the value. -/
def Context.located (c : Context) (v : ValueId) (r : Outcome (Code × Labels)) :
    Outcome (Code × Labels) :=
  match r with
  | .error (.failure e) => do .fail (.noted c.func.name (.noted (← c.func.valueText v) e))
  | r => r

/-- Code for the values of a block that are neither phis nor parameters. -/
def Context.values (c : Context) : List (ValueId × Value) → Labels → Outcome (Code × Labels)
  | [], ls => return ([], ls)
  | (v, x) :: rest, ls => do
    if x.op = .phi ∨ x.op = .param then c.values rest ls
    else
      let (code, ls) ← c.located v (c.value v x ls)
      let (more, ls) ← c.values rest ls
      return (code ++ more, ls)

def Context.block (c : Context) (b : BlockId) (next : Option BlockId) (ls : Labels) :
    Outcome (Code × Labels) := do
  let phis := (c.func.valuesOf b).filter fun (_, x) => x.op == .phi
  let taken := phis.flatMap fun (v, x) => copy (c.home v) (c.stage v) x.type.size
  let (code, ls) ← c.values (c.func.valuesOf b) ls
  return (.mark (blockMark b) :: taken ++ code ++ (← c.terminator b next), ls)

/-- Code for blocks in order, each followed by the next. -/
def Context.blocks (c : Context) : List BlockId → Labels → Outcome (Code × Labels)
  | [], ls => return ([], ls)
  | b :: rest, ls => do
    let (code, ls) ← c.block b rest.head? ls
    let (more, ls) ← c.blocks rest ls
    return (code ++ more, ls)

/-- The code of a function and the labels its read-only data is to have. -/
def Context.function (c : Context) : Outcome (Code × Labels) := do
  let order ← c.func.reversePostOrder
  let entry ← c.prologue
  let (body, ls) ← c.blocks order { next := c.func.numBlocks }
  return (entry ++ body, ls)

/-- Put an item at the end of the code. -/
def assemble (a : Assembler) : Item → Assembler
  | .instr i => a.emit i
  | .mark l => a.bind l

/-- Put read-only data at the end of the code, under its label. -/
def appendData (a : Assembler) : Option Global × Label → Outcome Assembler
  | (none, _) => .crash .absent
  | (some g, l) => do
    let a ← a.align (if g.align < 1 then 1 else g.align) 0
    return (a.bind l).data g.data

/-- Machine code for a function. A limit above zero is the most bytes its frame may take. -/
def generate (f : Func) (cpu : Features) (frameLimit : Int) : Outcome Output := do
  let c : Context := { func := f, frame := .ofFunc f, cpu }
  c.check
  let size := c.frame.size
  if 0 < frameLimit ∧ frameLimit < size.toInt then
    Outcome.fail (.unsupported (.frame f.name size.toInt frameLimit))
  let (code, ls) ← c.function
  let a := code.foldl assemble {}
  let full ← ls.globals.foldlM appendData a
  return { code := ← full.finish, codeSize := a.length, frameSize := size }

end SsaJit.Lower
