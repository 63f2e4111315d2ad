import SsaJit.Graph.Basic
import SsaJit.X86.Assembler

/-! Machine code for one lane of an operation. Operands are loaded from memory into rax, rcx and
rdx or the first vector registers, and the result is stored in its own width; a one-bit value in
memory is always 0 or 1. -/

namespace SsaJit.Lower

open X86

abbrev Place := Mem Label

/-- One item of generated code. -/
inductive Item
  | instr (i : Instr Label)
  /-- Bind a label here. -/
  | mark (l : Label)
  deriving DecidableEq, Repr

abbrev Code := List Item

/-- Instructions as code. -/
def straight (is : List (Instr Label)) : Code := is.map .instr

/-- A vector instruction on two registers. -/
def vector (op : SseOp) (dst src : XReg) (imm : Option UInt8 := none) : Instr Label :=
  .sse op.code dst src imm

/-- Load a lane into a register, filled up to 64 bits. A signed bit becomes 0 or -1. -/
def loadInt (r : Reg) (m : Place) (k : Kind) (signed : Bool) : Outcome Code := do
  let access ← Access.ofSize k.size signed
  return straight (.load r m access :: if k = .i1 ∧ signed then [.unary .neg r] else [])

/-- Store a lane from a register. A bit is first cut to 0 or 1, in the register too. -/
def storeInt (m : Place) (r : Reg) (k : Kind) : Outcome Code := do
  let width ← Width.ofSize k.size
  return straight ((if k = .i1 then [.aluImm .and r 1] else []) ++ [.store m r width])

/-- Load bytes into a vector register; sizes without an instruction of their own go through rax. -/
def loadX (x : XReg) (m : Place) (size : Nat) : Outcome Code := do
  if size = 16 then return straight [.movdquLoad x m]
  else if size = 4 then return straight [.movssLoad x m]
  else return straight [.load .rax m (← Access.ofSize size false), .movqToX x .rax]

/-- Store the low bytes of a vector register. -/
def storeX (m : Place) (x : XReg) (size : Nat) : Outcome Code := do
  if size = 16 then return straight [.movdquStore m x]
  else if size = 4 then return straight [.movssStore m x]
  else return straight [.movqFromX .rax x, .store m .rax (← Width.ofSize size)]

/-- The pieces, as offset and width, in which a block of bytes is moved: sixteens, then at most one
of each smaller width. -/
def chunks (size : Nat) : List (Nat × Nat) :=
  (List.range (size / 16)).map (fun i => (16 * i, 16)) ++
    [8, 4, 2, 1].filterMap fun n =>
      if size / n % 2 = 1 then some (size / (2 * n) * (2 * n), n) else none

/-- The same with every sixteen halved. -/
def wordChunks (size : Nat) : List (Nat × Nat) :=
  (chunks size).flatMap fun (off, n) => if n = 16 then [(off, 8), (off + 8, 8)] else [(off, n)]

/-- The unsigned load of a piece. -/
def chunkAccess : Nat → Access
  | 1 => .u8 | 2 => .u16 | 4 => .u32 | _ => .w64

def chunkWidth : Nat → Width
  | 1 => .b1 | 2 => .b2 | 4 => .b4 | _ => .b8

/-- The place a whole number of bytes further on. -/
def shift (m : Place) (n : Nat) : Place := m.offset (Int64.ofNat n)

/-- Copy bytes through rcx and xmm0. -/
def copy (dst src : Place) (size : Nat) : Code :=
  straight ((chunks size).flatMap fun (off, n) =>
    if n = 16 then [.movdquLoad 0 (shift src off), .movdquStore (shift dst off) 0]
    else [.load .rcx (shift src off) (chunkAccess n), .store (shift dst off) .rcx (chunkWidth n)])

/-- Store the bytes of a constant, eight at most at a time. -/
def storeBytes (dst : Place) (data : List UInt8) : Code :=
  straight ((wordChunks data.length).flatMap fun (off, n) =>
    [.movImm .rax (ofLeBytes ((data.drop off).take n)), .store (shift dst off) .rax (chunkWidth n)])

/-! ## Arithmetic -/

def floatArith : Op → Option FloatArith
  | .fadd => some .add | .fmul => some .mul | .fsub => some .sub
  | .fmin => some .min | .fdiv => some .div | .fmax => some .max
  | _ => none

/-- The operation on rax and rcx, its result in rax. -/
def intArith : Op → List (Instr Label)
  | .add => [.alu .add .rax .rcx]
  | .sub => [.alu .sub .rax .rcx]
  | .mul => [.imul .rax .rcx]
  | .and => [.alu .and .rax .rcx]
  | .or => [.alu .or .rax .rcx]
  | .xor => [.alu .xor .rax .rcx]
  | .shl => [.shift .shl .rax]
  | .lshr => [.shift .shr .rax]
  | .ashr => [.shift .sar .rax]
  | .sdiv => [.cqo, .unary .idiv .rcx]
  | .srem => [.cqo, .unary .idiv .rcx, .alu .mov .rax .rdx]
  | .udiv => [.alu .xor .rdx .rdx, .unary .div .rcx]
  | .urem => [.alu .xor .rdx .rdx, .unary .div .rcx, .alu .mov .rax .rdx]
  | _ => []

/-- One lane of a binary operation. Signed divisions read both operands as signed, an arithmetic
shift only the first. -/
def scalarBinary (op : Op) (k : Kind) (dst x y : Place) : Outcome Code := do
  match floatArith op with
  | some f =>
    return straight [.movssLoad 0 x, .movssLoad 1 y, vector (.scalar f) 0 1, .movssStore dst 0]
  | none =>
    let division := op = .sdiv ∨ op = .srem
    return (← loadInt .rax x k (op = .ashr ∨ division)) ++ (← loadInt .rcx y k division) ++
      straight (intArith op) ++ (← storeInt dst .rax k)

/-- One lane of a square root or a change of sign. -/
def scalarUnary (op : Op) (dst x : Place) : Code :=
  if op = .fsqrt then straight [.movssLoad 0 x, vector .sqrtss 0 0, .movssStore dst 0]
  else straight [.load .rax x .u32, .movImm .rcx 0x80000000, .alu .xor .rax .rcx,
    .store dst .rax .b4]

/-! ## Comparison -/

/-- The condition after comparing integers. -/
def intCond : Predicate → Cond
  | .eq => .e | .ne => .ne | .slt => .l | .sle => .le | .sgt => .g | .sge => .ge
  | .ult => .b | .ule => .be | .ugt => .a | .uge => .ae
  | _ => .o

/-- How the flags of a float comparison answer a predicate: in which order to compare, the
condition, and a second one with which it is joined. -/
structure FloatTest where
  swap : Bool := false
  cond : Cond
  joined : Option (Alu × Cond) := none

def floatTest : Predicate → FloatTest
  | .oeq => { cond := .e, joined := some (.and, .np) }
  | .one => { cond := .ne, joined := some (.and, .np) }
  | .ogt => { cond := .a }
  | .oge => { cond := .ae }
  | .olt => { swap := true, cond := .a }
  | .ole => { swap := true, cond := .ae }
  | .ord => { cond := .np }
  | .uno => { cond := .p }
  | .ueq => { cond := .e }
  | .une => { cond := .ne, joined := some (.or, .p) }
  | .fugt => { swap := true, cond := .b }
  | .fuge => { swap := true, cond := .be }
  | .fult => { cond := .b }
  | .fule => { cond := .be }
  | _ => { cond := .o }

/-- One lane of a comparison; rax is 1 if it holds and 0 if not. -/
def compare (p : Predicate) (k : Kind) (x y : Place) : Outcome Code := do
  if p.isFloat then
    let t := floatTest p
    let second := match t.joined with
      | some (op, cc) => [.setcc cc .rcx, .movzx8 .rcx .rcx, .alu op .rax .rcx]
      | none => []
    return straight ([.movssLoad 0 x, .movssLoad 1 y,
      if t.swap then vector .ucomiss 1 0 else vector .ucomiss 0 1,
      .setcc t.cond .rax, .movzx8 .rax .rax] ++ second)
  else
    return (← loadInt .rax x k p.isSigned) ++ (← loadInt .rcx y k p.isSigned) ++
      straight [.alu .cmp .rax .rcx, .setcc (intCond p) .rax, .movzx8 .rax .rax]

/-! ## Conversion -/

/-- Convert the unsigned number in rax. From 2^63 on half of it is converted, the lost bit kept in
the last place for rounding, and doubled; `big` and `done` are fresh labels. -/
def unsignedToFloat (big done : Label) : Code :=
  straight [.alu .test .rax .rax, .jcc .s big, .cvtsi2ss 0 .rax, .jmp done] ++ [.mark big] ++
  straight [.alu .mov .rcx .rax, .shrImm .rcx 1, .aluImm .and .rax 1, .alu .or .rcx .rax,
    .cvtsi2ss 0 .rcx, vector (.scalar .add) 0 0] ++ [.mark done]

/-- One lane of a conversion, with two labels it may bind. -/
def cast (op : Op) (source target : Kind) (dst x : Place) (big done : Label) : Outcome Code := do
  match op with
  | .trunc | .zext | .ptrtoint | .inttoptr =>
    return (← loadInt .rax x source false) ++ (← storeInt dst .rax target)
  | .sext => return (← loadInt .rax x source true) ++ (← storeInt dst .rax target)
  | .fptosi | .fptoui =>
    return straight [.movssLoad 0 x, .cvttss2si .rax 0] ++ (← storeInt dst .rax target)
  | .sitofp =>
    return (← loadInt .rax x source true) ++ straight [.cvtsi2ss 0 .rax, .movssStore dst 0]
  | .uitofp =>
    let convert := if source = .i64 then unsignedToFloat big done else straight [.cvtsi2ss 0 .rax]
    return (← loadInt .rax x source false) ++ convert ++ straight [.movssStore dst 0]
  | _ => return []

/-! ## Selection -/

/-- Take a piece from `x` if the zero flag is clear and from `y` if it is set. -/
def selectChunk (dst x y : Place) (n : Nat) : List (Instr Label) :=
  [.load .rcx x (chunkAccess n), .load .rdx y (chunkAccess n), .cmov .e .rcx .rdx,
   .store dst .rcx (chunkWidth n)]

end SsaJit.Lower
