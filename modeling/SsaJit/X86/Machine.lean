import Std.Data.HashMap
import SsaJit.X86.Decode
import SsaJit.X86.Lanes

/-! The processor: registers, flags, memory, and what one instruction does to them. Only instructions
that set flags on every run change them here; multiplications, divisions and shifts leave them alone,
and no generated code reads them after those. -/

namespace SsaJit.X86

/-! ## Memory

Byte-addressed memory. Every address can be read and written; bytes that were never written are
zero. -/

structure Memory where
  cells : Std.HashMap UInt64 UInt8 := ∅

namespace Memory

def get (m : Memory) (a : UInt64) : UInt8 := m.cells.getD a 0

def set (m : Memory) (a : UInt64) (b : UInt8) : Memory := ⟨m.cells.insert a b⟩

/-- `n` bytes from an address on. -/
def read (m : Memory) (a : UInt64) (n : Nat) : List UInt8 :=
  (List.range n).map fun i => m.get (a + UInt64.ofNat i)

/-- Bytes put from an address on. -/
def write (m : Memory) (a : UInt64) : List UInt8 → Memory
  | [] => m
  | b :: bs => (m.set a b).write (a + 1) bs

/-- A number of `n` bytes, filled with zeros. -/
def readWord (m : Memory) (a : UInt64) (n : Nat) : UInt64 := ofLeBytes (m.read a n)

/-- The low `n` bytes of a word. -/
def writeWord (m : Memory) (a : UInt64) (n : Nat) (w : UInt64) : Memory := m.write a (leBytes n w)

end Memory

/-! ## The processor -/

structure Flags where
  carry : Bool := false
  zero : Bool := false
  sign : Bool := false
  overflow : Bool := false
  parity : Bool := false
  deriving DecidableEq, Repr, Inhabited

def Cond.holds (f : Flags) : Cond → Bool
  | .o => f.overflow | .no => !f.overflow
  | .b => f.carry | .ae => !f.carry
  | .e => f.zero | .ne => !f.zero
  | .be => f.carry || f.zero | .a => !(f.carry || f.zero)
  | .s => f.sign | .ns => !f.sign
  | .p => f.parity | .np => !f.parity
  | .l => f.sign != f.overflow | .ge => f.sign == f.overflow
  | .le => f.zero || f.sign != f.overflow | .g => !(f.zero || f.sign != f.overflow)

/-- Is the number of ones among the low eight bits even? -/
def evenOnes (w : UInt64) : Bool :=
  ((List.range 8).filter fun i => w.toNat.testBit i).length % 2 = 0

def topBit (w : UInt64) : Bool := 0x8000000000000000 ≤ w

namespace Flags

/-- Flags of a result, with the two that depend on the operation. -/
def ofResult (r : UInt64) (carry overflow : Bool) : Flags :=
  { carry, overflow, zero := r == 0, sign := topBit r, parity := evenOnes r }

def ofAdd (a b : UInt64) : Flags :=
  ofResult (a + b) (a + b < a) (topBit ((a ^^^ (a + b)) &&& (b ^^^ (a + b))))

def ofSub (a b : UInt64) : Flags :=
  ofResult (a - b) (a < b) (topBit ((a ^^^ b) &&& (a ^^^ (a - b))))

def ofLogic (r : UInt64) : Flags := ofResult r false false

/-- Flags of a float comparison: all three set if the operands do not compare. -/
def ofCompare (x y : Single) : Flags :=
  if Single.unordered x y then { zero := true, parity := true, carry := true }
  else { zero := Single.eq x y, carry := Single.lt x y }

end Flags

structure Machine where
  regs : Vector UInt64 16 := Vector.replicate 16 0
  xmms : Vector Xmm 16 := Vector.replicate 16 ⟨0, 0⟩
  flags : Flags := {}
  mem : Memory := {}
  /-- The address of the next instruction. -/
  rip : UInt64 := 0

/-- Why a machine stops before its code returns. -/
inductive Trap
  /-- A division by zero, or a quotient that does not fit. -/
  | divide
  /-- The instruction that marks unreachable code. -/
  | undefined
  /-- Bytes that are no instruction known here. -/
  | badCode
  /-- The number of steps granted ran out. -/
  | timeout
  deriving DecidableEq, Repr

namespace Machine

def reg (m : Machine) (r : Reg) : UInt64 := m.regs[r.code]
def setReg (m : Machine) (r : Reg) (w : UInt64) : Machine :=
  { m with regs := m.regs.set r.code w r.code.isLt }

def xmm (m : Machine) (x : XReg) : Xmm := m.xmms[x]
def setXmm (m : Machine) (x : XReg) (v : Xmm) : Machine :=
  { m with xmms := m.xmms.set x v x.isLt }

/-- The address of a place. -/
def address (m : Machine) : Mem Int32 → UInt64
  | .based b d => m.reg b + d.toInt64.toUInt64
  | .code d => m.rip + d.toInt64.toUInt64

def load (m : Machine) (a : UInt64) : Access → UInt64
  | .u8 => m.mem.readWord a 1
  | .s8 => (Kind.signExtend .i8 (m.mem.readWord a 1)).toUInt64
  | .u16 => m.mem.readWord a 2
  | .s16 => (Kind.signExtend .i16 (m.mem.readWord a 2)).toUInt64
  | .u32 => m.mem.readWord a 4
  | .s32 => (Kind.signExtend .i32 (m.mem.readWord a 4)).toUInt64
  | .w64 => m.mem.readWord a 8

def store (m : Machine) (a : UInt64) (n : Nat) (w : UInt64) : Machine :=
  { m with mem := m.mem.writeWord a n w }

def loadX (m : Machine) (a : UInt64) : Xmm := .ofBytes (m.mem.read a 16)
def storeX (m : Machine) (a : UInt64) (x : Xmm) : Machine := { m with mem := m.mem.write a x.bytes }

def push (m : Machine) (w : UInt64) : Machine :=
  let m := m.setReg .rsp (m.reg .rsp - 8)
  m.store (m.reg .rsp) 8 w

def pop (m : Machine) : Machine × UInt64 :=
  (m.setReg .rsp (m.reg .rsp + 8), m.mem.readWord (m.reg .rsp) 8)

/-- A two-operand operation on a register and a word. -/
def alu (m : Machine) (op : Alu) (dst : Reg) (b : UInt64) : Machine :=
  let a := m.reg dst
  let logic (r : UInt64) : Machine := { m.setReg dst r with flags := .ofLogic r }
  match op with
  | .mov => m.setReg dst b
  | .add => { m.setReg dst (a + b) with flags := .ofAdd a b }
  | .sub => { m.setReg dst (a - b) with flags := .ofSub a b }
  | .cmp => { m with flags := .ofSub a b }
  | .and => logic (a &&& b)
  | .or => logic (a ||| b)
  | .xor => logic (a ^^^ b)
  | .test => { m with flags := .ofLogic (a &&& b) }

def aluImmAlu : AluImm → Alu
  | .add => .add | .and => .and | .sub => .sub

/-- Divide the number in rdx and rax; the quotient must fit a register. -/
def divide (m : Machine) (d : UInt64) : Except Trap Machine :=
  let n := (m.reg .rdx).toNat * UInt64.size + (m.reg .rax).toNat
  if d = 0 ∨ UInt64.size ≤ n / d.toNat then .error .divide
  else .ok ((m.setReg .rax (UInt64.ofNat (n / d.toNat))).setReg .rdx (UInt64.ofNat (n % d.toNat)))

/-- The same for signed numbers, toward zero. -/
def divideSigned (m : Machine) (d : UInt64) : Except Trap Machine :=
  let n := (m.reg .rdx).toInt64.toInt * UInt64.size + (m.reg .rax).toNat
  let d := d.toInt64.toInt
  let q := n.tdiv d
  if d = 0 ∨ q < Int64.minValue.toInt ∨ Int64.maxValue.toInt < q then .error .divide
  else .ok ((m.setReg .rax (Int64.ofInt q).toUInt64).setReg .rdx (Int64.ofInt (n.tmod d)).toUInt64)

def unary (m : Machine) (op : Unary) (r : Reg) : Except Trap Machine :=
  let a := m.reg r
  match op with
  | .not => .ok (m.setReg r (~~~a))
  | .neg => .ok { m.setReg r (0 - a) with flags := .ofSub 0 a }
  | .div => m.divide a
  | .idiv => m.divideSigned a

/-- A shift by the low six bits of a count. -/
def shifted (op : Shift) (a count : UInt64) : UInt64 :=
  let n := count &&& 63
  match op with
  | .shl => a <<< n
  | .shr => a >>> n
  | .sar => (a.toInt64 >>> n.toInt64).toUInt64

def sse (m : Machine) (code : SseCode) (dst src : XReg) (imm : Option UInt8) :
    Except Trap Machine :=
  match SseOp.ofCode? code with
  | none => .error .badCode
  | some .ucomiss => .ok { m with flags := .ofCompare (m.xmm dst).low (m.xmm src).low }
  | some op =>
    match op.apply (imm.getD 0) (m.xmm dst) (m.xmm src) with
    | some x => .ok (m.setXmm dst x)
    | none => .error .badCode

/-- The machine after an instruction, from one whose `rip` is past it. -/
def exec (m : Machine) : Decoded → Except Trap Machine
  | .alu op dst src => .ok (m.alu op dst (m.reg src))
  | .aluImm op r imm => .ok (m.alu (aluImmAlu op) r imm.toInt64.toUInt64)
  | .movImm64 r imm => .ok (m.setReg r imm)
  | .movImm32 r imm => .ok (m.setReg r imm.toInt64.toUInt64)
  | .load dst p a => .ok (m.setReg dst (m.load (m.address p) a))
  | .store p src w => .ok (m.store (m.address p) w.bytes (m.reg src))
  | .lea dst p => .ok (m.setReg dst (m.address p))
  | .imul dst src => .ok (m.setReg dst (m.reg dst * m.reg src))
  | .imulImm dst src imm => .ok (m.setReg dst (m.reg src * imm.toInt64.toUInt64))
  | .unary op r => m.unary op r
  | .cqo => .ok (m.setReg .rdx (if topBit (m.reg .rax) then -1 else 0))
  | .shift op r => .ok (m.setReg r (shifted op (m.reg r) (m.reg .rcx)))
  | .shrImm r n => .ok (m.setReg r (shifted .shr (m.reg r) n.toUInt64))
  | .setcc cc r =>
    .ok (m.setReg r ((m.reg r &&& ~~~0xFF) ||| if cc.holds m.flags then 1 else 0))
  | .movzx8 dst src => .ok (m.setReg dst (m.reg src &&& 0xFF))
  | .cmov cc dst src => .ok (if cc.holds m.flags then m.setReg dst (m.reg src) else m)
  | .push r => .ok (m.push (m.reg r))
  | .pop r => let (m, w) := m.pop; .ok (m.setReg r w)
  | .jmp d => .ok { m with rip := m.rip + d.toInt64.toUInt64 }
  | .jcc cc d => .ok (if cc.holds m.flags then { m with rip := m.rip + d.toInt64.toUInt64 } else m)
  | .call r => .ok { m.push m.rip with rip := m.reg r }
  | .leave =>
    let (m, w) := (m.setReg .rsp (m.reg .rbp)).pop
    .ok (m.setReg .rbp w)
  | .ret => let (m, w) := m.pop; .ok { m with rip := w }
  | .ud2 => .error .undefined
  | .sse code dst src imm => m.sse code dst src imm
  | .movdquLoad x p => .ok (m.setXmm x (m.loadX (m.address p)))
  | .movdquStore p x => .ok (m.storeX (m.address p) (m.xmm x))
  | .movssLoad x p => .ok (m.setXmm x ⟨m.mem.readWord (m.address p) 4, 0⟩)
  | .movssStore p x => .ok (m.store (m.address p) 4 (m.xmm x).lo)
  | .movqToX x r => .ok (m.setXmm x ⟨m.reg r, 0⟩)
  | .movqFromX r x => .ok (m.setReg r (m.xmm x).lo)
  | .cvtsi2ss x r => .ok (m.setXmm x ((m.xmm x).setLow (.ofInt (m.reg r).toInt64.toInt)))
  | .cvttss2si r x => .ok (m.setReg r (truncateTo 64 (m.xmm x).low))

/-- The longest instruction has this many bytes. -/
def maxInstrBytes : Nat := 15

/-- Fetch and execute one instruction. -/
def step (m : Machine) : Except Trap Machine :=
  match decode (m.mem.read m.rip maxInstrBytes) with
  | none => .error .badCode
  | some (i, rest) =>
    { m with rip := m.rip + UInt64.ofNat (maxInstrBytes - rest.length) }.exec i

/-- Step until `rip` reaches an address. -/
def runUntil (stop : UInt64) : Nat → Machine → Except Trap Machine
  | 0, _ => .error .timeout
  | fuel + 1, m =>
    if m.rip = stop then .ok m
    else match m.step with
      | .error t => .error t
      | .ok m => m.runUntil stop fuel

end Machine

end SsaJit.X86
