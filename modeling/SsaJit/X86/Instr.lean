import SsaJit.Fault
import SsaJit.X86.Register
import SsaJit.X86.Sse

/-! Machine instructions and their bytes. Instructions are generic in what a code address is: a label
while code is put together, a displacement from the instruction's end in finished code. Where an
instruction carries a code address, it is the last four bytes. -/

namespace SsaJit.X86

/-- A place in memory: a register plus a displacement, or an address in the code. -/
inductive Mem (τ : Type)
  | based (base : Reg) (disp : Int32)
  | code (target : τ)
  deriving DecidableEq, Repr

/-- The place `n` bytes further on. Code addresses do not move. -/
def Mem.offset {τ : Type} (m : Mem τ) (n : Int64) : Mem τ :=
  match m with
  | .based b d => .based b (d + n.toInt32)
  | .code t => .code t

/-- How many bytes a load takes and how it fills the register. -/
inductive Access
  | u8 | s8 | u16 | s16 | u32 | s32 | w64
  deriving DecidableEq, Repr, Inhabited

def Access.ofSize (bytes : Int) (signed : Bool) : Outcome Access :=
  if bytes = 1 then .ok (if signed then .s8 else .u8)
  else if bytes = 2 then .ok (if signed then .s16 else .u16)
  else if bytes = 4 then .ok (if signed then .s32 else .u32)
  else if bytes = 8 then .ok .w64
  else .refuse (.loadWidth bytes)

/-- How many bytes a store writes. -/
inductive Width
  | b1 | b2 | b4 | b8
  deriving DecidableEq, Repr, Inhabited

def Width.ofSize (bytes : Int) : Outcome Width :=
  if bytes = 1 then .ok .b1
  else if bytes = 2 then .ok .b2
  else if bytes = 4 then .ok .b4
  else if bytes = 8 then .ok .b8
  else .refuse (.storeWidth bytes)

def Width.bytes : Width → Nat
  | .b1 => 1 | .b2 => 2 | .b4 => 4 | .b8 => 8

/-- Two-register integer operations. `cmp` and `test` only set flags. -/
inductive Alu
  | mov | add | or | and | sub | xor | cmp | test
  deriving DecidableEq, Repr, Inhabited

def Alu.opcode : Alu → UInt8
  | .mov => 0x89 | .add => 0x01 | .or => 0x09 | .and => 0x21 | .sub => 0x29 | .xor => 0x31
  | .cmp => 0x39 | .test => 0x85

/-- Operations on a register and a number. -/
inductive AluImm
  | add | and | sub
  deriving DecidableEq, Repr, Inhabited

def AluImm.digit : AluImm → Fin 16
  | .add => 0 | .and => 4 | .sub => 5

/-- Operations on one register. Divisions take the dividend from rdx and rax. -/
inductive Unary
  | not | neg | div | idiv
  deriving DecidableEq, Repr, Inhabited

def Unary.digit : Unary → Fin 16
  | .not => 2 | .neg => 3 | .div => 6 | .idiv => 7

/-- Shifts by the count in cl. -/
inductive Shift
  | shl | shr | sar
  deriving DecidableEq, Repr, Inhabited

def Shift.digit : Shift → Fin 16
  | .shl => 4 | .shr => 5 | .sar => 7

/-- An instruction. -/
inductive Instr (τ : Type)
  | alu (op : Alu) (dst src : Reg)
  | aluImm (op : AluImm) (reg : Reg) (imm : Int32)
  | movImm64 (reg : Reg) (imm : UInt64)
  | movImm32 (reg : Reg) (imm : Int32)
  | load (dst : Reg) (m : Mem τ) (access : Access)
  | store (m : Mem τ) (src : Reg) (width : Width)
  | lea (dst : Reg) (m : Mem τ)
  | imul (dst src : Reg)
  | imulImm (dst src : Reg) (imm : Int32)
  | unary (op : Unary) (reg : Reg)
  | cqo
  | shift (op : Shift) (reg : Reg)
  | shrImm (reg : Reg) (count : UInt8)
  | setcc (cc : Cond) (reg : Reg)
  | movzx8 (dst src : Reg)
  | cmov (cc : Cond) (dst src : Reg)
  | push (reg : Reg)
  | pop (reg : Reg)
  | jmp (target : τ)
  | jcc (cc : Cond) (target : τ)
  | call (reg : Reg)
  | leave
  | ret
  | ud2
  | sse (code : SseCode) (dst src : XReg) (imm : Option UInt8)
  | movdquLoad (x : XReg) (m : Mem τ)
  | movdquStore (m : Mem τ) (x : XReg)
  | movssLoad (x : XReg) (m : Mem τ)
  | movssStore (m : Mem τ) (x : XReg)
  | movqToX (x : XReg) (r : Reg)
  | movqFromX (r : Reg) (x : XReg)
  | cvtsi2ss (x : XReg) (r : Reg)
  | cvttss2si (r : Reg) (x : XReg)
  deriving DecidableEq, Repr

namespace Instr

/-- Load a number by the shorter of the two moves that can. -/
def movImm {τ : Type} (r : Reg) (imm : UInt64) : Instr τ :=
  if imm.toInt64.toInt32.toInt64 = imm.toInt64 then .movImm32 r imm.toInt64.toInt32
  else .movImm64 r imm

/-- The code address an instruction mentions. -/
def target? {τ : Type} : Instr τ → Option τ
  | .jmp t | .jcc _ t => some t
  | .load _ (.code t) _ | .store (.code t) _ _ | .lea _ (.code t) => some t
  | .movdquLoad _ (.code t) | .movdquStore (.code t) _ => some t
  | .movssLoad _ (.code t) | .movssStore (.code t) _ => some t
  | _ => none

end Instr

/-! ## Bytes -/

/-- The four low bytes of a word. -/
def bytes32 (w : UInt32) : List UInt8 := leBytes 4 w.toUInt64

def rexByte (w r b : Bool) : UInt8 :=
  0x40 ||| (if w then 8 else 0) ||| (if r then 4 else 0) ||| (if b then 1 else 0)

def modrm (mod : UInt8) (reg rm : Fin 16) : UInt8 :=
  (mod <<< 6) ||| (UInt8.ofNat (reg.val % 8) <<< 3) ||| UInt8.ofNat (rm.val % 8)

/-- Does a byte fit a signed eight-bit field? -/
def fitsByte (n : Int32) : Bool := -128 ≤ n ∧ n ≤ 127

def immByte (n : Int32) : UInt8 := n.toUInt32.toUInt8

/-- The mandatory byte and REX, each only if it is needed. -/
def leading (mandatory : UInt8) (w force : Bool) (reg base : Fin 16) : List UInt8 :=
  let r : Bool := 8 ≤ reg.val
  let b : Bool := 8 ≤ base.val
  (if mandatory = 0 then [] else [mandatory]) ++
    if w || r || b || force then [rexByte w r b] else []

/-- An instruction on two registers. -/
def onRegs (mandatory : UInt8) (w force : Bool) (opcode : List UInt8) (reg rm : Fin 16) : List UInt8 :=
  leading mandatory w force reg rm ++ opcode ++ [modrm 3 reg rm]

/-- ModRM with what follows it for a place in memory. A base with the low bits of rsp needs an index
byte, and one with the low bits of rbp always has a displacement. -/
def memOperand {τ : Type} (field : τ → UInt32) (reg : Fin 16) : Mem τ → List UInt8
  | .code t => modrm 0 reg 5 :: bytes32 (field t)
  | .based base disp =>
    let rm := base.code
    let index : List UInt8 := if rm.val % 8 = 4 then [0x24] else []
    if disp = 0 ∧ rm.val % 8 ≠ 5 then modrm 0 reg rm :: index
    else if fitsByte disp then modrm 1 reg rm :: index ++ [immByte disp]
    else modrm 2 reg rm :: index ++ bytes32 disp.toUInt32

/-- An instruction on a register and a place in memory. -/
def onMem {τ : Type} (field : τ → UInt32) (mandatory : UInt8) (w force : Bool) (opcode : List UInt8)
    (reg : Fin 16) (m : Mem τ) : List UInt8 :=
  let base : Fin 16 := match m with
    | .based b _ => b.code
    | .code _ => 0
  leading mandatory w force reg base ++ opcode ++ memOperand field reg m

/-- A one-byte instruction with the register in its low bits. -/
def onOne (opcode : UInt8) (r : Reg) : List UInt8 :=
  leading 0 false false 0 r.code ++ [opcode + UInt8.ofNat (r.code.val % 8)]

/-- Byte operands from rsp on need REX, which tells them from the high bytes of the first four. -/
def needsRexAsByte (r : Reg) : Bool := 4 ≤ r.code.val

def Access.wide : Access → Bool
  | .u32 => false
  | _ => true

def Access.opcode : Access → List UInt8
  | .u8 => [0x0F, 0xB6] | .s8 => [0x0F, 0xBE] | .u16 => [0x0F, 0xB7] | .s16 => [0x0F, 0xBF]
  | .s32 => [0x63] | .u32 | .w64 => [0x8B]

/-- The bytes of an instruction, given the field for each code address. -/
def Instr.encode {τ : Type} (field : τ → UInt32) : Instr τ → List UInt8
  | .alu op dst src => onRegs 0 true false [op.opcode] src.code dst.code
  | .aluImm op r imm =>
    if fitsByte imm then onRegs 0 true false [0x83] op.digit r.code ++ [immByte imm]
    else onRegs 0 true false [0x81] op.digit r.code ++ bytes32 imm.toUInt32
  | .movImm64 r imm =>
    [rexByte true false (8 ≤ r.code.val), 0xB8 + UInt8.ofNat (r.code.val % 8)] ++ leBytes 8 imm
  | .movImm32 r imm => onRegs 0 true false [0xC7] 0 r.code ++ bytes32 imm.toUInt32
  | .load dst m a => onMem field 0 a.wide false a.opcode dst.code m
  | .store m src .b1 => onMem field 0 false (needsRexAsByte src) [0x88] src.code m
  | .store m src .b2 => onMem field 0x66 false false [0x89] src.code m
  | .store m src .b4 => onMem field 0 false false [0x89] src.code m
  | .store m src .b8 => onMem field 0 true false [0x89] src.code m
  | .lea dst m => onMem field 0 true false [0x8D] dst.code m
  | .imul dst src => onRegs 0 true false [0x0F, 0xAF] dst.code src.code
  | .imulImm dst src imm =>
    if fitsByte imm then onRegs 0 true false [0x6B] dst.code src.code ++ [immByte imm]
    else onRegs 0 true false [0x69] dst.code src.code ++ bytes32 imm.toUInt32
  | .unary op r => onRegs 0 true false [0xF7] op.digit r.code
  | .cqo => [0x48, 0x99]
  | .shift op r => onRegs 0 true false [0xD3] op.digit r.code
  | .shrImm r n => onRegs 0 true false [0xC1] 5 r.code ++ [n]
  | .setcc cc r =>
    onRegs 0 false (needsRexAsByte r) [0x0F, 0x90 + UInt8.ofNat cc.code.val] 0 r.code
  | .movzx8 dst src => onRegs 0 true false [0x0F, 0xB6] dst.code src.code
  | .cmov cc dst src => onRegs 0 true false [0x0F, 0x40 + UInt8.ofNat cc.code.val] dst.code src.code
  | .push r => onOne 0x50 r
  | .pop r => onOne 0x58 r
  | .jmp t => 0xE9 :: bytes32 (field t)
  | .jcc cc t => [0x0F, 0x80 + UInt8.ofNat cc.code.val] ++ bytes32 (field t)
  | .call r => onRegs 0 false false [0xFF] 2 r.code
  | .leave => [0xC9]
  | .ret => [0xC3]
  | .ud2 => [0x0F, 0x0B]
  | .sse c dst src imm => onRegs c.mandatory false false c.opcode dst src ++ imm.toList
  | .movdquLoad x m => onMem field 0xF3 false false [0x0F, 0x6F] x m
  | .movdquStore m x => onMem field 0xF3 false false [0x0F, 0x7F] x m
  | .movssLoad x m => onMem field 0xF3 false false [0x0F, 0x10] x m
  | .movssStore m x => onMem field 0xF3 false false [0x0F, 0x11] x m
  | .movqToX x r => onRegs 0x66 true false [0x0F, 0x6E] x r.code
  | .movqFromX r x => onRegs 0x66 true false [0x0F, 0x7E] x r.code
  | .cvtsi2ss x r => onRegs 0xF3 true false [0x0F, 0x2A] x r.code
  | .cvttss2si r x => onRegs 0xF3 true false [0x0F, 0x2C] r.code x

end SsaJit.X86
