import SsaJit.X86.Instr

/-! Reading instructions back from bytes: a mandatory byte, REX, the opcode, ModRM with what belongs
to it, and an immediate. Code addresses come out as displacements from the instruction's end. -/

namespace SsaJit.X86

/-- Instructions of finished code. -/
abbrev Decoded := Instr Int32

/-- A part read from the front of a byte string, and what is left. -/
abbrev Parse (α : Type) := Option (α × List UInt8)

/-- A signed 32-bit field. -/
def readInt32 : List UInt8 → Parse Int32
  | a :: b :: c :: d :: rest => some ((ofLeBytes [a, b, c, d]).toUInt32.toInt32, rest)
  | _ => none

/-- A signed byte. -/
def readInt8 : List UInt8 → Parse Int32
  | a :: rest => some (a.toInt8.toInt32, rest)
  | [] => none

def readWord (bs : List UInt8) : Parse UInt64 :=
  if bs.length < 8 then none else some (ofLeBytes (bs.take 8), bs.drop 8)

/-- The bits of a REX byte, and whether there is one. -/
structure Rex where
  present : Bool := false
  w : Bool := false
  r : Bool := false
  x : Bool := false
  b : Bool := false
  deriving DecidableEq, Repr

def Rex.ofByte (byte : UInt8) : Rex :=
  let n := byte.toNat
  ⟨true, n / 8 % 2 = 1, n / 4 % 2 = 1, n / 2 % 2 = 1, n % 2 = 1⟩

/-- A register number from a three-bit field and its REX bit. -/
def joinBits (ext : Bool) (low : Nat) : Fin 16 := Fin.ofNat 16 (low % 8 + if ext then 8 else 0)

/-- What the second operand of an instruction is. -/
inductive Rm
  | reg (r : Fin 16)
  | mem (m : Mem Int32)
  deriving DecidableEq, Repr

/-- A place based on a register, after ModRM and the index byte. -/
def readBased (mod : Nat) (base : Reg) (bs : List UInt8) : Parse (Mem Int32) :=
  match mod with
  | 0 => some (.based base 0, bs)
  | 1 => (readInt8 bs).map fun (d, rest) => (.based base d, rest)
  | _ => (readInt32 bs).map fun (d, rest) => (.based base d, rest)

/-- ModRM: the first operand's register number and the second operand. The only index byte known here
is the one without an index. -/
def readModrm (rex : Rex) : List UInt8 → Parse (Fin 16 × Rm)
  | [] => none
  | byte :: rest =>
    let mod := byte.toNat / 64
    let reg := joinBits rex.r (byte.toNat / 8)
    let rm := byte.toNat % 8
    if mod = 3 then some ((reg, .reg (joinBits rex.b rm)), rest)
    else if mod = 0 ∧ rm = 5 then
      (readInt32 rest).map fun (d, rest) => ((reg, .mem (.code d)), rest)
    else if rm = 4 then
      match rest with
      | 0x24 :: rest =>
        if rex.x then none
        else
          (readBased mod (.ofCode (joinBits rex.b 4)) rest).map fun (m, rest) =>
            ((reg, .mem m), rest)
      | _ => none
    else
      (readBased mod (.ofCode (joinBits rex.b rm)) rest).map fun (m, rest) => ((reg, .mem m), rest)

/-- An instruction on two general registers. -/
def twoRegs (rex : Rex) (bs : List UInt8) (make : Reg → Reg → Decoded) : Parse Decoded :=
  match readModrm rex bs with
  | some ((reg, .reg rm), rest) => some (make (.ofCode reg) (.ofCode rm), rest)
  | _ => none

/-- An instruction on a register and memory. -/
def regMem (rex : Rex) (bs : List UInt8) (make : Fin 16 → Mem Int32 → Decoded) : Parse Decoded :=
  match readModrm rex bs with
  | some ((reg, .mem m), rest) => some (make reg m, rest)
  | _ => none

/-- An instruction on one register, with more of the opcode in place of the other. -/
def oneReg (rex : Rex) (bs : List UInt8) (make : Nat → Reg → List UInt8 → Parse Decoded) :
    Parse Decoded :=
  match readModrm rex bs with
  | some ((digit, .reg rm), rest) => make digit.val (.ofCode rm) rest
  | _ => none

/-- The register whose low byte is an operand. Without REX, four numbers name second bytes. -/
def byteReg (rex : Rex) (n : Fin 16) : Option Reg :=
  if 4 ≤ n.val ∧ !rex.present then none else some (.ofCode n)

def aluOf : UInt8 → Option Alu
  | 0x89 => some .mov | 0x01 => some .add | 0x09 => some .or | 0x21 => some .and
  | 0x29 => some .sub | 0x31 => some .xor | 0x39 => some .cmp | 0x85 => some .test
  | _ => none

def aluImmOf : Nat → Option AluImm
  | 0 => some .add | 4 => some .and | 5 => some .sub
  | _ => none

def unaryOf : Nat → Option Unary
  | 2 => some .not | 3 => some .neg | 6 => some .div | 7 => some .idiv
  | _ => none

def shiftOf : Nat → Option Shift
  | 4 => some .shl | 5 => some .shr | 7 => some .sar
  | _ => none

/-- An operation with an immediate of either width. -/
def aluWithImm (rex : Rex) (bs : List UInt8) (read : List UInt8 → Parse Int32) : Parse Decoded :=
  oneReg rex bs fun digit r rest =>
    match aluImmOf digit, read rest with
    | some op, some (imm, rest) => some (.aluImm op r imm, rest)
    | _, _ => none

def imulWithImm (rex : Rex) (bs : List UInt8) (read : List UInt8 → Parse Int32) : Parse Decoded :=
  match readModrm rex bs with
  | some ((dst, .reg src), rest) =>
    (read rest).map fun (imm, rest) => (.imulImm (.ofCode dst) (.ofCode src) imm, rest)
  | _ => none

def movWithImm (digit : Nat) (r : Reg) (bs : List UInt8) : Parse Decoded :=
  if digit = 0 then (readInt32 bs).map fun (imm, rest) => (.movImm32 r imm, rest) else none

def shiftWithImm (digit : Nat) (r : Reg) (bs : List UInt8) : Parse Decoded :=
  match digit, bs with
  | 5, n :: rest => some (.shrImm r n, rest)
  | _, _ => none

/-- Opcodes of one byte with REX.W, which are operations on whole registers. -/
def decodeWhole (rex : Rex) (opcode : UInt8) (bs : List UInt8) : Parse Decoded :=
  if 0xB8 ≤ opcode ∧ opcode < 0xC0 then
    (readWord bs).map fun (imm, rest) => (.movImm64 (.ofCode (joinBits rex.b opcode.toNat)) imm, rest)
  else match opcode with
  | 0x8B => regMem rex bs fun dst m => .load (.ofCode dst) m .w64
  | 0x63 => regMem rex bs fun dst m => .load (.ofCode dst) m .s32
  | 0x8D => regMem rex bs fun dst m => .lea (.ofCode dst) m
  | 0x83 => aluWithImm rex bs readInt8
  | 0x81 => aluWithImm rex bs readInt32
  | 0x6B => imulWithImm rex bs readInt8
  | 0x69 => imulWithImm rex bs readInt32
  | 0xC7 => oneReg rex bs movWithImm
  | 0xF7 => oneReg rex bs fun digit r rest => (unaryOf digit).map fun op => (.unary op r, rest)
  | 0xD3 => oneReg rex bs fun digit r rest => (shiftOf digit).map fun op => (.shift op r, rest)
  | 0xC1 => oneReg rex bs shiftWithImm
  | 0x99 => some (.cqo, bs)
  | op =>
    match aluOf op, readModrm rex bs with
    | some op, some ((src, .reg dst), rest) => some (.alu op (.ofCode dst) (.ofCode src), rest)
    | some .mov, some ((src, .mem m), rest) => some (.store m (.ofCode src) .b8, rest)
    | _, _ => none

/-- Opcodes of one byte whose operand does not depend on REX.W, and moves of less than a register. -/
def decodeShort (rex : Rex) (opcode : UInt8) (bs : List UInt8) : Parse Decoded :=
  if 0x50 ≤ opcode ∧ opcode < 0x58 then
    some (.push (.ofCode (joinBits rex.b opcode.toNat)), bs)
  else if 0x58 ≤ opcode ∧ opcode < 0x60 then
    some (.pop (.ofCode (joinBits rex.b opcode.toNat)), bs)
  else match opcode with
  | 0x88 =>
    match readModrm rex bs with
    | some ((src, .mem m), rest) => (byteReg rex src).map fun src => (.store m src .b1, rest)
    | _ => none
  | 0xFF => oneReg rex bs fun digit r rest => if digit = 2 then some (.call r, rest) else none
  | 0xE9 => (readInt32 bs).map fun (d, rest) => (.jmp d, rest)
  | 0xC9 => some (.leave, bs)
  | 0xC3 => some (.ret, bs)
  | op =>
    if rex.w then decodeWhole rex op bs
    else match op with
      | 0x8B => regMem rex bs fun dst m => .load (.ofCode dst) m .u32
      | 0x89 => regMem rex bs fun src m => .store m (.ofCode src) .b4
      | _ => none

/-- A vector instruction between two registers. -/
def decodeSse (mandatory : UInt8) (rex : Rex) (opcode : List UInt8) (bs : List UInt8) :
    Parse Decoded :=
  let code : SseCode := ⟨mandatory, opcode⟩
  match readModrm rex bs with
  | some ((dst, .reg src), rest) =>
    if !code.isVector then none
    else if code.hasImmediate then
      match rest with
      | imm :: rest => some (.sse code dst src (some imm), rest)
      | [] => none
    else some (.sse code dst src none, rest)
  | _ => none

def accessOf : UInt8 → Option Access
  | 0xB6 => some .u8 | 0xBE => some .s8 | 0xB7 => some .u16 | 0xBF => some .s16
  | _ => none

/-- The low four bits of an opcode as a condition. -/
def condOf (opcode : UInt8) : Cond := .ofCode (Fin.ofNat 16 (opcode.toNat % 16))

/-- Opcodes after the escape byte with REX.W. -/
def decodeWide (mandatory : UInt8) (rex : Rex) (opcode : UInt8) (bs : List UInt8) : Parse Decoded :=
  match mandatory, opcode with
  | 0x66, 0x6E => twoRegs rex bs fun x r => .movqToX x.code r
  | 0x66, 0x7E => twoRegs rex bs fun x r => .movqFromX r x.code
  | 0xF3, 0x2A => twoRegs rex bs fun x r => .cvtsi2ss x.code r
  | 0xF3, 0x2C => twoRegs rex bs fun r x => .cvttss2si r x.code
  | 0, 0xAF => twoRegs rex bs fun d s => .imul d s
  | 0, op =>
    if 0x40 ≤ op ∧ op < 0x50 then twoRegs rex bs fun d s => .cmov (condOf op) d s
    else match accessOf op, readModrm rex bs with
      | some a, some ((dst, .mem m), rest) => some (.load (.ofCode dst) m a, rest)
      | some .u8, some ((dst, .reg src), rest) => some (.movzx8 (.ofCode dst) (.ofCode src), rest)
      | _, _ => none
  | _, _ => none

/-- Opcodes after the escape byte without REX.W. -/
def decodeNarrow (mandatory : UInt8) (rex : Rex) (opcode : UInt8) (bs : List UInt8) :
    Parse Decoded :=
  if mandatory = 0 ∧ opcode = 0x0B then some (.ud2, bs)
  else if mandatory = 0 ∧ 0x80 ≤ opcode ∧ opcode < 0x90 then
    (readInt32 bs).map fun (d, rest) => (.jcc (condOf opcode) d, rest)
  else if mandatory = 0 ∧ 0x90 ≤ opcode ∧ opcode < 0xA0 then
    match readModrm rex bs with
    | some ((_, .reg r), rest) => (byteReg rex r).map fun r => (.setcc (condOf opcode) r, rest)
    | _ => none
  else match mandatory, opcode, readModrm rex bs with
  | 0xF3, 0x6F, some ((x, .mem m), rest) => some (.movdquLoad x m, rest)
  | 0xF3, 0x7F, some ((x, .mem m), rest) => some (.movdquStore m x, rest)
  | 0xF3, 0x10, some ((x, .mem m), rest) => some (.movssLoad x m, rest)
  | 0xF3, 0x11, some ((x, .mem m), rest) => some (.movssStore m x, rest)
  | _, _, _ => decodeSse mandatory rex [0x0F, opcode] bs

/-- The opcode and what follows it. -/
def decodeOpcode (mandatory : UInt8) (rex : Rex) : List UInt8 → Parse Decoded
  | 0x0F :: 0x38 :: op :: bs => decodeSse mandatory rex [0x0F, 0x38, op] bs
  | 0x0F :: 0x3A :: op :: bs => decodeSse mandatory rex [0x0F, 0x3A, op] bs
  | 0x0F :: op :: bs =>
    if rex.w then decodeWide mandatory rex op bs else decodeNarrow mandatory rex op bs
  | op :: bs =>
    if mandatory = 0 then decodeShort rex op bs
    else if mandatory = 0x66 ∧ op = 0x89 ∧ !rex.w then
      regMem rex bs fun src m => .store m (.ofCode src) .b2
    else none
  | [] => none

/-- REX, if there is one, and all after it. -/
def decodeRex (mandatory : UInt8) : List UInt8 → Parse Decoded
  | [] => none
  | byte :: bs =>
    if 0x40 ≤ byte ∧ byte < 0x50 then decodeOpcode mandatory (.ofByte byte) bs
    else decodeOpcode mandatory {} (byte :: bs)

/-- The first instruction of a byte string, and the bytes after it. -/
def decode : List UInt8 → Parse Decoded
  | [] => none
  | byte :: bs =>
    if byte = 0x66 ∨ byte = 0xF3 ∨ byte = 0xF2 then decodeRex byte bs
    else decodeRex 0 (byte :: bs)

end SsaJit.X86
