import SsaJit.Kind

/-! Vector instructions between two registers: their names and their codes. A code is a mandatory
byte in front of REX (zero for none) and the opcode bytes after it, escape included. -/

namespace SsaJit.X86

/-- How an SSE instruction is written. -/
structure SseCode where
  mandatory : UInt8
  opcode : List UInt8
  deriving DecidableEq, Repr, Inhabited

/-- Is a byte in one of some ranges? -/
def inRanges (rs : List (UInt8 × UInt8)) (b : UInt8) : Bool := rs.any fun (lo, hi) => lo ≤ b && b ≤ hi

namespace SseCode

/-- The opcodes after the escape byte whose operands are two vector registers, for each mandatory
byte. What lies between is for other registers, for memory only, or nothing. -/
def vectorRows : UInt8 → List (UInt8 × UInt8)
  | 0 => [(0x10, 0x12), (0x14, 0x16), (0x28, 0x29), (0x2E, 0x2F), (0x51, 0x5F), (0xC2, 0xC2),
      (0xC6, 0xC6)]
  | 0x66 => [(0x10, 0x11), (0x14, 0x15), (0x28, 0x29), (0x2E, 0x2F), (0x51, 0x51), (0x54, 0x6D),
      (0x6F, 0x70), (0x74, 0x76), (0x7C, 0x7D), (0x7F, 0x7F), (0xC2, 0xC2), (0xC6, 0xC6),
      (0xD0, 0xD6), (0xD8, 0xE6), (0xE8, 0xEF), (0xF1, 0xFE)]
  | 0xF3 => [(0x10, 0x12), (0x16, 0x16), (0x51, 0x53), (0x58, 0x5F), (0x6F, 0x70), (0x7E, 0x7F),
      (0xC2, 0xC2), (0xE6, 0xE6)]
  | 0xF2 => [(0x10, 0x12), (0x51, 0x51), (0x58, 0x5A), (0x5C, 0x5F), (0x70, 0x70), (0x7C, 0x7D),
      (0xC2, 0xC2), (0xD0, 0xD0), (0xE6, 0xE6)]
  | _ => []

/-- Is this the code of an instruction on two vector registers? -/
def isVector (c : SseCode) : Bool :=
  match c.opcode with
  | [0x0F, op] => inRanges (vectorRows c.mandatory) op
  | [0x0F, 0x38, op] => c.mandatory == 0x66 &&
      inRanges [(0x00, 0x0B), (0x10, 0x10), (0x14, 0x15), (0x17, 0x17), (0x1C, 0x1E), (0x20, 0x25),
        (0x28, 0x29), (0x2B, 0x2B), (0x30, 0x35), (0x37, 0x41), (0xDB, 0xDF)] op
  | [0x0F, 0x3A, op] => c.mandatory == 0x66 &&
      inRanges [(0x08, 0x0F), (0x21, 0x21), (0x40, 0x42), (0x44, 0x44), (0x60, 0x63), (0xDF, 0xDF)] op
  | _ => false

/-- Does an immediate follow the operands? -/
def hasImmediate (c : SseCode) : Bool :=
  match c.opcode with
  | [0x0F, op] => op == 0x70 || op == 0xC2 || op == 0xC6
  | [0x0F, 0x3A, _] => true
  | _ => false

end SseCode

/-- Float arithmetic, in the `ss` and `ps` forms. -/
inductive FloatArith
  | add | mul | sub | min | div | max
  deriving DecidableEq, Repr, Inhabited

def FloatArith.code : FloatArith → UInt8
  | .add => 0x58 | .mul => 0x59 | .sub => 0x5C | .min => 0x5D | .div => 0x5E | .max => 0x5F

/-- The vector instructions that the code generator chooses from. -/
inductive SseOp
  /-- Float arithmetic on the low lane. -/
  | scalar (op : FloatArith)
  /-- Float arithmetic on four lanes. -/
  | packed (op : FloatArith)
  | sqrtss | sqrtps | rcpss | rcpps | rsqrtss | rsqrtps | roundss | roundps
  | paddb | paddw | paddd | paddq | psubb | psubw | psubd | psubq | pmullw | pmulld
  | pmulhw | pmulhuw | pavgb | pavgw
  | paddsb | paddsw | paddusb | paddusw | psubsb | psubsw | psubusb | psubusw
  | packsswb | packssdw | packuswb | packusdw
  | pand | pandn | por | pxor
  | pcmpeqb | pcmpeqw | pcmpeqd | pcmpgtb | pcmpgtw | pcmpgtd
  | cmpps | ucomiss | cvtdq2ps | cvttps2dq
  deriving DecidableEq, Repr, Inhabited

namespace SseOp

def code : SseOp → SseCode
  | .scalar op => ⟨0xF3, [0x0F, op.code]⟩
  | .packed op => ⟨0, [0x0F, op.code]⟩
  | .sqrtss => ⟨0xF3, [0x0F, 0x51]⟩ | .sqrtps => ⟨0, [0x0F, 0x51]⟩
  | .rsqrtss => ⟨0xF3, [0x0F, 0x52]⟩ | .rsqrtps => ⟨0, [0x0F, 0x52]⟩
  | .rcpss => ⟨0xF3, [0x0F, 0x53]⟩ | .rcpps => ⟨0, [0x0F, 0x53]⟩
  | .roundps => ⟨0x66, [0x0F, 0x3A, 0x08]⟩ | .roundss => ⟨0x66, [0x0F, 0x3A, 0x0A]⟩
  | .paddb => ⟨0x66, [0x0F, 0xFC]⟩ | .paddw => ⟨0x66, [0x0F, 0xFD]⟩
  | .paddd => ⟨0x66, [0x0F, 0xFE]⟩ | .paddq => ⟨0x66, [0x0F, 0xD4]⟩
  | .psubb => ⟨0x66, [0x0F, 0xF8]⟩ | .psubw => ⟨0x66, [0x0F, 0xF9]⟩
  | .psubd => ⟨0x66, [0x0F, 0xFA]⟩ | .psubq => ⟨0x66, [0x0F, 0xFB]⟩
  | .pmullw => ⟨0x66, [0x0F, 0xD5]⟩ | .pmulld => ⟨0x66, [0x0F, 0x38, 0x40]⟩
  | .pmulhuw => ⟨0x66, [0x0F, 0xE4]⟩ | .pmulhw => ⟨0x66, [0x0F, 0xE5]⟩
  | .pavgb => ⟨0x66, [0x0F, 0xE0]⟩ | .pavgw => ⟨0x66, [0x0F, 0xE3]⟩
  | .paddsb => ⟨0x66, [0x0F, 0xEC]⟩ | .paddsw => ⟨0x66, [0x0F, 0xED]⟩
  | .paddusb => ⟨0x66, [0x0F, 0xDC]⟩ | .paddusw => ⟨0x66, [0x0F, 0xDD]⟩
  | .psubsb => ⟨0x66, [0x0F, 0xE8]⟩ | .psubsw => ⟨0x66, [0x0F, 0xE9]⟩
  | .psubusb => ⟨0x66, [0x0F, 0xD8]⟩ | .psubusw => ⟨0x66, [0x0F, 0xD9]⟩
  | .packsswb => ⟨0x66, [0x0F, 0x63]⟩ | .packssdw => ⟨0x66, [0x0F, 0x6B]⟩
  | .packuswb => ⟨0x66, [0x0F, 0x67]⟩ | .packusdw => ⟨0x66, [0x0F, 0x38, 0x2B]⟩
  | .pand => ⟨0x66, [0x0F, 0xDB]⟩ | .pandn => ⟨0x66, [0x0F, 0xDF]⟩
  | .por => ⟨0x66, [0x0F, 0xEB]⟩ | .pxor => ⟨0x66, [0x0F, 0xEF]⟩
  | .pcmpeqb => ⟨0x66, [0x0F, 0x74]⟩ | .pcmpeqw => ⟨0x66, [0x0F, 0x75]⟩
  | .pcmpeqd => ⟨0x66, [0x0F, 0x76]⟩
  | .pcmpgtb => ⟨0x66, [0x0F, 0x64]⟩ | .pcmpgtw => ⟨0x66, [0x0F, 0x65]⟩
  | .pcmpgtd => ⟨0x66, [0x0F, 0x66]⟩
  | .cmpps => ⟨0, [0x0F, 0xC2]⟩ | .ucomiss => ⟨0, [0x0F, 0x2E]⟩
  | .cvtdq2ps => ⟨0, [0x0F, 0x5B]⟩ | .cvttps2dq => ⟨0xF3, [0x0F, 0x5B]⟩

/-- Every vector instruction. -/
def all : List SseOp :=
  [.add, .mul, .sub, .min, .div, .max].map scalar ++ [.add, .mul, .sub, .min, .div, .max].map packed ++
  [.sqrtss, .sqrtps, .rcpss, .rcpps, .rsqrtss, .rsqrtps, .roundss, .roundps,
   .paddb, .paddw, .paddd, .paddq, .psubb, .psubw, .psubd, .psubq, .pmullw, .pmulld,
   .pmulhw, .pmulhuw, .pavgb, .pavgw,
   .paddsb, .paddsw, .paddusb, .paddusw, .psubsb, .psubsw, .psubusb, .psubusw,
   .packsswb, .packssdw, .packuswb, .packusdw, .pand, .pandn, .por, .pxor,
   .pcmpeqb, .pcmpeqw, .pcmpeqd, .pcmpgtb, .pcmpgtw, .pcmpgtd,
   .cmpps, .ucomiss, .cvtdq2ps, .cvttps2dq]

def ofCode? (c : SseCode) : Option SseOp := all.find? (·.code == c)

/-- Exists only from SSE4.1 on. -/
def needsSse41 : SseOp → Bool
  | .pmulld | .roundss | .roundps | .packusdw => true
  | _ => false

end SseOp

end SsaJit.X86
