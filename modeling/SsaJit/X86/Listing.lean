import SsaJit.X86.Assembler

/-! Instructions by mnemonic, as an assembler listing gives them. -/

namespace SsaJit.X86.Listing

/-- An operand as written. -/
inductive Arg
  | reg (r : Reg)
  /-- A number: a vector register, condition, label, count or signed immediate. -/
  | number (n : Int)
  | word (w : UInt64)
  | flag (b : Bool)
  | bytes (bs : List UInt8)
  | mem (m : Mem Label)
  deriving Repr

def Arg.byte (n : Int) : UInt8 := UInt8.ofNat (n % 256).toNat

/-- The condition of a number. -/
def Arg.cond (n : Int) : Cond := .ofCode (Fin.ofNat 16 (n % 16).toNat)

def aluNamed : String → Option Alu
  | "mov" => some .mov | "add" => some .add | "or" => some .or | "and" => some .and
  | "sub" => some .sub | "xor" => some .xor | "cmp" => some .cmp | "test" => some .test
  | _ => none

def oneRegister (mnemonic : String) (r : Reg) : Option (Instr Label) :=
  match mnemonic with
  | "not" => some (.unary .not r) | "neg" => some (.unary .neg r)
  | "div" => some (.unary .div r) | "idiv" => some (.unary .idiv r)
  | "shl_cl" => some (.shift .shl r) | "shr_cl" => some (.shift .shr r)
  | "sar_cl" => some (.shift .sar r)
  | "push" => some (.push r) | "pop" => some (.pop r) | "call" => some (.call r)
  | _ => none

def noOperand : String → Option (Instr Label)
  | "cqo" => some .cqo | "leave" => some .leave | "ret" => some .ret | "ud2" => some .ud2
  | _ => none

def onImmediate (mnemonic : String) (r : Reg) (n : Int32) : Option (Instr Label) :=
  match mnemonic with
  | "add_imm" => some (.aluImm .add r n) | "sub_imm" => some (.aluImm .sub r n)
  | "and_imm" => some (.aluImm .and r n) | "mov_imm32" => some (.movImm32 r n)
  | "shr_imm" => some (.shrImm r n.toUInt32.toUInt8)
  | _ => none

/-- The instruction of a mnemonic and its operands; `none` if there is no such line. -/
def instr? (mnemonic : String) (args : List Arg) : Option (Outcome (Instr Label)) :=
  match mnemonic, args with
  | "load", [.reg r, .mem m, .number n, .flag s] => some do return .load r m (← Access.ofSize n s)
  | "store", [.mem m, .reg r, .number n] => some do return .store m r (← Width.ofSize n)
  | "lea", [.reg r, .mem m] => some (.ok (.lea r m))
  | "mov_imm64", [.reg r, .word w] => some (.ok (.movImm64 r w))
  | "mov_imm", [.reg r, .word w] => some (.ok (.movImm r w))
  | "imul", [.reg d, .reg s] => some (.ok (.imul d s))
  | "movzx8", [.reg d, .reg s] => some (.ok (.movzx8 d s))
  | "imul_imm", [.reg d, .reg s, .number n] => some (.ok (.imulImm d s (.ofInt n)))
  | "setcc", [.number c, .reg r] => some (.ok (.setcc (Arg.cond c) r))
  | "cmov", [.number c, .reg d, .reg s] => some (.ok (.cmov (Arg.cond c) d s))
  | "jmp", [.number l] => some (.ok (.jmp l))
  | "jcc", [.number c, .number l] => some (.ok (.jcc (Arg.cond c) l))
  | "sse", [.word p, .bytes o, .number d, .number s] =>
    some (.ok (.sse ⟨p.toUInt8, o⟩ (.ofNumber d) (.ofNumber s) none))
  | "sse_imm", [.word p, .bytes o, .number d, .number s, .number i] =>
    some (.ok (.sse ⟨p.toUInt8, o⟩ (.ofNumber d) (.ofNumber s) (some (Arg.byte i))))
  | "movdqu_load", [.number x, .mem m] => some (.ok (.movdquLoad (.ofNumber x) m))
  | "movss_load", [.number x, .mem m] => some (.ok (.movssLoad (.ofNumber x) m))
  | "movdqu_store", [.mem m, .number x] => some (.ok (.movdquStore m (.ofNumber x)))
  | "movss_store", [.mem m, .number x] => some (.ok (.movssStore m (.ofNumber x)))
  | "movq_to_x", [.number x, .reg r] => some (.ok (.movqToX (.ofNumber x) r))
  | "movq_from_x", [.reg r, .number x] => some (.ok (.movqFromX r (.ofNumber x)))
  | "cvtsi2ss", [.number x, .reg r] => some (.ok (.cvtsi2ss (.ofNumber x) r))
  | "cvttss2si", [.reg r, .number x] => some (.ok (.cvttss2si r (.ofNumber x)))
  | "ucomiss", [.number x, .number y] =>
    some (.ok (.sse SseOp.ucomiss.code (.ofNumber x) (.ofNumber y) none))
  | "pxor", [.number x, .number y] =>
    some (.ok (.sse SseOp.pxor.code (.ofNumber x) (.ofNumber y) none))
  | "all_ones", [.number x] =>
    some (.ok (.sse SseOp.pcmpeqd.code (.ofNumber x) (.ofNumber x) none))
  | m, [] => (noOperand m).map .ok
  | m, [.reg r] => (oneRegister m r).map .ok
  | m, [.reg d, .reg s] => (aluNamed m).map fun op => .ok (.alu op d s)
  | m, [.reg r, .number n] => (onImmediate m r (.ofInt n)).map .ok
  | _, _ => none

/-- What a line of a listing shows. -/
inductive Shown
  | length (n : Nat)
  | label (l : Label)
  | code (bytes : Array UInt8)

/-- Assemble one line; the assembler stays as it is if the line fails. -/
def line (a : Assembler) (mnemonic : String) (args : List Arg) : Outcome (Assembler × Shown) := do
  let grown (a : Assembler) : Assembler × Shown := (a, .length a.length)
  match mnemonic, args with
  | "label", _ => let (a, l) := a.newLabel; return (a, .label l)
  | "finish", _ => return (a, .code (← a.finish))
  | "reset", _ => return grown {}
  | "bind", [.number l] => return grown (a.bind l)
  | "align", [.number n, .number fill] => return grown (← a.align n (Arg.byte fill))
  | "data", [.bytes bs] => return grown (a.data bs)
  | m, args =>
    match instr? m args with
    | some i => return grown (a.emit (← i))
    | none => .fail (.reported ("unknown instruction " ++ m))

end SsaJit.X86.Listing
