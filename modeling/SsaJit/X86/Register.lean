import SsaJit.Word

/-! Registers and condition codes, each with the four-bit number that instructions carry. Bit three
goes into the REX byte, the low three into ModRM. -/

namespace SsaJit.X86

/-- Numerals below sixteen are register numbers. -/
instance neZeroSixteen : @NeZero Nat Zero.ofOfNat0 16 := ⟨Nat.succ_ne_zero 15⟩

/-- General registers in the order of their numbers. -/
inductive Reg
  | rax | rcx | rdx | rbx | rsp | rbp | rsi | rdi
  | r8 | r9 | r10 | r11 | r12 | r13 | r14 | r15
  deriving DecidableEq, Repr, Inhabited

namespace Reg

def code : Reg → Fin 16
  | .rax => 0 | .rcx => 1 | .rdx => 2 | .rbx => 3 | .rsp => 4 | .rbp => 5 | .rsi => 6 | .rdi => 7
  | .r8 => 8 | .r9 => 9 | .r10 => 10 | .r11 => 11 | .r12 => 12 | .r13 => 13 | .r14 => 14
  | .r15 => 15

def ofCode (n : Fin 16) : Reg :=
  match n with
  | 0 => .rax | 1 => .rcx | 2 => .rdx | 3 => .rbx | 4 => .rsp | 5 => .rbp | 6 => .rsi | 7 => .rdi
  | 8 => .r8 | 9 => .r9 | 10 => .r10 | 11 => .r11 | 12 => .r12 | 13 => .r13 | 14 => .r14
  | _ => .r15

@[simp] theorem ofCode_code (r : Reg) : ofCode r.code = r := by cases r <;> rfl

/-- All registers in the order of their numbers. -/
def all : List Reg := (List.finRange 16).map ofCode

def name : Reg → String
  | .rax => "rax" | .rcx => "rcx" | .rdx => "rdx" | .rbx => "rbx" | .rsp => "rsp" | .rbp => "rbp"
  | .rsi => "rsi" | .rdi => "rdi" | .r8 => "r8" | .r9 => "r9" | .r10 => "r10" | .r11 => "r11"
  | .r12 => "r12" | .r13 => "r13" | .r14 => "r14" | .r15 => "r15"

/-- The register of a number, if it names one. -/
def ofNumber? (n : Int) : Option Reg :=
  if h : 0 ≤ n ∧ n < 16 then some (ofCode ⟨n.toNat, by omega⟩) else none

/-- The register of a name. -/
def ofName? (s : String) : Option Reg := all.find? (·.name == s)

/-- The name of a number, also of one that names no register. -/
def nameOfNumber (n : Int) : String := ((ofNumber? n).map name).getD "???"

end Reg

/-- Needs a REX byte. -/
def isExtended (n : Int) : Bool := 8 ≤ n ∧ n ≤ 15

/-- What ModRM carries of a register number. -/
def lowBits (n : Int) : Nat := (n % 8).toNat

/-- Vector registers by number. -/
abbrev XReg := Fin 16

/-- The vector register that an instruction with this number in its fields names. -/
def XReg.ofNumber (n : Int) : XReg :=
  ⟨lowBits n + (if 8 ≤ n then 8 else 0), by simp only [lowBits]; split <;> omega⟩

/-- The name of a vector register number. -/
def vectorName (n : Int) : String := "xmm" ++ decimal n

/-- Conditions on the flags in the order of their codes. -/
inductive Cond
  | o | no | b | ae | e | ne | be | a | s | ns | p | np | l | ge | le | g
  deriving DecidableEq, Repr, Inhabited

namespace Cond

def code : Cond → Fin 16
  | .o => 0 | .no => 1 | .b => 2 | .ae => 3 | .e => 4 | .ne => 5 | .be => 6 | .a => 7
  | .s => 8 | .ns => 9 | .p => 10 | .np => 11 | .l => 12 | .ge => 13 | .le => 14 | .g => 15

def ofCode (n : Fin 16) : Cond :=
  match n with
  | 0 => .o | 1 => .no | 2 => .b | 3 => .ae | 4 => .e | 5 => .ne | 6 => .be | 7 => .a
  | 8 => .s | 9 => .ns | 10 => .p | 11 => .np | 12 => .l | 13 => .ge | 14 => .le | _ => .g

@[simp] theorem ofCode_code (c : Cond) : ofCode c.code = c := by cases c <;> rfl

end Cond

end SsaJit.X86
