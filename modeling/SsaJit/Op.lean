import SsaJit.Word

/-! Operations, comparison predicates and target intrinsics. Each is an enumeration with a code,
a name and a few classes; `other` covers the codes that name nothing. -/

namespace SsaJit

/-- What a value computes. -/
inductive Op
  | invalid | param | const | globalAddr | add | sub | mul | sdiv | udiv | srem | urem
  | fadd | fsub | fmul | fdiv | fmin | fmax | fsqrt | fneg | and | or | xor | shl | lshr
  | ashr | icmp | fcmp | trunc | zext | sext | fptosi | fptoui | sitofp | uitofp | bitcast
  | ptrtoint | inttoptr | alloca | load | store | gep | extract | insert | shuffle | select
  | call | intrinsic | phi | copy
  | other (code : UInt8)
  deriving DecidableEq, Repr, Inhabited, Hashable

namespace Op

/-- The named operations in the order of their codes. -/
def named : List Op :=
  [.invalid, .param, .const, .globalAddr, .add, .sub, .mul, .sdiv, .udiv, .srem, .urem,
   .fadd, .fsub, .fmul, .fdiv, .fmin, .fmax, .fsqrt, .fneg, .and, .or, .xor, .shl, .lshr,
   .ashr, .icmp, .fcmp, .trunc, .zext, .sext, .fptosi, .fptoui, .sitofp, .uitofp, .bitcast,
   .ptrtoint, .inttoptr, .alloca, .load, .store, .gep, .extract, .insert, .shuffle,
   .select, .call, .intrinsic, .phi, .copy]

def ofCode (c : UInt8) : Op := (named[c.toNat]?).getD (.other c)

def name : Op → String
  | .invalid => "invalid" | .param => "param" | .const => "const"
  | .globalAddr => "globaladdr" | .add => "add" | .sub => "sub" | .mul => "mul"
  | .sdiv => "sdiv" | .udiv => "udiv" | .srem => "srem" | .urem => "urem" | .fadd => "fadd"
  | .fsub => "fsub" | .fmul => "fmul" | .fdiv => "fdiv" | .fmin => "fmin" | .fmax => "fmax"
  | .fsqrt => "fsqrt" | .fneg => "fneg" | .and => "and" | .or => "or" | .xor => "xor"
  | .shl => "shl" | .lshr => "lshr" | .ashr => "ashr" | .icmp => "icmp" | .fcmp => "fcmp"
  | .trunc => "trunc" | .zext => "zext" | .sext => "sext" | .fptosi => "fptosi"
  | .fptoui => "fptoui" | .sitofp => "sitofp" | .uitofp => "uitofp" | .bitcast => "bitcast"
  | .ptrtoint => "ptrtoint" | .inttoptr => "inttoptr" | .alloca => "alloca"
  | .load => "load" | .store => "store" | .gep => "gep" | .extract => "extractelement"
  | .insert => "insertelement" | .shuffle => "shufflevector" | .select => "select"
  | .call => "call" | .intrinsic => "intrinsic" | .phi => "phi" | .copy => "copy"
  | .other c => "op(" ++ decimal c.toNat ++ ")"

/-- Two operands of the result's own type. -/
def isBinary : Op → Bool
  | .add | .sub | .mul | .sdiv | .udiv | .srem | .urem
  | .fadd | .fsub | .fmul | .fdiv | .fmin | .fmax
  | .and | .or | .xor | .shl | .lshr | .ashr => true
  | _ => false

/-- The float operations among the binary ones. -/
def isFloatBinary : Op → Bool
  | .fadd | .fsub | .fmul | .fdiv | .fmin | .fmax => true
  | _ => false

def isCommutative : Op → Bool
  | .add | .mul | .and | .or | .xor | .fadd | .fmul => true
  | _ => false

def isCast : Op → Bool
  | .trunc | .zext | .sext | .fptosi | .fptoui | .sitofp | .uitofp
  | .bitcast | .ptrtoint | .inttoptr => true
  | _ => false

/-- Must run, and in order, even when nothing reads the result. -/
def hasSideEffects : Op → Bool
  | .store | .call => true
  | _ => false

/-- May stop the program, so it must not run where it did not run before. -/
def isTrapping : Op → Bool
  | .sdiv | .udiv | .srem | .urem => true
  | _ => false

end Op

/-- How two lanes are compared. The `f` forms of the unsigned names hold also when a lane is NaN. -/
inductive Predicate
  | eq | ne | slt | sle | sgt | sge | ult | ule | ugt | uge | oeq | one | olt | ole | ogt
  | oge | ord | uno | ueq | une | fult | fule | fugt | fuge
  | other (code : UInt8)
  deriving DecidableEq, Repr, Inhabited, Hashable

namespace Predicate

/-- The named predicates in the order of their codes. -/
def named : List Predicate :=
  [.eq, .ne, .slt, .sle, .sgt, .sge, .ult, .ule, .ugt, .uge, .oeq, .one, .olt, .ole, .ogt,
   .oge, .ord, .uno, .ueq, .une, .fult, .fule, .fugt, .fuge]

def ofCode (c : UInt8) : Predicate := (named[c.toNat]?).getD (.other c)

def code : Predicate → UInt8
  | .eq => 0 | .ne => 1 | .slt => 2 | .sle => 3 | .sgt => 4 | .sge => 5 | .ult => 6
  | .ule => 7 | .ugt => 8 | .uge => 9 | .oeq => 10 | .one => 11 | .olt => 12 | .ole => 13
  | .ogt => 14 | .oge => 15 | .ord => 16 | .uno => 17 | .ueq => 18 | .une => 19
  | .fult => 20 | .fule => 21 | .fugt => 22 | .fuge => 23
  | .other c => c

def name : Predicate → String
  | .eq => "eq" | .ne => "ne" | .slt => "slt" | .sle => "sle" | .sgt => "sgt"
  | .sge => "sge" | .ult => "ult" | .ule => "ule" | .ugt => "ugt" | .uge => "uge"
  | .oeq => "oeq" | .one => "one" | .olt => "olt" | .ole => "ole" | .ogt => "ogt"
  | .oge => "oge" | .ord => "ord" | .uno => "uno" | .ueq => "ueq" | .une => "une"
  | .fult => "ult" | .fule => "ule" | .fugt => "ugt" | .fuge => "uge"
  | .other c => "pred(" ++ decimal c.toNat ++ ")"

/-- Every code from the first ordered predicate on compares floats. -/
def isFloat (p : Predicate) : Bool := 10 ≤ p.code

def isSigned : Predicate → Bool
  | .slt | .sle | .sgt | .sge => true
  | _ => false

/-- The predicate that holds of the operands in the other order. -/
def swapped : Predicate → Predicate
  | .slt => .sgt | .sle => .sge | .sgt => .slt | .sge => .sle
  | .ult => .ugt | .ule => .uge | .ugt => .ult | .uge => .ule
  | .olt => .ogt | .ole => .oge | .ogt => .olt | .oge => .ole
  | .fult => .fugt | .fule => .fuge | .fugt => .fult | .fuge => .fule
  | p => p

end Predicate

/-- Operations that exist only where the processor has them. -/
inductive Intrinsic
  | none | addSatS | addSatU | subSatS | subSatU | mulHighS | mulHighU | avgU | rcp | rsqrt
  | round | packSS | packUS
  | other (code : UInt8)
  deriving DecidableEq, Repr, Inhabited, Hashable

namespace Intrinsic

/-- The named intrinsics in the order of their codes. -/
def named : List Intrinsic :=
  [.none, .addSatS, .addSatU, .subSatS, .subSatU, .mulHighS, .mulHighU, .avgU, .rcp,
   .rsqrt, .round, .packSS, .packUS]

def ofCode (c : UInt8) : Intrinsic := (named[c.toNat]?).getD (.other c)

def code : Intrinsic → UInt8
  | .none => 0 | .addSatS => 1 | .addSatU => 2 | .subSatS => 3 | .subSatU => 4
  | .mulHighS => 5 | .mulHighU => 6 | .avgU => 7 | .rcp => 8 | .rsqrt => 9 | .round => 10
  | .packSS => 11 | .packUS => 12
  | .other c => c

def name : Intrinsic → String
  | .none => "none" | .addSatS => "addsat.s" | .addSatU => "addsat.u"
  | .subSatS => "subsat.s" | .subSatU => "subsat.u" | .mulHighS => "mulhigh.s"
  | .mulHighU => "mulhigh.u" | .avgU => "avg.u" | .rcp => "rcp" | .rsqrt => "rsqrt"
  | .round => "round" | .packSS => "packss" | .packUS => "packus"
  | .other c => "intr(" ++ decimal c.toNat ++ ")"

end Intrinsic

end SsaJit
