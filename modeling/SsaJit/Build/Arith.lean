import SsaJit.Build.Handle

/-! Arithmetic, comparison and conversion of program values. The class of the operands' type picks the
instruction. Integer division replaces the divisors that would stop the program, so that

* `x / 0 = x` and `x % 0 = 0`,
* for the least number `MIN`, `MIN / -1 = MIN` and `MIN % -1 = 0`. -/

namespace SsaJit.Build

/-- The instruction of an operation on each class of numbers, where it has one. -/
structure Choice where
  signed : Op
  unsigned : Op
  float : Option Op := none
  deriving Repr

namespace Choice

def add : Choice := ⟨.add, .add, some .fadd⟩
def sub : Choice := ⟨.sub, .sub, some .fsub⟩
def mul : Choice := ⟨.mul, .mul, some .fmul⟩
def div : Choice := ⟨.sdiv, .udiv, some .fdiv⟩
def rem : Choice := ⟨.srem, .urem, none⟩
def and : Choice := ⟨.and, .and, none⟩
def or : Choice := ⟨.or, .or, none⟩
def xor : Choice := ⟨.xor, .xor, none⟩
def shl : Choice := ⟨.shl, .shl, none⟩
def shr : Choice := ⟨.ashr, .lshr, none⟩

/-- The instruction for a class. -/
def pick (c : Choice) (k : NumClass) : Outcome Op :=
  match k with
  | .signed => .ok c.signed
  | .unsigned | .bool => .ok c.unsigned
  | .float =>
    match c.float with
    | some op => .ok op
    | none => .refuse (.undefinedOn k.name)
  | .pointer => .refuse (.undefinedOn k.name)

end Choice

/-- How two values are compared. -/
inductive Relation
  | eq | ne | lt | le | gt | ge
  deriving DecidableEq, Repr

namespace Relation

/-- The predicate of a relation between scalars. Floats that cannot be ordered are unequal, and no
other relation holds between them. -/
def predicate : Relation → NumClass → Predicate
  | .eq, .float => .oeq | .ne, .float => .une | .lt, .float => .olt | .le, .float => .ole
  | .gt, .float => .ogt | .ge, .float => .oge
  | .eq, _ => .eq | .ne, _ => .ne
  | .lt, .signed => .slt | .le, .signed => .sle | .gt, .signed => .sgt | .ge, .signed => .sge
  | .lt, _ => .ult | .le, _ => .ule | .gt, _ => .ugt | .ge, _ => .uge

/-- The negation of an order. -/
def denied : Relation → Relation
  | .eq => .ne | .ne => .eq | .lt => .ge | .le => .gt | .gt => .le | .ge => .lt

/-- The predicate of a denied order: on floats it holds also when a lane is NaN. -/
def deniedPredicate (r : Relation) (k : NumClass) : Predicate :=
  match r, k with
  | .lt, .float => .fuge
  | .le, .float => .fugt
  | _, _ => r.denied.predicate k

end Relation

namespace BuildM

/-- A binary operation by its choice of instruction. -/
def arith (c : Choice) (x y : Handle) : BuildM Handle := do
  let s ← sessionOf [x, y]
  let op ← lift (c.pick x.type.numClass)
  into s x.type (binary op x.operand y.operand)

/-- The divisor, or one where dividing by it would stop the program. -/
def safeDivisor (t : Ty) (a b : Operand) (signed : Bool) : BuildM Operand := do
  let zero ← constNull t
  let isZero ← icmp .eq b zero
  let bad ←
    if signed then do
      let least ← constSplat t (1 <<< UInt64.ofNat (t.elemKind.bits - 1))
      let isLeast ← icmp .eq a least
      let ones ← constAllOnes t
      let isMinusOne ← icmp .eq b ones
      let overflow ← binary .and isLeast isMinusOne
      binary .or isZero overflow
    else pure isZero
  let one ← constSplat t 1
  select bad one b

def guardedDivision (c : Choice) (x y : Handle) : BuildM Handle := do
  let s ← sessionOf [x, y]
  let k := x.type.numClass
  into s x.type do
    let d ← safeDivisor y.type.ty x.operand y.operand (k == .signed)
    let op ← lift (c.pick k)
    binary op x.operand d

def divide (x y : Handle) : BuildM Handle :=
  if x.type.isFloat then arith .div x y else guardedDivision .div x y

def remainder (x y : Handle) : BuildM Handle := guardedDivision .rem x y

def neg (x : Handle) : BuildM Handle := do
  let s ← sessionOf [x]
  into s x.type (if x.type.isFloat then unary .fneg x.operand else negate x.operand)

/-- One of two operands: by a float instruction, or by a comparison and a selection. -/
def extremum (float : Op) (r : Relation) (x y : Handle) : BuildM Handle := do
  let s ← sessionOf [x, y]
  into s x.type do
    if x.type.isFloat then binary float x.operand y.operand
    else
      let first ← icmp (r.predicate x.type.numClass) x.operand y.operand
      select first x.operand y.operand

def least (x y : Handle) : BuildM Handle := extremum .fmin .lt x y
def greatest (x y : Handle) : BuildM Handle := extremum .fmax .gt x y

/-- The integer type of a float type's bits. -/
def floatBits (t : Ty) : BuildM Ty :=
  if t.isVector then lift (Ty.vector? .i32 t.numLanes) else pure .i32

/-- A float without its sign. -/
def clearSign (t : Ty) (x : Operand) : BuildM Operand := do
  let it ← floatBits t
  let bits ← cast .bitcast x it
  let magnitude ← constSplat it 0x7FFFFFFF
  let bits ← binary .and bits magnitude
  cast .bitcast bits t

/-- The absolute value; the least signed number is its own. -/
def absolute (x : Handle) : BuildM Handle := do
  let s ← sessionOf [x]
  let t := x.type.ty
  match x.type.numClass with
  | .float => into s x.type (clearSign t x.operand)
  | .signed => into s x.type do
    let zero ← constNull t
    let negative ← icmp .slt x.operand zero
    let opposite ← negate x.operand
    select negative opposite x.operand
  | _ => return x

def bitNot (x : Handle) : BuildM Handle := do
  let s ← sessionOf [x]
  into s x.type (complement x.operand)

/-- Shift by a constant. -/
def shiftBy (c : Choice) (x : Handle) (n : UInt64) : BuildM Handle := do
  let s ← sessionOf [x]
  let count ← into s x.type (constSplat x.type.ty n)
  arith c x count

/-- One of two values by a condition. -/
def choose (cond x y : Handle) : BuildM Handle := do
  let s ← sessionOf [cond, x, y]
  into s x.type (select cond.operand x.operand y.operand)

/-- A comparison whose result has the type `t`. -/
def compareAs (t : SType) (p : Predicate) (x y : Handle) : BuildM Handle := do
  let s ← sessionOf [x, y]
  into s t ((if x.type.isFloat then fcmp else icmp) p x.operand y.operand)

/-- Compare scalars. -/
def compare (r : Relation) (x y : Handle) : BuildM Handle :=
  compareAs .bool (r.predicate x.type.numClass) x y

/-! ## Conversion -/

/-- The value of a number in another type. Integers are cut or extended by the sign of the source,
floats are cut towards zero, and a truth value is one where the number is not zero. -/
def convert (dest : SType) (x : Handle) : BuildM Handle := do
  let s ← sessionOf [x]
  let v := x.operand
  let t := x.type.ty
  let source := x.type.numClass
  let target := dest.numClass
  if t.numLanes ≠ dest.ty.numLanes then refuse (.conversion t dest.ty)
  let isNot (compare : Predicate → Operand → Operand → BuildM Operand) (p : Predicate) := do
    let zero ← constNull t
    compare p v zero
  let byCast (op : Op) := into s dest (cast op v dest.ty)
  if t = dest.ty ∧ source ≠ .pointer then rewrap dest x
  else if target = .bool ∧ source = .float then into s dest (isNot fcmp .une)
  else if target = .bool then into s dest (isNot icmp .ne)
  else if source = .float ∧ target = .float then rewrap dest x
  else if source = .float ∧ target = .signed then byCast .fptosi
  else if source = .float then byCast .fptoui
  else if target = .float ∧ source = .signed then byCast .sitofp
  else if target = .float then byCast .uitofp
  else if source = .pointer ∨ target = .pointer then refuse .pointerConversion
  else if dest.ty.elemKind.size < t.elemKind.size then byCast .trunc
  else if t.elemKind.size = dest.ty.elemKind.size then rewrap dest x
  else if source = .signed then byCast .sext
  else byCast .zext

/-- The same bits in another type of the same size. -/
def bitcast (dest : SType) (x : Handle) : BuildM Handle := do
  let s ← sessionOf [x]
  if x.type.ty = dest.ty then rewrap dest x
  else
    if x.type.ty.size ≠ dest.ty.size then refuse (.bitcastSize x.type.ty dest.ty)
    into s dest (cast .bitcast x.operand dest.ty)

end BuildM

end SsaJit.Build
