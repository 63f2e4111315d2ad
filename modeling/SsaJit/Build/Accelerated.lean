import SsaJit.Build.Lanes

/-! Operations that some processors have an instruction for. Where the session's processor has none,
the same result is put together from ordinary instructions. -/

namespace SsaJit.Build.BuildM

/-- Use the intrinsic if the processor has it on this type. -/
def orElseBuild (id : Intrinsic) (t : Ty) (args : List Operand) (portable : BuildM Operand) :
    BuildM Operand := do
  if (← get).cpu.supports id t then intrinsic id t args else portable

/-! ## Floats -/

/-- The pattern of one. -/
def oneBits : UInt64 := 0x3F800000

/-- The pattern of 2^23, from which on every float is an integer. -/
def integralBits : UInt64 := 0x4B000000

def squareRoot (x : Handle) : BuildM Handle := do
  let s ← sessionOf [x]
  into s x.type (unary .fsqrt x.operand)

/-- The reciprocal, approximate where the processor has an approximation. -/
def reciprocal (x : Handle) : BuildM Handle := do
  let s ← sessionOf [x]
  let t := x.type.ty
  into s x.type <| orElseBuild .rcp t [x.operand] do
    let one ← constSplat t oneBits
    binary .fdiv one x.operand

/-- The reciprocal of the square root, approximate where the processor has an approximation. -/
def reciprocalRoot (x : Handle) : BuildM Handle := do
  let s ← sessionOf [x]
  let t := x.type.ty
  into s x.type <| orElseBuild .rsqrt t [x.operand] do
    let one ← constSplat t oneBits
    let root ← unary .fsqrt x.operand
    binary .fdiv one root

/-- Rounding by adding and taking away 2^23: below it the addition rounds as wanted, from there on
there is nothing to round. The sign is put back last, so that minus zero stays. -/
def roundEven (t : Ty) (x : Operand) : BuildM Operand := do
  let it ← floatBits t
  let magnitude ← clearSign t x
  let integral ← constSplat t integralBits
  let sum ← binary .fadd magnitude integral
  let rounded ← binary .fsub sum integral
  let small ← fcmp .olt magnitude integral
  let rounded ← select small rounded magnitude
  let bits ← cast .bitcast x it
  let signBit ← constSplat it 0x80000000
  let sign ← binary .and bits signBit
  let bits ← cast .bitcast rounded it
  let bits ← binary .or bits sign
  cast .bitcast bits t

/-- The nearest integer, the even one of two. -/
def round (x : Handle) : BuildM Handle := do
  let s ← sessionOf [x]
  into s x.type (orElseBuild .round x.type.ty [x.operand] (roundEven x.type.ty x.operand))

/-! ## Saturation -/

/-- The result, or where the sign bit of `overflow` is set the bound on the side of `a`. -/
def saturateWhere (t : Ty) (a result overflow : Operand) : BuildM Operand := do
  let half := t.elemKind.bits - 1
  let zero ← constNull t
  let lo ← constSplat t (1 <<< UInt64.ofNat half)
  let hi ← constSplat t ((1 <<< UInt64.ofNat half) - 1)
  let negative ← icmp .slt a zero
  let bound ← select negative lo hi
  let overflows ← icmp .slt overflow zero
  select overflows bound result

/-- The sum, kept within the type. Signed sums overflow if both operands differ in sign from it. -/
def sumWithin (t : Ty) (signed : Bool) (a b : Operand) : BuildM Operand := do
  let sum ← binary .add a b
  if signed then
    let p ← binary .xor a sum
    let q ← binary .xor b sum
    let overflow ← binary .and p q
    saturateWhere t a sum overflow
  else
    let wrapped ← icmp .ult sum a
    let top ← constAllOnes t
    select wrapped top sum

/-- The difference, kept within the type. Signed differences overflow if the operands differ in sign
and the difference does from the first. -/
def differenceWithin (t : Ty) (signed : Bool) (a b : Operand) : BuildM Operand := do
  let difference ← binary .sub a b
  if signed then
    let p ← binary .xor a b
    let q ← binary .xor a difference
    let overflow ← binary .and p q
    saturateWhere t a difference overflow
  else
    let wrapped ← icmp .ult a b
    let bottom ← constNull t
    select wrapped bottom difference

def addSat (x y : Handle) : BuildM Handle := do
  let s ← sessionOf [x, y]
  let t := x.type.ty
  let a := x.operand
  let b := y.operand
  let id : Intrinsic := if x.type.isSigned then .addSatS else .addSatU
  into s x.type (orElseBuild id t [a, b] (sumWithin t x.type.isSigned a b))

def subSat (x y : Handle) : BuildM Handle := do
  let s ← sessionOf [x, y]
  let t := x.type.ty
  let a := x.operand
  let b := y.operand
  let id : Intrinsic := if x.type.isSigned then .subSatS else .subSatU
  into s x.type (orElseBuild id t [a, b] (differenceWithin t x.type.isSigned a b))

/-! ## Products and averages -/

/-- Multiply lanes of twice the width and keep the upper halves. -/
def wideProduct (t : Ty) (a b : Operand) (signed : Bool) : BuildM Operand := do
  let size := t.elemKind.size
  let wide ← lift do (Ty.ofKind (← Ty.intKindOfSize (2 * size))).withLanes t.numLanes
  let extend : Op := if signed then .sext else .zext
  let x ← cast extend a wide
  let y ← cast extend b wide
  let p ← binary .mul x y
  let count ← constSplat wide (UInt64.ofNat (8 * size))
  let p ← binary .lshr p count
  cast .trunc p t

/-- The upper halves of the products. Vectors too long to be widened at once are done by halves, at
most `splits` deep. -/
def highProduct (signed : Bool) : Nat → Ty → Operand → Operand → BuildM Operand
  | 0, t, a, b => wideProduct t a b signed
  | splits + 1, t, a, b => do
    if t.isVector ∧ Ty.maxVectorBytes < 2 * t.size then
      let n := t.numLanes / 2
      let half ← lift (t.withLanes n)
      let part (off : Nat) : BuildM Operand := do
        let x ← shuffleLanes a a (selectorsFrom off n)
        let y ← shuffleLanes b b (selectorsFrom off n)
        highProduct signed splits half x y
      let lo ← part 0
      let hi ← part n
      shuffleLanes lo hi (selectorsFrom 0 (2 * n))
    else wideProduct t a b signed

/-- The upper half of the product; lanes of eight bytes have none. -/
def mulHigh (x y : Handle) : BuildM Handle := do
  let s ← sessionOf [x, y]
  let t := x.type.ty
  let id : Intrinsic := if x.type.isSigned then .mulHighS else .mulHighU
  let args := [x.operand, y.operand]
  if (← get).cpu.supports id t then into s x.type (intrinsic id t args)
  else
    if 8 ≤ t.elemKind.size then refuse (.highMultiply t)
    into s x.type (highProduct x.type.isSigned t.numLanes t x.operand y.operand)

/-- The average rounded up, `(a | b) - ((a ^ b) >> 1)`, which cannot overflow. -/
def roundedMean (t : Ty) (signed : Bool) (a b : Operand) : BuildM Operand := do
  let one ← constSplat t 1
  let differing ← binary .xor a b
  let half ← binary (if signed then .ashr else .lshr) differing one
  let union ← binary .or a b
  binary .sub union half

def average (x y : Handle) : BuildM Handle := do
  let s ← sessionOf [x, y]
  let t := x.type.ty
  let a := x.operand
  let b := y.operand
  into s x.type do
    if !x.type.isSigned && (← get).cpu.supports .avgU t then intrinsic .avgU t [a, b]
    else roundedMean t x.type.isSigned a b

end SsaJit.Build.BuildM
