import SsaJit.Word

/-! Single-precision arithmetic on bit patterns. A finite pattern stands for a whole number of units
of 2^-149, so every operation computes an exact ratio of such numbers and rounds it once, to the
nearest pattern and to the even one of two. A NaN operand is returned with its quiet bit set, the
first one if both are NaN; an operation without a value gives the default NaN. -/

namespace SsaJit

/-- A single-precision bit pattern. -/
structure Single where
  bits : UInt32
  deriving DecidableEq, Repr, Inhabited

namespace Single

/-- The pattern in the low half of a word. -/
def ofWord (w : UInt64) : Single := ⟨w.toUInt32⟩

def toWord (x : Single) : UInt64 := x.bits.toUInt64

/-- The pattern without its sign, as a number. It grows with the magnitude. -/
def magnitude (x : Single) : Nat := x.bits.toNat % 0x80000000

def isNegative (x : Single) : Bool := 0x80000000 ≤ x.bits.toNat

/-- The magnitude pattern of infinity; greater ones are NaNs. -/
def infMagnitude : Nat := 0x7F800000

def isNaN (x : Single) : Bool := infMagnitude < x.magnitude
def isInf (x : Single) : Bool := x.magnitude == infMagnitude
def isZero (x : Single) : Bool := x.magnitude == 0

/-- A pattern from a sign and a magnitude pattern. -/
def ofParts (negative : Bool) (magnitude : Nat) : Single :=
  ⟨UInt32.ofNat (magnitude % 0x80000000 + if negative then 0x80000000 else 0)⟩

/-- What an operation without a value gives. -/
def defaultNaN : Single := ⟨0xFFC00000⟩

def quiet (x : Single) : Single := ⟨x.bits ||| 0x400000⟩

/-- Flip the sign bit, also of a NaN. -/
def neg (x : Single) : Single := ⟨x.bits ^^^ 0x80000000⟩

/-- The magnitude of a finite pattern in units of 2^-149. -/
def units (x : Single) : Nat :=
  let e := x.magnitude / 0x800000
  if e = 0 then x.magnitude
  else (x.magnitude % 0x800000 + 0x800000) <<< (e - 1)

/-- Units in the number one. -/
def one : Nat := 1 <<< 149

/-- The quotient rounded to the nearest whole number, a half to the even one. -/
def roundQuotient (num den : Nat) : Nat :=
  let q := num / den
  let r := num % den
  if den < 2 * r ∨ (2 * r = den ∧ q % 2 = 1) then q + 1 else q

/-- The magnitude pattern nearest to `num / den` units. With `s` the excess of the quotient's length
over 24 bits, significands are multiples of `2 ^ s`, and the pattern is linear in them. -/
def roundRatio (num den : Nat) : Nat :=
  let s := (num / den).log2 - 23
  min (s * 0x800000 + roundQuotient num (den <<< s)) infMagnitude

/-- The nearest single to a signed number of units over a denominator; zero takes the given sign. -/
def ofUnits (zeroSign : Bool) (num : Int) (den : Nat) : Single :=
  if num = 0 then ofParts zeroSign 0
  else ofParts (num < 0) (roundRatio num.natAbs den)

/-- The signed units of a finite pattern. -/
def signedUnits (x : Single) : Int := if x.isNegative then -(x.units : Int) else x.units

/-- The result a NaN operand forces, if there is one. -/
def nanOf (x y : Single) : Option Single :=
  if x.isNaN then some x.quiet else if y.isNaN then some y.quiet else none

def add (x y : Single) : Single :=
  match nanOf x y with
  | some r => r
  | none =>
    if x.isInf then
      if y.isInf ∧ x.isNegative ≠ y.isNegative then defaultNaN else x
    else if y.isInf then y
    else ofUnits (x.isNegative && y.isNegative) (x.signedUnits + y.signedUnits) 1

def sub (x y : Single) : Single :=
  match nanOf x y with
  | some r => r
  | none => add x y.neg

def mul (x y : Single) : Single :=
  match nanOf x y with
  | some r => r
  | none =>
    let negative := x.isNegative != y.isNegative
    if x.isInf ∨ y.isInf then
      if x.isZero ∨ y.isZero then defaultNaN else ofParts negative infMagnitude
    else ofParts negative (roundRatio (x.units * y.units) one)

def div (x y : Single) : Single :=
  match nanOf x y with
  | some r => r
  | none =>
    let negative := x.isNegative != y.isNegative
    if x.isInf then
      if y.isInf then defaultNaN else ofParts negative infMagnitude
    else if y.isInf then ofParts negative 0
    else if y.isZero then
      if x.isZero then defaultNaN else ofParts negative infMagnitude
    else ofParts negative (roundRatio (x.units * one) y.units)

/-- The place of a pattern that is no NaN on the number line. Both zeros are at 0. -/
def rank (x : Single) : Int := if x.isNegative then -(x.magnitude : Int) else x.magnitude

def unordered (x y : Single) : Bool := x.isNaN || y.isNaN
def lt (x y : Single) : Bool := !unordered x y && x.rank < y.rank
def le (x y : Single) : Bool := !unordered x y && x.rank ≤ y.rank
def eq (x y : Single) : Bool := !unordered x y && x.rank == y.rank

/-- The lesser operand; the second one if they compare equal or do not compare. -/
def min (x y : Single) : Single := if lt x y then x else y

/-- The greater operand; the second one if they compare equal or do not compare. -/
def max (x y : Single) : Single := if lt y x then x else y

/-- One step of the search for the root of `n`: halve an interval that holds it. -/
def rootSearch (n : Nat) : Nat → Nat → Nat → Nat
  | 0, lo, _ => lo
  | fuel + 1, lo, hi =>
    if hi ≤ lo + 1 then lo
    else
      let mid := (lo + hi) / 2
      if mid * mid ≤ n then rootSearch n fuel mid hi else rootSearch n fuel lo mid

/-- The greatest number whose square is at most `n`. -/
def natSqrt (n : Nat) : Nat :=
  rootSearch n (n.log2 + 2) 0 (1 <<< (n.log2 / 2 + 1))

/-- The square root. The root of the scaled number has at least 74 bits, so a last bit for the
remainder decides every rounding. -/
def sqrt (x : Single) : Single :=
  if x.isNaN then x.quiet
  else if x.isZero then x
  else if x.isNegative then defaultNaN
  else if x.isInf then x
  else
    let n := x.units * one
    let r := natSqrt n
    ofParts false (roundRatio (2 * r + if r * r = n then 0 else 1) 2)

/-- The nearest single to a whole number. -/
def ofInt (n : Int) : Single := ofUnits false (n * one) 1

/-- The whole number a finite pattern has without its fraction. -/
def truncate (x : Single) : Int :=
  let n : Nat := x.units / one
  if x.isNegative then -(n : Int) else n

/-- Is the pattern a number whose whole part is below `2 ^ n` in magnitude? -/
def fits (n : Nat) (x : Single) : Bool := !x.isNaN && !x.isInf && x.units < one <<< n

/-- The nearest whole number, a half to the even one; the sign is kept, also of zero. -/
def roundToInt (x : Single) : Single :=
  if x.isNaN then x.quiet
  else if x.isInf then x
  else ofParts x.isNegative (roundRatio (roundQuotient x.units one * one) 1)

end Single

end SsaJit
