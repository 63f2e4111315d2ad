import SsaJit.Single

/-! Numbers as LLVM assembly writes them: integers in decimal unless they look like a bit pattern,
floats in decimal if a short one is exact and else as the pattern of the double. -/

namespace SsaJit.Llvm

/-! ## Integers -/

/-- How many different characters a text has. -/
def distinct (cs : List Char) : Nat := cs.eraseDups.length

/-- The least diversity that hexadecimal digits of a bit pattern have, by their number. -/
def patternDiversity (digits : Nat) : Float :=
  if digits ≤ 6 then 2.0 / digits.toFloat
  else if digits ≤ 10 then 3.0 / digits.toFloat
  else 4.0 / (min digits 16).toFloat

/-- Does a number look like a bit pattern? Its hexadecimal digits repeat, its decimal ones do not. -/
def looksLikePattern (n : Nat) : Bool :=
  let hex := Nat.toDigits 16 n
  let dec := Nat.toDigits 10 n
  let h := (distinct hex).toFloat / (min 16 hex.length).toFloat
  let d := (distinct dec).toFloat / (min 10 dec.length).toFloat
  4096 ≤ n && h ≤ patternDiversity hex.length + 0.01 && d ≥ h + 0.2

def intText (n : Int) : String :=
  if 0 ≤ n ∧ looksLikePattern n.toNat then "u0x" ++ upperHexDigits n.toNat else decimal n

/-! ## Floats -/

/-- A decimal number: digits and the power of ten that the last one counts. -/
structure Decimal where
  digits : Nat
  exponent : Int
  deriving DecidableEq, Repr

/-- The number as a fraction of naturals. -/
def Decimal.fraction (d : Decimal) : Nat × Nat :=
  if 0 ≤ d.exponent then (d.digits * Nat.pow 10 d.exponent.toNat, 1)
  else (d.digits, Nat.pow 10 (-d.exponent).toNat)

/-- The magnitude pattern of the nearest single. -/
def Decimal.magnitude (d : Decimal) : Nat :=
  let (num, den) := d.fraction
  Single.roundRatio (num * Single.one) den

/-- Does the decimal stand for exactly the magnitude of a single? -/
def Decimal.isExact (d : Decimal) (x : Single) : Bool :=
  let (num, den) := d.fraction
  num * Single.one == x.units * den

/-- The power of ten of a number's first digit, for `num / den` above zero. -/
def leadingPower (num den : Nat) : Int :=
  if den ≤ num then (Nat.toDigits 10 (num / den)).length - 1
  else
    let up := (Nat.toDigits 10 (den / num)).length
    if den ≤ num * Nat.pow 10 (up - 1) then -(up - 1 : Nat) else -(up : Int)

/-- The two decimals of `n` digits around the magnitude of a single. -/
def neighbours (x : Single) (n : Nat) : List Decimal :=
  let e := leadingPower x.units Single.one - (n : Int) + 1
  let num := x.units * Nat.pow 10 (-e).toNat
  let den := Single.one * Nat.pow 10 e.toNat
  let low := num / den
  if num % den = 0 then [⟨low, e⟩]
  else if num % den * 2 ≤ den then [⟨low, e⟩, ⟨low + 1, e⟩]
  else [⟨low + 1, e⟩, ⟨low, e⟩]

/-- The first decimal in order of length that reads back as the single; nine digits always do. -/
def shortest (x : Single) : Option Decimal :=
  ((List.range 9).flatMap fun n => neighbours x (n + 1)).find? fun d => d.magnitude == x.magnitude

/-- A text with a point after the first digit, or `.0` if it has one only. -/
def pointed : List Char → String
  | [] => "0.0"
  | [c] => String.ofList [c] ++ ".0"
  | c :: rest => String.ofList (c :: '.' :: rest)

/-- Positional from ten-thousandths up to below a million, else with an exponent of two digits or
more; always with a point. -/
def decimalText (d : Decimal) : String :=
  let trimmed := (Nat.toDigits 10 d.digits).reverse.dropWhile (· == '0') |>.reverse
  let power := d.exponent + (Nat.toDigits 10 d.digits).length - 1
  if power < -4 ∨ 6 ≤ power then
    let e := decimal power.natAbs
    pointed trimmed ++ "e" ++ (if power < 0 then "-" else "+") ++ (if e.length < 2 then "0" else "") ++ e
  else if power < 0 then
    "0." ++ String.ofList (List.replicate (-power - 1).toNat '0' ++ trimmed)
  else
    let whole := power.toNat + 1
    let padded := trimmed ++ List.replicate (whole - trimmed.length) '0'
    let fraction := padded.drop whole
    String.ofList (padded.take whole ++ '.' :: if fraction.isEmpty then ['0'] else fraction)

/-- The pattern of the double that equals a finite single or infinity. Units count 2^-149, and the
leading one is not written. -/
def doublePattern (x : Single) : Nat :=
  let top := x.units.log2
  let tail := x.units - (1 <<< top)
  let magnitude :=
    if x.isInf then 0x7FF0000000000000
    else if x.units = 0 then 0
    else ((top + 1023 - 149) <<< 52) +
      if top ≤ 52 then tail <<< (52 - top) else tail >>> (top - 52)
  magnitude + if x.isNegative then 1 <<< 63 else 0

def singleText (x : Single) : String :=
  let sign := if x.isNegative then "-" else ""
  if x.isNaN then if x.isNegative then "0xFFF8000000000000" else "0x7FF8000000000000"
  else if x.isZero then sign ++ "0.0"
  else
    let hex := "0x" ++ upperHexDigits (doublePattern x)
    if x.isInf then hex
    else match shortest x with
      | some d => if d.isExact x then sign ++ decimalText d else hex
      | none => hex

end SsaJit.Llvm
