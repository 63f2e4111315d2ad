/-! Machine words as byte strings and as text. A word is a 64-bit pattern; memory holds it least
significant byte first, and reports write it in lower-case hexadecimal without padding. -/

namespace SsaJit

/-- The low `n` bytes of a word, least significant first. -/
def leBytes : Nat → UInt64 → List UInt8
  | 0, _ => []
  | n + 1, w => w.toUInt8 :: leBytes n (w >>> 8)

/-- The word whose bytes, least significant first, are given; bytes past the eighth are dropped. -/
def ofLeBytes : List UInt8 → UInt64
  | [] => 0
  | b :: rest => b.toUInt64 ||| (ofLeBytes rest <<< 8)

@[simp] theorem length_leBytes (n : Nat) (w : UInt64) : (leBytes n w).length = n := by
  induction n generalizing w with
  | zero => rfl
  | succ n ih => simp [leBytes, ih]

/-- Lower-case hexadecimal digits of a number, at least one. -/
def hexDigits (n : Nat) : String := String.ofList (Nat.toDigits 16 n)

/-- Upper-case hexadecimal digits of a number, at least one. -/
def upperHexDigits (n : Nat) : String := (hexDigits n).toUpper

/-- A word as `0x…`. -/
def hexWord (w : UInt64) : String := "0x" ++ hexDigits w.toNat

/-- The decimal text of an integer. -/
def decimal (n : Int) : String :=
  match n with
  | .ofNat k => String.ofList (Nat.toDigits 10 k)
  | .negSucc k => "-" ++ String.ofList (Nat.toDigits 10 (k + 1))

/-- One byte as two upper-case hexadecimal digits. -/
def upperHexByte (b : UInt8) : String :=
  upperHexDigits (b.toNat / 16) ++ upperHexDigits (b.toNat % 16)

/-- Texts joined by a separator. -/
def joinWith (sep : String) (xs : List String) : String := sep.intercalate xs

end SsaJit
