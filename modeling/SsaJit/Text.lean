import SsaJit.Word

/-! Text in double quotes for messages. A quote and a backslash get a backslash, the usual control
characters their letter escapes, other characters that show nothing their code; all else stands as
it is. -/

namespace SsaJit.Text

/-- Ranges of characters beyond ASCII that have no visible form of their own: controls, blanks,
format characters and private use. -/
def invisibleRanges : List (Nat × Nat) :=
  [(0x7F, 0xA0), (0xAD, 0xAD), (0x600, 0x605), (0x61C, 0x61C), (0x6DD, 0x6DD), (0x70F, 0x70F),
   (0x1680, 0x1680), (0x180E, 0x180E), (0x2000, 0x200F), (0x2028, 0x202F), (0x205F, 0x206F),
   (0x3000, 0x3000), (0xE000, 0xF8FF), (0xFEFF, 0xFEFF), (0xFFF0, 0xFFFB), (0xE0000, 0x10FFFF)]

def isVisible (c : Char) : Bool :=
  0x20 ≤ c.toNat && !(invisibleRanges.any fun (lo, hi) => lo ≤ c.toNat && c.toNat ≤ hi)

/-- A number in lower-case hexadecimal, padded with zeros to `width` digits. -/
def paddedHex (width n : Nat) : String :=
  let digits := hexDigits n
  String.ofList (List.replicate (width - digits.length) '0') ++ digits

/-- A character as it stands between the quotes. -/
def quotedChar (c : Char) : String :=
  if c = '"' then "\\\""
  else if c = '\\' then "\\\\"
  else if isVisible c then c.toString
  else match c.toNat with
    | 7 => "\\a"
    | 8 => "\\b"
    | 9 => "\\t"
    | 10 => "\\n"
    | 11 => "\\v"
    | 12 => "\\f"
    | 13 => "\\r"
    | n =>
      if n < 0x80 then "\\x" ++ paddedHex 2 n
      else if n < 0x10000 then "\\u" ++ paddedHex 4 n
      else "\\U" ++ paddedHex 8 n

/-- The text in double quotes. -/
def quoted (s : String) : String :=
  "\"" ++ String.join (s.toList.map quotedChar) ++ "\""

/-! ## Lower case

Lower case of the letters that have one at a fixed distance. Every letter whose lower case is an
ASCII letter is covered, together with the Latin, Greek and Cyrillic alphabets. -/

/-- The lower case of a letter; any other character is its own. -/
def lowerChar (c : Char) : Char :=
  let n := c.toNat
  let between (lo hi : Nat) : Bool := lo ≤ n && n ≤ hi
  if between 0x41 0x5A then Char.ofNat (n + 32)
  else if n == 0x130 then 'i'
  else if n == 0x178 then Char.ofNat 0xFF
  else if n == 0x212A then 'k'
  else if n == 0x212B then Char.ofNat 0xE5
  else if between 0xC0 0xDE && n != 0xD7 then Char.ofNat (n + 32)
  else if (between 0x100 0x136 || between 0x14A 0x176) && n % 2 == 0 then Char.ofNat (n + 1)
  else if (between 0x139 0x147 || between 0x179 0x17D) && n % 2 == 1 then Char.ofNat (n + 1)
  else if between 0x391 0x3AB && n != 0x3A2 then Char.ofNat (n + 32)
  else if between 0x400 0x40F then Char.ofNat (n + 80)
  else if between 0x410 0x42F then Char.ofNat (n + 32)
  else if between 0x460 0x480 && n % 2 == 0 then Char.ofNat (n + 1)
  else c

/-- A text with every letter in lower case. -/
def lower (s : String) : String := String.ofList (s.toList.map lowerChar)

end SsaJit.Text
