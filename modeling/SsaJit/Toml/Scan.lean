/-! Documents of keys and values in sections. Numbers and dates are kept as they are written: what they
mean is decided where they are used. -/

namespace SsaJit.Toml

/-- A dotted key. -/
abbrev Path := List String

/-- A value as it is written. -/
inductive Value
  | text (s : String)
  | integer (digits : List Char)
  | float (digits : List Char)
  | date (written : List Char)
  | bool (b : Bool)
  | array (items : List Value)
  | table (entries : List (Path × Value))
  deriving Inhabited

/-- One line of a document. -/
inductive Line
  | entry (key : Path) (value : Value)
  | header (key : Path)
  /-- A header that adds an element to a list. -/
  | element (key : Path)
  deriving Inhabited

/-! ## Scanning

The smallest parts of a document: blanks, comments, strings, keys, numbers and dates. A scanner
answers what it read and the rest, or nothing if the text is malformed. -/

abbrev Scan (α : Type) := List Char → Option (α × List Char)

def isBlank (c : Char) : Bool := c == ' ' || c == '\t'

def skipBlanks (cs : List Char) : List Char := cs.dropWhile isBlank

/-- Characters that text may hold as they are, line ends apart. -/
def isPlain (c : Char) : Bool := c == '\t' || (0x20 ≤ c.toNat && c.toNat != 0x7F)

/-- The text after a line end. -/
def skipNewline : List Char → Option (List Char)
  | '\n' :: r => some r
  | '\r' :: '\n' :: r => some r
  | _ => none

/-- The text from the end of the line on. -/
def skipComment : List Char → Option (List Char)
  | [] => some []
  | '\n' :: r => some ('\n' :: r)
  | '\r' :: '\n' :: r => some ('\n' :: r)
  | c :: r => if isPlain c then skipComment r else none

/-- Skip blanks, comments and line ends, at most `n` lines. -/
def skipLines : Nat → List Char → Option (List Char)
  | 0, cs => some cs
  | n + 1, cs => do
    let cs := skipBlanks cs
    let cs ← match cs with
      | '#' :: r => skipComment r
      | _ => some cs
    match cs with
    | '\n' :: _ | '\r' :: _ => skipLines n (← skipNewline cs)
    | _ => some cs

/-! ## Strings -/

def hexDigit? (c : Char) : Option Nat :=
  if '0' ≤ c ∧ c ≤ '9' then some (c.toNat - '0'.toNat)
  else if 'a' ≤ c ∧ c ≤ 'f' then some (c.toNat - 'a'.toNat + 10)
  else if 'A' ≤ c ∧ c ≤ 'F' then some (c.toNat - 'A'.toNat + 10)
  else none

/-- The character of a code in hexadecimal; not every number is the code of one. -/
def codePoint? (digits : List Char) : Option Char := do
  let n ← digits.foldlM (fun n c => do return n * 16 + (← hexDigit? c)) 0
  if n.isValidChar then some (Char.ofNat n) else none

/-- The character after a backslash. -/
def escape : Scan Char
  | '"' :: r => some ('"', r)
  | '\\' :: r => some ('\\', r)
  | 'b' :: r => some ('\x08', r)
  | 'f' :: r => some ('\x0c', r)
  | 'n' :: r => some ('\n', r)
  | 'r' :: r => some ('\r', r)
  | 't' :: r => some ('\t', r)
  | 'e' :: r => some ('\x1b', r)
  | 'u' :: r => if r.length < 4 then none else do return (← codePoint? (r.take 4), r.drop 4)
  | 'U' :: r => if r.length < 8 then none else do return (← codePoint? (r.take 8), r.drop 8)
  | _ => none

/-- The rest of a string in double quotes, of at most `n` characters. -/
def quotedBody : Nat → Scan (List Char)
  | 0, _ => none
  | _ + 1, [] => none
  | _ + 1, '"' :: r => some ([], r)
  | n + 1, '\\' :: r => do
    let (c, r) ← escape r
    let (cs, r) ← quotedBody n r
    return (c :: cs, r)
  | n + 1, c :: r =>
    if isPlain c then do
      let (cs, r) ← quotedBody n r
      return (c :: cs, r)
    else none

/-- The rest of a string in single quotes. -/
def literalBody : Scan (List Char)
  | [] => none
  | '\'' :: r => some ([], r)
  | c :: r =>
    if isPlain c then do
      let (cs, r) ← literalBody r
      return (c :: cs, r)
    else none

/-- After three quotes: up to two more belong to the text. -/
def closing (q : Char) (r : List Char) : Option (List Char × List Char) :=
  let more := (r.takeWhile (· == q)).length
  if 2 < more then none else some (List.replicate more q, r.drop more)

/-- A line end right after the opening quotes does not count. -/
def dropFirstNewline (cs : List Char) : List Char := (skipNewline cs).getD cs

/-- The rest of a string between three double quotes, of at most `n` characters. A backslash at the
end of a line takes the line end and all blanks after it away. -/
def longQuotedBody : Nat → Scan (List Char)
  | 0, _ => none
  | _ + 1, [] => none
  | _ + 1, '"' :: '"' :: '"' :: r => closing '"' r
  | n + 1, '\\' :: r =>
    match skipNewline (skipBlanks r) with
    | some r => longQuotedBody n (r.dropWhile fun c => isBlank c || c == '\n' || c == '\r')
    | none => do
      let (c, r) ← escape r
      let (cs, r) ← longQuotedBody n r
      return (c :: cs, r)
  | n + 1, '\r' :: '\n' :: r => do
    let (cs, r) ← longQuotedBody n r
    return ('\r' :: '\n' :: cs, r)
  | n + 1, c :: r =>
    if isPlain c || c == '\n' then do
      let (cs, r) ← longQuotedBody n r
      return (c :: cs, r)
    else none

/-- The rest of a string between three single quotes. -/
def longLiteralBody : Scan (List Char)
  | [] => none
  | '\'' :: '\'' :: '\'' :: r => closing '\'' r
  | '\r' :: '\n' :: r => do
    let (cs, r) ← longLiteralBody r
    return ('\r' :: '\n' :: cs, r)
  | c :: r =>
    if isPlain c || c == '\n' then do
      let (cs, r) ← longLiteralBody r
      return (c :: cs, r)
    else none

def asText (r : Option (List Char × List Char)) : Option (String × List Char) :=
  r.map fun (cs, rest) => (String.ofList cs, rest)

/-- A string on one line. -/
def shortString : Scan String
  | '"' :: r => asText (quotedBody (r.length + 1) r)
  | '\'' :: r => asText (literalBody r)
  | _ => none

/-- A string of any kind. -/
def anyString : Scan String
  | '"' :: '"' :: '"' :: r => asText (longQuotedBody (r.length + 1) (dropFirstNewline r))
  | '\'' :: '\'' :: '\'' :: r => asText (longLiteralBody (dropFirstNewline r))
  | cs => shortString cs

/-! ## Keys -/

def isBareKeyChar (c : Char) : Bool := c.isAlphanum || c == '-' || c == '_'

def simpleKey : Scan String
  | [] => none
  | c :: r =>
    if c == '"' || c == '\'' then shortString (c :: r)
    else if isBareKeyChar c then
      some (String.ofList ((c :: r).takeWhile isBareKeyChar), (c :: r).dropWhile isBareKeyChar)
    else none

/-- A dotted key of at most `n` parts. -/
def path : Nat → Scan Path
  | 0, _ => none
  | n + 1, cs => do
    let (k, r) ← simpleKey cs
    match skipBlanks r with
    | '.' :: r =>
      let (ks, r) ← path n (skipBlanks r)
      return (k :: ks, r)
    | r => return ([k], r)

/-! ## Numbers and dates -/

def startsWith (word : String) (cs : List Char) : Bool := word.toList.isPrefixOf cs

/-- The characters of a date, a time or both; one blank may stand before a digit. -/
def dateChars : Bool → List Char → Nat
  | _, [] => 0
  | spaced, ' ' :: d :: r =>
    if !spaced && d.isDigit then
      match r with
      | [] => 2
      | _ :: r => 3 + dateChars true r
    else 0
  | spaced, c :: r =>
    if c.isDigit || "-Tt:.+Zz".toList.contains c then 1 + dateChars spaced r else 0

/-- Does a date or a time begin here? -/
def looksLikeDate (cs : List Char) : Bool :=
  let digits := ((cs.take 5).takeWhile Char.isDigit).length
  match (cs.take 5)[digits]? with
  | some c => (digits == 2 && c == ':') || (digits == 4 && c == '-')
  | none => false

/-- The digits of a number in a base that its second character names. -/
def baseDigits? : Char → Option (Char → Bool)
  | 'x' => some fun c => (hexDigit? c).isSome || c == '_'
  | 'o' => some fun c => ('0' ≤ c && c ≤ '7') || c == '_'
  | 'b' => some fun c => c == '0' || c == '1' || c == '_'
  | _ => none

/-- How far a decimal number goes; `inf` and `nan` may end it. -/
def decimalChars : List Char → Option (Nat × Bool)
  | [] => some (0, false)
  | c :: r =>
    if c.isDigit || c == '+' || c == '-' || c == '_' then do
      let (n, f) ← decimalChars r
      return (n + 1, f)
    else if c == '.' || c == 'e' || c == 'E' then do
      let (n, _) ← decimalChars r
      return (n + 1, true)
    else if c == 'i' then (if startsWith "inf" (c :: r) then some (3, true) else none)
    else if c == 'n' then (if startsWith "nan" (c :: r) then some (3, true) else none)
    else some (0, false)

def number (cs : List Char) : Option (Value × List Char) :=
  match cs with
  | '0' :: b :: rest@(_ :: _) =>
    if b == '.' || b == 'e' || b == 'E' then plainNumber cs
    else match baseDigits? b with
      | some valid =>
        some (.integer ('0' :: b :: rest.takeWhile valid), rest.dropWhile valid)
      | none => some (.integer ['0'], b :: rest)
  | _ => plainNumber cs
where
  /-- A number in decimal. -/
  plainNumber (cs : List Char) : Option (Value × List Char) := do
    let (n, isFloat) ← decimalChars cs
    if n = 0 then none
    else some (if isFloat then .float (cs.take n) else .integer (cs.take n), cs.drop n)

/-- A number, a date or a time. -/
def numberOrDate (cs : List Char) : Option (Value × List Char) :=
  match cs with
  | [] => none
  | c :: _ =>
    if c == 'i' || c == 'n' then
      if startsWith "inf" cs || startsWith "nan" cs then some (.float (cs.take 3), cs.drop 3)
      else none
    else if c == '+' || c == '-' || cs.length < 3 || !looksLikeDate cs then number cs
    else
      let n := dateChars false cs
      some (.date (cs.take n), cs.drop n)

/-! ## Integers -/

/-- Digits without the underscores between them. -/
def dropUnderscores (digits : List Char) : Option (List Char) :=
  let body := match digits with
    | c :: r => if c == '+' || c == '-' then r else digits
    | [] => []
  if body.head? == some '_' || body.getLast? == some '_' then none
  else if (digits.zip digits.tail).any fun (a, b) => a == '_' && b == '_' then none
  else some (digits.filter (· != '_'))

/-- The number of digits in a base, at least one. -/
def ofDigits? (base : Nat) (digits : List Char) : Option Nat :=
  if digits.isEmpty then none
  else digits.foldlM (fun n c => do
    let d ← hexDigit? c
    if d < base then some (n * base + d) else none) 0

/-- Integers have 64 bits. -/
def inRange? (n : Int) : Option Int :=
  if -0x8000000000000000 ≤ n ∧ n < 0x8000000000000000 then some n else none

/-- The value of an integer. Decimal numbers may have a sign but no leading zero. -/
def integer? (digits : List Char) : Option Int := do
  match digits with
  | '0' :: b :: rest@(_ :: _) =>
    let base := if b == 'x' then 16 else if b == 'o' then 8 else if b == 'b' then 2 else 0
    if base = 0 then none else
    let n ← ofDigits? base (← dropUnderscores rest)
    inRange? n
  | _ =>
    match ← dropUnderscores digits with
    | '-' :: ds => inRange? (-(← unsigned ds : Nat))
    | '+' :: ds => inRange? (← unsigned ds : Nat)
    | ds => inRange? (← unsigned ds : Nat)
where
  /-- Decimal digits without a sign. -/
  unsigned (ds : List Char) : Option Nat :=
    if 1 < ds.length && ds.head? == some '0' then none else ofDigits? 10 ds

end SsaJit.Toml
