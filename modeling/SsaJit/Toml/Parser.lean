import SsaJit.Toml.Scan

/-! Documents line by line. Arrays may go over several lines, tables in braces may not. The parsers of
nested values take a bound on their depth, which the document's length provides. -/

namespace SsaJit.Toml

def expect (c : Char) : List Char → Option (List Char)
  | d :: r => if d == c then some r else none
  | [] => none

mutual

def value : Nat → Scan Value
  | 0, _ => none
  | n + 1, cs =>
    match cs with
    | [] => none
    | '"' :: _ | '\'' :: _ => (anyString cs).map fun (s, r) => (.text s, r)
    | 't' :: _ => if startsWith "true" cs then some (.bool true, cs.drop 4) else none
    | 'f' :: _ => if startsWith "false" cs then some (.bool false, cs.drop 5) else none
    | '[' :: r => (items n true r).map fun (vs, r) => (.array vs, r)
    | '\x7b' :: r => (entries n true r).map fun (es, r) => (.table es, r)
    | _ => numberOrDate cs

/-- The items of an array up to its end. A comma stands between items and may follow the last. -/
def items : Nat → Bool → Scan (List Value)
  | 0, _, _ => none
  | n + 1, isFirst, cs => do
    let cs ← skipLines (cs.length + 1) cs
    let cs ← match cs with
      | ',' :: r => if isFirst then none else skipLines (r.length + 1) r
      | ']' :: _ => some cs
      | _ => if isFirst then some cs else none
    match cs with
    | ']' :: r => return ([], r)
    | _ =>
      let (v, r) ← value n cs
      let (vs, r) ← items n false r
      return (v :: vs, r)

/-- The entries of a table in braces up to its end. -/
def entries : Nat → Bool → Scan (List (Path × Value))
  | 0, _, _ => none
  | n + 1, isFirst, cs => do
    match skipBlanks cs with
    | '\x7d' :: r => return ([], r)
    | cs =>
      let cs ← if isFirst then some cs else (expect ',' cs).map skipBlanks
      let (k, r) ← path (cs.length + 1) cs
      let r ← expect '=' (skipBlanks r)
      let (v, r) ← value n (skipBlanks r)
      let (es, r) ← entries n false r
      return ((k, v) :: es, r)

end

def entry (depth : Nat) : Scan Line := fun cs => do
  let (k, r) ← path (cs.length + 1) cs
  let r ← expect '=' (skipBlanks r)
  let (v, r) ← value depth (skipBlanks r)
  return (.entry k v, r)

/-- A section header in single or double brackets. -/
def header : Scan Line
  | '[' :: '[' :: cs => do
    let (k, r) ← path (cs.length + 1) (skipBlanks cs)
    let r ← expect ']' (skipBlanks r)
    return (.element k, ← expect ']' r)
  | '[' :: cs => do
    let (k, r) ← path (cs.length + 1) (skipBlanks cs)
    return (.header k, ← expect ']' (skipBlanks r))
  | _ => none

/-- One line without its end; it may hold nothing but blanks and a comment. -/
def line (depth : Nat) (cs : List Char) : Option (Option Line × List Char) := do
  match skipBlanks cs with
  | [] => return (none, [])
  | '#' :: r => return (none, ← skipComment r)
  | '\n' :: r => return (none, '\n' :: r)
  | '\r' :: r => return (none, '\r' :: r)
  | cs =>
    let (l, r) ← if cs.head? == some '[' then header cs else entry depth cs
    match skipBlanks r with
    | '#' :: r => return (some l, ← skipComment r)
    | r => return (some l, r)

/-- The lines after the first, at most `n`. -/
def moreLines (depth : Nat) : Nat → List Char → Option (List Line)
  | 0, _ => none
  | _ + 1, [] => some []
  | n + 1, cs => do
    let cs ← skipNewline cs
    let (l, r) ← line depth cs
    return l.toList ++ (← moreLines depth n r)

/-- The lines of a document, if all are well formed. -/
def parse (s : String) : Option (List Line) := do
  let cs := s.toList
  let depth := 2 * cs.length + 4
  let (l, r) ← line depth cs
  return l.toList ++ (← moreLines depth (cs.length + 1) r)

end SsaJit.Toml

/-! ## Keys seen

Which keys a document has defined so far. A key is defined once; a section is opened once, and a
section that came about through dotted keys cannot be opened at all once its own section is left. -/

namespace SsaJit.Toml

inductive SeenKind
  | value | table | list
  deriving DecidableEq, Repr

/-- What is known of a key. -/
structure SeenKey where
  kind : SeenKind
  /-- Cannot be defined or extended again. -/
  settled : Bool
  /-- Came about through a dotted key. -/
  dotted : Bool
  deriving DecidableEq, Repr

/-- The keys seen, by full path, and the section that entries belong to. -/
structure Seen where
  keys : List (Path × SeenKey) := []
  current : Path := []

namespace Seen

def find? (s : Seen) (p : Path) : Option SeenKey := s.keys.lookup p

def put (s : Seen) (p : Path) (k : SeenKey) : Seen :=
  { s with keys := (p, k) :: s.keys.filter (·.1 != p) }

def isUnder (p q : Path) : Bool := p.isPrefixOf q && p != q

/-- Settle the dotted keys under the current section, which is being left. -/
def leave (s : Seen) : Seen :=
  { s with keys := s.keys.map fun (q, k) =>
      if isUnder s.current q && k.dotted then (q, { k with settled := true, dotted := false })
      else (q, k) }

/-- Forget the keys under a path. -/
def forgetUnder (s : Seen) (p : Path) : Seen :=
  { s with keys := s.keys.filter fun (q, _) => !isUnder p q }

/-- Walk down to the parent of a header's key, entering the sections on the way. -/
def descend (s : Seen) (done : Path) : Path → Option Seen
  | [] | [_] => some s
  | k :: rest =>
    let here := done ++ [k]
    match s.find? here with
    | none => descend (s.put here ⟨.table, false, false⟩) here rest
    | some e => if e.kind = .value then none else descend s here rest

/-- Open a section. -/
def openSection (s : Seen) (p : Path) : Option Seen := do
  let s ← s.leave.descend [] p
  match s.find? p with
  | none => return { s.put p ⟨.table, true, false⟩ with current := p }
  | some e =>
    if e.kind ≠ .table ∨ e.settled then none
    else return { s.put p { e with settled := true } with current := p }

/-- Open a new element of a list of sections. -/
def openElement (s : Seen) (p : Path) : Option Seen := do
  let s ← s.leave.descend [] p
  match s.find? p with
  | none => return { s.put p ⟨.list, true, false⟩ with current := p }
  | some e => if e.kind ≠ .list then none else return { s.forgetUnder p with current := p }

/-- Define a key under a path. -/
def defineAt (s : Seen) (done : Path) : Path → Option Seen
  | [] => some s
  | k :: rest =>
    let here := done ++ [k]
    let kind : SeenKind := if rest.isEmpty then .value else .table
    match s.find? here with
    | none => defineAt (s.put here ⟨kind, false, true⟩) here rest
    | some e =>
      if rest.isEmpty || e.kind ≠ .table || e.settled then none else defineAt s here rest

end Seen

mutual

/-- Are the keys of all tables inside a value distinct? -/
def Value.wellKeyed : Value → Bool
  | .array vs => allWellKeyed vs
  | .table es => entriesWellKeyed {} es
  | _ => true

def allWellKeyed : List Value → Bool
  | [] => true
  | v :: vs => v.wellKeyed && allWellKeyed vs

def entriesWellKeyed (s : Seen) : List (Path × Value) → Bool
  | [] => true
  | (k, v) :: es =>
    match s.defineAt [] k with
    | none => false
    | some s => v.wellKeyed && entriesWellKeyed s es

end

/-- Define a key of the current section. -/
def Seen.define (s : Seen) (k : Path) (v : Value) : Option Seen := do
  let s ← s.defineAt s.current k
  if v.wellKeyed then some s else none

end SsaJit.Toml
