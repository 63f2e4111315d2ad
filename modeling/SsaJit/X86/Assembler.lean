import SsaJit.X86.Instr

/-! Code under construction: bytes, the places labels are bound to, and the fields that wait for a
label's place. Finishing fills those fields with the distance from the field's end. -/

namespace SsaJit.X86

abbrev Label := Int

/-- A four-byte field at `offset` that is to hold the distance to a label. -/
structure Fixup where
  offset : Nat
  target : Label
  deriving DecidableEq, Repr

structure Assembler where
  code : Array UInt8 := #[]
  /-- Bound labels, the latest binding first. -/
  labels : List (Label × Nat) := []
  /-- Open fields, last first. -/
  fixups : List Fixup := []
  nextLabel : Label := 0
  deriving Inhabited

namespace Assembler

def length (a : Assembler) : Nat := a.code.size

/-- Append raw bytes. -/
def data (a : Assembler) (bytes : List UInt8) : Assembler :=
  { a with code := a.code ++ bytes.toArray }

/-- Append an instruction; a code address becomes an open field in its last four bytes. -/
def emit (a : Assembler) (i : Instr Label) : Assembler :=
  let a := a.data (i.encode fun _ => 0)
  match i.target? with
  | some t => { a with fixups := ⟨a.length - 4, t⟩ :: a.fixups }
  | none => a

/-- A label that no call has given before. -/
def newLabel (a : Assembler) : Assembler × Label :=
  ({ a with nextLabel := a.nextLabel + 1 }, a.nextLabel)

/-- Bind a label to the end of the code so far; a later binding wins. -/
def bind (a : Assembler) (l : Label) : Assembler :=
  { a with labels := (l, a.length) :: a.labels }

/-- Append `fill` up to the next multiple of `n`. -/
def align (a : Assembler) (n : Int) (fill : UInt8) : Outcome Assembler :=
  if n = 0 then .crash .divideByZero
  else .ok (a.data (List.replicate ((-(a.length : Int)) % n).toNat fill))

/-- What a field at `offset` holds when its label is at `place`. -/
def distance (offset place : Nat) : UInt32 :=
  (Int32.ofInt ((place : Int) - (offset + 4 : Nat))).toUInt32

/-- Overwrite bytes from a place on. -/
def patch (code : Array UInt8) (offset : Nat) (bytes : List UInt8) : Array UInt8 :=
  (bytes.zipIdx).foldl (fun code (b, i) => code.setIfInBounds (offset + i) b) code

/-- The finished code, or the first field whose label is not bound. -/
def finish (a : Assembler) : Outcome (Array UInt8) :=
  a.fixups.reverse.foldlM (fun code f =>
    match a.labels.lookup f.target with
    | some place => .ok (patch code f.offset (bytes32 (distance f.offset place)))
    | none => .fail (.unboundLabel f.target)) a.code

end Assembler

end SsaJit.X86
