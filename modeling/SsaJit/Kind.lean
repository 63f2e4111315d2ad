import SsaJit.Word

/-! Element kinds and value types. A type is a scalar kind or a vector of equal lanes; neither
constructor restricts its arguments, because the checks that reject odd shapes
(`Ty.vector?`, `Ty.Valid`) are separate from the representation that those checks look at. -/

namespace SsaJit

/-- What one lane holds. `other` covers the codes that name no kind. -/
inductive Kind
  | void | i1 | i8 | i16 | i32 | i64 | f32 | ptr | vector
  | other (code : UInt8)
  deriving DecidableEq, Repr, Inhabited, Hashable

namespace Kind

def ofCode (c : UInt8) : Kind :=
  match c.toNat with
  | 0 => .void | 1 => .i1 | 2 => .i8 | 3 => .i16 | 4 => .i32
  | 5 => .i64 | 6 => .f32 | 7 => .ptr | 8 => .vector
  | _ => .other c

def name : Kind → String
  | .void => "void" | .i1 => "i1" | .i8 => "i8" | .i16 => "i16" | .i32 => "i32"
  | .i64 => "i64" | .f32 => "float" | .ptr => "ptr" | .vector => "vector"
  | .other c => "kind(" ++ decimal c.toNat ++ ")"

/-- Bytes one lane takes in memory. -/
def size : Kind → Nat
  | .i1 | .i8 => 1
  | .i16 => 2
  | .i32 | .f32 => 4
  | .i64 | .ptr => 8
  | _ => 0

/-- Significant bits of one lane: an `i1` has one, all others fill their bytes. -/
def bits : Kind → Nat
  | .i1 => 1
  | k => k.size * 8

def isInt : Kind → Bool
  | .i1 | .i8 | .i16 | .i32 | .i64 => true
  | _ => false

/-- The bit pattern cut to the kind's width. Kinds without a width of their own keep all bits. -/
def canon (k : Kind) (w : UInt64) : UInt64 :=
  match k with
  | .i1 => w &&& 1
  | .i8 => w &&& 0xFF
  | .i16 => w &&& 0xFFFF
  | .i32 | .f32 => w &&& 0xFFFFFFFF
  | _ => w

/-- The pattern read as a signed number of the kind's width. -/
def signExtend (k : Kind) (w : UInt64) : Int64 :=
  match k with
  | .i1 => if w &&& 1 != 0 then -1 else 0
  | .i8 => w.toUInt8.toInt8.toInt64
  | .i16 => w.toUInt16.toInt16.toInt64
  | .i32 => w.toUInt32.toInt32.toInt64
  | _ => w.toInt64

/-- The pattern of the least signed number; kinds without bits have none and give zero. -/
def minSigned (k : Kind) : UInt64 :=
  if k.bits = 0 then 0 else k.canon (1 <<< (UInt64.ofNat (k.bits - 1)))

end Kind

/-- The type of a value. -/
inductive Ty
  | scalar (kind : Kind)
  | vec (elem : Kind) (lanes : UInt8)
  deriving DecidableEq, Repr, Inhabited, Hashable

namespace Ty

abbrev void : Ty := .scalar .void
abbrev i1 : Ty := .scalar .i1
abbrev i8 : Ty := .scalar .i8
abbrev i16 : Ty := .scalar .i16
abbrev i32 : Ty := .scalar .i32
abbrev i64 : Ty := .scalar .i64
abbrev f32 : Ty := .scalar .f32
abbrev ptr : Ty := .scalar .ptr
abbrev v16i8 : Ty := .vec .i8 16
abbrev v8i16 : Ty := .vec .i16 8
abbrev v4i32 : Ty := .vec .i32 4
abbrev v2i64 : Ty := .vec .i64 2
abbrev v4f32 : Ty := .vec .f32 4

/-- The type that has just a kind. A bare vector kind has no lanes. -/
def ofKind : Kind → Ty
  | .vector => .vec .void 0
  | k => .scalar k

/-- The outermost kind. -/
def kind : Ty → Kind
  | .scalar k => k
  | .vec _ _ => .vector

def isVector : Ty → Bool
  | .vec _ _ => true
  | .scalar _ => false

/-- The kind of one lane. -/
def elemKind : Ty → Kind
  | .scalar k => k
  | .vec e _ => e

def elemType (t : Ty) : Ty := .ofKind t.elemKind

def numLanes : Ty → Nat
  | .scalar _ => 1
  | .vec _ n => n.toNat

/-- Bytes a value of the type takes in memory. -/
def size (t : Ty) : Nat := t.numLanes * t.elemKind.size

def isVoid (t : Ty) : Bool := t.kind == .void
def isPtr (t : Ty) : Bool := t.kind == .ptr
def isInt (t : Ty) : Bool := t.elemKind.isInt
def isFloat (t : Ty) : Bool := t.elemKind == .f32

def name : Ty → String
  | .scalar k => k.name
  | .vec e n => "<" ++ decimal n.toNat ++ " x " ++ e.name ++ ">"

/-- Widest vector, in bytes. -/
def maxVectorBytes : Nat := 16

/-- Kinds a vector may have as lanes. -/
def laneKind : Kind → Bool
  | .i8 | .i16 | .i32 | .i64 | .f32 => true
  | _ => false

end Ty

end SsaJit
