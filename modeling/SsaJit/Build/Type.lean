import SsaJit.Kind

/-! The types that programs are written with. They say more than the types of the graph: whether
lanes are signed, and what a pointer points to. -/

namespace SsaJit.Build

/-- How the lanes of a type are computed with. -/
inductive NumClass
  | bool | signed | unsigned | float | pointer
  deriving DecidableEq, Repr, Inhabited

def NumClass.name : NumClass → String
  | .bool => "bool" | .signed => "signed" | .unsigned => "unsigned" | .float => "float"
  | .pointer => "pointer"

/-- Types of program values: scalars, vectors of sixteen and of eight bytes, and pointers. -/
inductive SType
  | void | bool | byte | sbyte | short | ushort | int | uint | long | ulong | float
  | byte16 | sbyte16 | short8 | ushort8 | int4 | uint4 | float4
  | byte8 | sbyte8 | short4 | ushort4
  | pointer (pointee : SType)
  deriving DecidableEq, Repr, Inhabited

namespace SType

/-- The type of the graph that holds such values. -/
def ty : SType → Ty
  | .void => .void | .bool => .i1
  | .byte | .sbyte => .i8 | .short | .ushort => .i16
  | .int | .uint => .i32 | .long | .ulong => .i64 | .float => .f32
  | .byte16 | .sbyte16 => .v16i8 | .short8 | .ushort8 => .v8i16
  | .int4 | .uint4 => .v4i32 | .float4 => .v4f32
  | .byte8 | .sbyte8 => .vec .i8 8 | .short4 | .ushort4 => .vec .i16 4
  | .pointer _ => .ptr

def numClass : SType → NumClass
  | .void | .bool => .bool
  | .sbyte | .short | .int | .long | .sbyte16 | .short8 | .int4 | .sbyte8 | .short4 => .signed
  | .byte | .ushort | .uint | .ulong | .byte16 | .ushort8 | .uint4 | .byte8 | .ushort4 => .unsigned
  | .float | .float4 => .float
  | .pointer _ => .pointer

def isSigned (t : SType) : Bool := t.numClass == .signed
def isFloat (t : SType) : Bool := t.numClass == .float
def isVector (t : SType) : Bool := t.ty.isVector

/-- Signed and unsigned scalars and vectors. -/
def isInteger (t : SType) : Bool := t.numClass == .signed || t.numClass == .unsigned

/-- Types with arithmetic. -/
def isNumeric (t : SType) : Bool := t.isInteger || t.isFloat

/-- Types with operations on bits. -/
def isBitwise (t : SType) : Bool := t.isInteger || t == .bool

/-- Scalars that have an order. -/
def isOrdered (t : SType) : Bool := t.isNumeric && !t.isVector

/-- Types with saturating arithmetic: lanes of one or two bytes. -/
def isSaturating (t : SType) : Bool := t.isInteger && t.ty.elemKind.size ≤ 2

/-- The type of one lane; a scalar is its own. -/
def lane : SType → SType
  | .byte16 | .byte8 => .byte | .sbyte16 | .sbyte8 => .sbyte
  | .short8 | .short4 => .short | .ushort8 | .ushort4 => .ushort
  | .int4 => .int | .uint4 => .uint | .float4 => .float
  | t => t

/-- The type of a lane-wise comparison: all ones where it holds, zero elsewhere. -/
def mask : SType → SType
  | .byte16 | .sbyte16 => .sbyte16 | .short8 | .ushort8 => .short8
  | .int4 | .uint4 | .float4 => .int4
  | .byte8 | .sbyte8 => .sbyte8 | .short4 | .ushort4 => .short4
  | _ => .bool

/-- The full-width vector whose lanes have this type. -/
def splatOf? : SType → Option SType
  | .int => some .int4 | .uint => some .uint4 | .float => some .float4
  | .short => some .short8 | .ushort => some .ushort8
  | .byte => some .byte16 | .sbyte => some .sbyte16
  | _ => none

/-- Names of the types that are not pointers. -/
def named : List (String × SType) :=
  [("Void", .void), ("Bool", .bool), ("Byte", .byte), ("SByte", .sbyte), ("Short", .short),
   ("UShort", .ushort), ("Int", .int), ("UInt", .uint), ("Long", .long), ("ULong", .ulong),
   ("Float", .float), ("Byte16", .byte16), ("SByte16", .sbyte16), ("Short8", .short8),
   ("UShort8", .ushort8), ("Int4", .int4), ("UInt4", .uint4), ("Float4", .float4),
   ("Byte8", .byte8), ("SByte8", .sbyte8), ("Short4", .short4), ("UShort4", .ushort4),
   ("IntPtr", .pointer .int)]

/-- The type of a name. Pointers are written `Pointer[…]`. -/
def ofName? (s : String) : Option SType :=
  let parts := s.splitOn "Pointer["
  let depth := parts.length - 1
  let base := ((parts.getLast?.getD "").dropEnd depth).toString
  (named.lookup base).map fun t => (List.range depth).foldl (fun t _ => .pointer t) t

end SType

end SsaJit.Build
