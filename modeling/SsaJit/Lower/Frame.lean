import SsaJit.Graph.Basic

/-! The stack frame of a function. Every value has a slot of its own below rbp, eight bytes for a
scalar and sixteen for a vector; a phi has a second one, where predecessors leave its next value, and
a stack allocation has a region. Offsets are 32 bits wide, as the instructions that use them. -/

namespace SsaJit.Lower

/-- Offsets from rbp by value number; zero where a value has none. -/
structure Frame where
  slots : Array Int32
  staging : Array Int32
  regions : Array Int32
  /-- The lowest offset in use. -/
  low : Int32 := 0
  deriving Repr

namespace Frame

def blank (n : Nat) : Frame :=
  { slots := Array.replicate n 0, staging := Array.replicate n 0, regions := Array.replicate n 0 }

/-- The offset of a fresh area of `size` bytes below `low`; `align` is a power of two. -/
def below (low : Int32) (size align : Int64) : Int32 :=
  let depth := (-low).toInt64 + size
  (-((depth + align - 1) &&& ~~~(align - 1))).toInt32

/-- Bytes of a slot, which is also its alignment. -/
def slotSize (t : Ty) : Int64 := if t.isVector then 16 else 8

/-- Make room for one value. -/
def place (fr : Frame) (v : ValueId) (x : Value) : Frame :=
  if x.type.isVoid then fr
  else
    let size := slotSize x.type
    let slot := below fr.low size size
    let fr := { fr with slots := fr.slots.setIfInBounds v slot, low := slot }
    match x.op with
    | .phi =>
      let stage := below fr.low size size
      { fr with staging := fr.staging.setIfInBounds v stage, low := stage }
    | .alloca =>
      let region := below fr.low x.aux 16
      { fr with regions := fr.regions.setIfInBounds v region, low := region }
    | _ => fr

/-- The frame of a function's values, in layout order. -/
def ofFunc (f : Func) : Frame :=
  (f.layout.flatMap f.valuesOf).foldl (fun fr (v, x) => fr.place v x) (blank f.numValues)

/-- Bytes of the whole frame, a multiple of sixteen. -/
def size (fr : Frame) : Int32 := ((-fr.low.toInt64 + 15) &&& ~~~15).toInt32

end Frame

end SsaJit.Lower
