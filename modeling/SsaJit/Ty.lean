import SsaJit.Fault

/-! Building types from types. Vectors have at least two lanes of an eight to sixty-four bit kind and
fill at most sixteen bytes. -/

namespace SsaJit.Ty

/-- The vector of `lanes` lanes of kind `elem`, if there is one. -/
def vector? (elem : Kind) (lanes : Int) : Outcome Ty :=
  if !laneKind elem then .refuse (.vectorElement elem)
  else if lanes < 2 ∨ maxVectorBytes < lanes * elem.size then .refuse (.vectorShape lanes elem)
  else .ok (.vec elem (UInt8.ofNat lanes.toNat))

/-- A type that `vector?` builds, or a scalar. -/
def Valid : Ty → Prop
  | .scalar k => k ≠ .vector
  | .vec e n => laneKind e = true ∧ 2 ≤ n.toNat ∧ n.toNat * e.size ≤ maxVectorBytes

instance (t : Ty) : Decidable t.Valid := by
  cases t <;> unfold Valid <;> infer_instance

/-- The same lanes in another number; one lane is the scalar. -/
def withLanes (t : Ty) (lanes : Int) : Outcome Ty :=
  if lanes = 1 then .ok t.elemType else vector? t.elemKind lanes

/-- The type of a comparison's result: a bit for scalars, for vectors a mask of equally wide
integer lanes. -/
def maskType : Ty → Outcome Ty
  | .scalar _ => .ok .i1
  | .vec .f32 n => vector? .i32 n.toNat
  | t => .ok t

/-- The integer kind of a width in bytes. -/
def intKindOfSize (bytes : Int) : Outcome Kind :=
  if bytes = 1 then .ok .i8
  else if bytes = 2 then .ok .i16
  else if bytes = 4 then .ok .i32
  else if bytes = 8 then .ok .i64
  else .refuse (.integerWidth bytes)

end SsaJit.Ty
