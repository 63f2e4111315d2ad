import SsaJit.Lower.Scalar

/-! Vector instructions for whole sixteen-byte values. Where there is none, the caller goes lane by
lane; both leave the same bytes. -/

namespace SsaJit.Lower

open X86

/-- What the processor offers beyond its baseline. -/
structure Features where
  sse41 : Bool := false
  deriving DecidableEq, Repr, Inhabited

/-- May the instruction be used? -/
def Features.allows (cpu : Features) (op : SseOp) : Bool := !op.needsSse41 || cpu.sse41

/-- The instruction for a binary operation on sixteen bytes of lanes. -/
def vectorBinaryOp : Op → Kind → Option SseOp
  | .and, _ => some .pand
  | .or, _ => some .por
  | .xor, _ => some .pxor
  | .add, .i8 => some .paddb | .add, .i16 => some .paddw
  | .add, .i32 => some .paddd | .add, .i64 => some .paddq
  | .sub, .i8 => some .psubb | .sub, .i16 => some .psubw
  | .sub, .i32 => some .psubd | .sub, .i64 => some .psubq
  | .mul, .i16 => some .pmullw | .mul, .i32 => some .pmulld
  | op, .f32 => (floatArith op).map .packed
  | _, _ => none

/-- A binary operation in one vector instruction, if there is one. -/
def vectorBinary (cpu : Features) (op : Op) (t : Ty) (dst x y : Place) : Option Code :=
  if t.size ≠ 16 then none
  else match vectorBinaryOp op t.elemKind with
  | none => none
  | some i =>
    if cpu.allows i then
      some (straight [.movdquLoad 0 x, .movdquLoad 1 y, vector i 0 1, .movdquStore dst 0])
    else none

/-- The selector of `cmpps` for a predicate, and whether the operands change places. -/
def floatSelector : Predicate → Option (UInt8 × Bool)
  | .oeq => some (0, false) | .olt => some (1, false) | .ole => some (2, false)
  | .uno => some (3, false) | .une => some (4, false) | .fuge => some (5, false)
  | .fugt => some (6, false) | .ord => some (7, false)
  | .ogt => some (1, true) | .oge => some (2, true)
  | .fult => some (6, true) | .fule => some (5, true)
  | _ => none

/-- The instructions that compare for equal and for greater. -/
def laneTests : Kind → Option (SseOp × SseOp)
  | .i8 => some (.pcmpeqb, .pcmpgtb)
  | .i16 => some (.pcmpeqw, .pcmpgtw)
  | .i32 => some (.pcmpeqd, .pcmpgtd)
  | _ => none

/-- How a predicate comes from those two: the instruction, whether the operands change places and
whether the result is inverted. -/
def intTest (equal greater : SseOp) : Predicate → Option (SseOp × Bool × Bool)
  | .eq => some (equal, false, false)
  | .ne => some (equal, false, true)
  | .sgt => some (greater, false, false)
  | .slt => some (greater, true, false)
  | .sle => some (greater, false, true)
  | .sge => some (greater, true, true)
  | _ => none

/-- A comparison of sixteen bytes of lanes in vector instructions, if there are any. -/
def vectorCompare (op : Op) (p : Predicate) (t : Ty) (dst x y : Place) : Option Code :=
  if t.size ≠ 16 then none
  else if op = .fcmp then do
    let (imm, swap) ← floatSelector p
    let (x, y) := if swap then (y, x) else (x, y)
    return straight [.movdquLoad 0 x, .movdquLoad 1 y, vector .cmpps 0 1 (some imm),
      .movdquStore dst 0]
  else do
    let (equal, greater) ← laneTests t.elemKind
    let (i, swap, invert) ← intTest equal greater p
    let (x, y) := if swap then (y, x) else (x, y)
    let inverted := if invert then [vector .pcmpeqd 1 1, vector .pxor 0 1] else []
    return straight ([.movdquLoad 0 x, .movdquLoad 1 y, vector i 0 1] ++ inverted ++
      [.movdquStore dst 0])

/-- A conversion between four integers and four floats. -/
def vectorCast (op : Op) (source target : Ty) (dst x : Place) : Option Code :=
  let convert (i : SseOp) := some (straight [.movdquLoad 0 x, vector i 0 0, .movdquStore dst 0])
  if op = .sitofp ∧ source = .v4i32 ∧ target = .v4f32 then convert .cvtdq2ps
  else if op = .fptosi ∧ source = .v4f32 ∧ target = .v4i32 then convert .cvttps2dq
  else none

/-- Take lanes by a mask whose lanes are all ones or all zeros. -/
def blend (dst mask x y : Place) : Code :=
  straight [.movdquLoad 0 mask, .movdquLoad 1 x, .movdquLoad 2 y, vector .pand 1 0,
    vector .pandn 0 2, vector .por 0 1, .movdquStore dst 0]

/-! ## Intrinsics -/

/-- The instruction of an intrinsic whose first operand has the given kind of lanes, with its
immediate. Packing goes by the lanes it reads. -/
def intrinsicOp : Intrinsic → Kind → Bool → Option (SseOp × Option UInt8)
  | .addSatS, .i8, true => some (.paddsb, none)
  | .addSatS, .i16, true => some (.paddsw, none)
  | .addSatU, .i8, true => some (.paddusb, none)
  | .addSatU, .i16, true => some (.paddusw, none)
  | .subSatS, .i8, true => some (.psubsb, none)
  | .subSatS, .i16, true => some (.psubsw, none)
  | .subSatU, .i8, true => some (.psubusb, none)
  | .subSatU, .i16, true => some (.psubusw, none)
  | .mulHighS, .i16, true => some (.pmulhw, none)
  | .mulHighU, .i16, true => some (.pmulhuw, none)
  | .avgU, .i8, true => some (.pavgb, none)
  | .avgU, .i16, true => some (.pavgw, none)
  | .rcp, .f32, true => some (.rcpps, none)
  | .rcp, .f32, false => some (.rcpss, none)
  | .rsqrt, .f32, true => some (.rsqrtps, none)
  | .rsqrt, .f32, false => some (.rsqrtss, none)
  | .round, .f32, true => some (.roundps, some 8)
  | .round, .f32, false => some (.roundss, some 8)
  | .packSS, .i16, true => some (.packsswb, none)
  | .packSS, .i32, true => some (.packssdw, none)
  | .packUS, .i16, true => some (.packuswb, none)
  | .packUS, .i32, true => some (.packusdw, none)
  | _, _, _ => none

/-- The instruction of an intrinsic on a first operand of type `t`, if the processor has one. -/
def Features.intrinsic? (cpu : Features) (id : Intrinsic) (t : Ty) :
    Option (SseOp × Option UInt8) :=
  match intrinsicOp id t.elemKind t.isVector with
  | none => none
  | some i => if (t.isVector && t.size != 16) || !cpu.allows i.1 then none else some i

/-- Can the processor execute the intrinsic on a first operand of type `t`? -/
def Features.supports (cpu : Features) (id : Intrinsic) (t : Ty) : Bool :=
  (cpu.intrinsic? id t).isSome

end SsaJit.Lower
