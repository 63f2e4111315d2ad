import SsaJit.Ty
import SsaJit.Single

/-! The meaning of the pure operations on constants, one lane at a time and then on whole values.
Integers are computed on 64 bits and cut to their kind; shifts use the low six bits of the count; a
division that would stop the machine has no value. Float lanes are single-precision patterns. -/

namespace SsaJit

/-- One lane of a binary operation; `none` if the operation has no value there. -/
def evalBinary (op : Op) (k : Kind) (a b : UInt64) : Outcome (Option UInt64) :=
  let done (r : UInt64) : Outcome (Option UInt64) := .ok (some (k.canon r))
  let float (f : Single → Single → Single) := done (f (.ofWord a) (.ofWord b)).toWord
  let signed (f : Int64 → Int64 → Int64) : Outcome (Option UInt64) :=
    if b = 0 ∨ (k = .i64 ∧ a = Kind.minSigned .i64 ∧ k.canon b = k.canon (-1)) then .ok none
    else if k.signExtend b = 0 then .crash .divideByZero
    else done (f (k.signExtend a) (k.signExtend b)).toUInt64
  match op with
  | .add => done (a + b)
  | .sub => done (a - b)
  | .mul => done (a * b)
  | .and => done (a &&& b)
  | .or => done (a ||| b)
  | .xor => done (a ^^^ b)
  | .shl => done (a <<< (b &&& 63))
  | .lshr => done (a >>> (b &&& 63))
  | .ashr => done (k.signExtend a >>> (b &&& 63).toInt64).toUInt64
  | .sdiv => signed (· / ·)
  | .srem => signed (· % ·)
  | .udiv => if b = 0 then .ok none else done (a / b)
  | .urem => if b = 0 then .ok none else done (a % b)
  | .fadd => float Single.add
  | .fsub => float Single.sub
  | .fmul => float Single.mul
  | .fdiv => float Single.div
  | .fmin => done (if Single.lt (.ofWord a) (.ofWord b) then a else b)
  | .fmax => done (if Single.lt (.ofWord b) (.ofWord a) then a else b)
  | _ => .ok none

/-- A comparison of two float lanes. -/
def compareFloat (p : Predicate) (x y : Single) : Bool :=
  let unordered := Single.unordered x y
  match p with
  | .oeq => Single.eq x y
  | .one => !unordered && !Single.eq x y
  | .olt => Single.lt x y
  | .ole => Single.le x y
  | .ogt => Single.lt y x
  | .oge => Single.le y x
  | .ord => !unordered
  | .uno => unordered
  | .ueq => unordered || Single.eq x y
  | .une => unordered || !Single.eq x y
  | .fult => unordered || Single.lt x y
  | .fule => unordered || Single.le x y
  | .fugt => unordered || Single.lt y x
  | .fuge => unordered || Single.le y x
  | _ => false

/-- A comparison of two integer lanes: signed predicates read the patterns at the kind's width, the
others compare them as they are. -/
def compareInt (p : Predicate) (k : Kind) (a b : UInt64) : Bool :=
  match p with
  | .eq => a == b
  | .ne => a != b
  | .slt => k.signExtend a < k.signExtend b
  | .sle => k.signExtend a ≤ k.signExtend b
  | .sgt => k.signExtend b < k.signExtend a
  | .sge => k.signExtend b ≤ k.signExtend a
  | .ult => a < b
  | .ule => a ≤ b
  | .ugt => b < a
  | .uge => b ≤ a
  | _ => false

/-- One lane of a comparison. -/
def evalCompare (p : Predicate) (k : Kind) (a b : UInt64) : Bool :=
  if p.isFloat then compareFloat p (.ofWord a) (.ofWord b) else compareInt p k a b

/-- One lane of a conversion; `none` if it has no value there. -/
def evalCast (op : Op) (source target : Kind) (w : UInt64) : Option UInt64 :=
  match op with
  | .trunc | .zext | .ptrtoint | .inttoptr => some (target.canon w)
  | .sext => some (target.canon (source.signExtend w).toUInt64)
  | .fptosi | .fptoui =>
    let x := Single.ofWord w
    if x.fits 63 then some (target.canon (Int64.ofInt x.truncate).toUInt64) else none
  | .sitofp => some (Single.ofInt (source.signExtend w).toInt).toWord
  | .uitofp => some (Single.ofInt w.toNat).toWord
  | _ => none

/-- A value's lanes as they lie in memory. -/
def bytesOfLanes (t : Ty) (lanes : List UInt64) : Outcome (List UInt8) :=
  if lanes.length < t.numLanes then .crash .outOfRange
  else .ok ((lanes.take t.numLanes).flatMap (leBytes t.elemKind.size))

/-- Read `n` lanes of `width` bytes each. A lane may lie partly past the end, where bytes are zero,
but it may not start there. -/
def readLanes (k : Kind) (width : Nat) : Nat → List UInt8 → Outcome (List UInt64)
  | 0, _ => .ok []
  | n + 1, buf => do
    let lane := k.canon (ofLeBytes (buf.take width))
    if buf.length < width ∧ n ≠ 0 then .crash .outOfRange
    else return lane :: (← readLanes k width n (buf.drop width))

/-- The lanes that memory holds. -/
def lanesOfBytes (t : Ty) (buf : List UInt8) : Outcome (List UInt64) :=
  readLanes t.elemKind t.elemKind.size t.numLanes buf

/-- The lane at a position that may be negative. -/
def laneAt (lanes : List UInt64) (i : Int) : Outcome UInt64 :=
  if i < 0 then .crash .outOfRange else .at? lanes i.toNat

/-- What folding needs to know of an operation apart from its operands' lanes. -/
structure Operation where
  op : Op
  type : Ty
  aux : Int64 := 0
  mask : List Int := []
  /-- Types of the operands. -/
  operands : List Ty := []
  deriving Repr

namespace Operation

def predicate (o : Operation) : Predicate := .ofCode o.aux.toUInt64.toUInt8

/-- Lanes computed in order, up to the first that has no value. -/
def perLane (f : Nat → Outcome (Option UInt64)) : List Nat → Outcome (Option (List UInt64))
  | [] => .ok (some [])
  | i :: rest => do
    match ← f i with
    | none => return none
    | some r => return (← perLane f rest).map (r :: ·)

/-- The lane a shuffle's selector picks out of two operands of `width` lanes; a negative one picks
zero. -/
def shuffleLane (width : Nat) (args : List (List UInt64)) (m : Int) : Outcome UInt64 := do
  if m < 0 then return 0
  else if m < width then .at? (← .at? args 0) m.toNat
  else .at? (← .at? args 1) (m - width).toNat

/-- The lanes cut or filled with zeros to a count. -/
def fit (n : Nat) (lanes : List UInt64) : List UInt64 :=
  lanes.take n ++ List.replicate (n - lanes.length) 0

/-- The value of the operation on constant operands, by lanes; `none` if it cannot be computed
beforehand. -/
def fold (o : Operation) (args : List (List UInt64)) : Outcome (Option (List UInt64)) := do
  let n := o.type.numLanes
  let k := o.type.elemKind
  let arg (i j : Nat) : Outcome UInt64 := do .at? (← .at? args i) j
  let lanes (f : Nat → Outcome UInt64) : Outcome (Option (List UInt64)) :=
    some <$> (List.range n).mapM f
  if o.op.isBinary then
    perLane (fun i => do evalBinary o.op k (← arg 0 i) (← arg 1 i)) (List.range n)
  else match o.op with
  | .fneg => lanes fun i => return (← arg 0 i) ^^^ 0x80000000
  | .fsqrt => lanes fun i => return (Single.ofWord (← arg 0 i)).sqrt.toWord
  | .icmp | .fcmp =>
    let source ← .at? o.operands 0
    lanes fun i => do
      return if evalCompare o.predicate source.elemKind (← arg 0 i) (← arg 1 i)
        then k.canon (-1) else 0
  | .bitcast =>
    let source ← .at? o.operands 0
    some <$> do lanesOfBytes o.type (← bytesOfLanes source (← .at? args 0))
  | .select =>
    let cond ← .at? o.operands 0
    if cond.isVector then
      lanes fun i => do if (← arg 0 i) ≠ 0 then arg 1 i else arg 2 i
    else some <$> do if (← arg 0 0) ≠ 0 then .at? args 1 else .at? args 2
  | .extract =>
    let lane ← laneAt (← .at? args 0) o.aux.toInt
    if n = 0 then .crash .outOfRange else return some (fit n [lane])
  | .insert =>
    let base ← .at? args 0
    let lane ← arg 1 0
    if o.aux.toInt < 0 ∨ n ≤ o.aux.toInt.toNat then .crash .outOfRange
    else return some ((fit n base).set o.aux.toInt.toNat lane)
  | .shuffle =>
    let source ← .at? o.operands 0
    if n < o.mask.length then .crash .outOfRange
    else return some (fit n (← o.mask.mapM (shuffleLane source.numLanes args)))
  | .copy => return some (fit n (← .at? args 0))
  | op =>
    if op.isCast then
      let source ← .at? o.operands 0
      perLane (fun i => return evalCast op source.elemKind k (← arg 0 i)) (List.range n)
    else return none

end Operation

end SsaJit
