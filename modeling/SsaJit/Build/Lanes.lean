import SsaJit.Build.Arith

/-! Vectors lane by lane: access, rearrangement, and lanes of twice or half the width. -/

namespace SsaJit.Build.BuildM

/-- The selectors of `n` lanes in order, from `off` on. -/
def selectorsFrom (off n : Nat) : List Int := (List.range n).map fun i => ((off + i : Nat) : Int)

/-! ## Access -/

def extract (x : Handle) (i : Int) : BuildM Handle := do
  let s ← sessionOf [x]
  into s x.type.lane (extractLane x.operand i)

def insert (x : Handle) (i : Int) (e : Handle) : BuildM Handle := do
  let s ← sessionOf [x, e]
  into s x.type (insertLane x.operand e.operand i)

/-- A scalar in every lane of a vector. -/
def splat (t : SType) (x : Handle) : BuildM Handle := do
  let s ← sessionOf [x]
  into s t do
    let zero ← constNull t.ty
    let v ← insertLane zero x.operand 0
    shuffleLanes v v (List.replicate t.ty.numLanes 0)

/-- Compare lane by lane. -/
def compareLanes (r : Relation) (x y : Handle) : BuildM Handle :=
  compareAs x.type.mask (r.predicate x.type.numClass) x y

/-- Compare lane by lane whether an order does not hold. -/
def compareLanesDenied (r : Relation) (x y : Handle) : BuildM Handle :=
  compareAs x.type.mask (r.deniedPredicate x.type.numClass) x y

/-! ## Rearrangement -/

/-- Pick lanes from two vectors; minus one stands for zero. -/
def shuffle (x y : Handle) (selectors : List Int) : BuildM Handle := do
  let s ← sessionOf [x, y]
  let n := x.type.ty.numLanes
  if selectors.length ≠ n then refuse (.shuffleCount x.type.ty n selectors.length)
  match selectors.find? fun (i : Int) => i < -1 || ((2 * n : Nat) : Int) ≤ i with
  | some i => refuse (.shuffleSelector i)
  | none => into s x.type (shuffleLanes x.operand y.operand selectors)

/-- Pick lanes from one vector. -/
def swizzle (x : Handle) (selectors : List UInt8) : BuildM Handle := do
  let s ← sessionOf [x]
  let n := x.type.ty.numLanes
  if selectors.length ≠ n then refuse (.swizzleCount x.type.ty n selectors.length)
  match selectors.find? fun i => n ≤ i.toNat with
  | some i => refuse (.swizzleLane i.toNat)
  | none => into s x.type (shuffleLanes x.operand x.operand (selectors.map fun i => i.toNat))

/-- Each lane from the first vector where the mask is not zero, else from the second. -/
def blend (mask x y : Handle) : BuildM Handle := do
  let s ← sessionOf [mask, x, y]
  let m := mask.type.ty
  if !m.isVector || !m.isInt || m.numLanes != x.type.ty.numLanes then
    refuse (.blendMask m x.type.ty)
  into s x.type (select mask.operand x.operand y.operand)

/-! ## Width -/

/-- The lanes extended to a wider type by the sign of the source. If the source has twice the lanes,
one half of them is taken. -/
def widen (dest : SType) (x : Handle) (high : Bool) : BuildM Handle := do
  let s ← sessionOf [x]
  let t := x.type.ty
  let n := dest.ty.numLanes
  if dest.ty.elemKind.size ≤ t.elemKind.size || dest.ty.isFloat || x.type.isFloat then
    refuse (.widening t dest.ty)
  if t.numLanes ≠ n ∧ t.numLanes ≠ 2 * n then refuse (.widening t dest.ty)
  into s dest do
    let src ← if t.numLanes = n then pure x.operand
      else shuffleLanes x.operand x.operand (selectorsFrom (if high then n else 0) n)
    cast (if x.type.isSigned then .sext else .zext) src dest.ty

/-- Least and greatest value of a kind. -/
def rangeOf (k : Kind) (signed : Bool) : Int × Int :=
  let count (bits : Nat) : Int := (1 <<< bits : Nat)
  if signed then (-count (k.bits - 1), count (k.bits - 1) - 1) else (0, count k.bits - 1)

/-- Each lane brought into the range of a kind. Unsigned lanes have no lower bound to keep. -/
def clampTo (t : Ty) (x : Operand) (signedSource : Bool) (k : Kind) (signed : Bool) :
    BuildM Operand := do
  let (lo, hi) := rangeOf k signed
  let upper ← constSplat t (Int64.ofInt hi).toUInt64
  if signedSource then
    let lower ← constSplat t (Int64.ofInt lo).toUInt64
    let above ← icmp .sgt x upper
    let x ← select above upper x
    let below ← icmp .slt x lower
    select below lower x
  else
    let above ← icmp .ugt x upper
    select above upper x

/-- The lanes of two vectors of type `t` at half the width, those of the first below. They are cut, or
brought into the range of the narrow type if asked to. -/
def narrowLanes (t : Ty) (signedSource : Bool) (dest : SType) (saturate : Bool) (x y : Operand) :
    BuildM Operand := do
  let k := dest.ty.elemKind
  let bring (v : Operand) : BuildM Operand :=
    if saturate then clampTo t v signedSource k dest.isSigned else pure v
  let a ← bring x
  let b ← bring y
  let half ← lift (Ty.vector? k t.numLanes)
  let lo ← cast .trunc a half
  let hi ← cast .trunc b half
  shuffleLanes lo hi (selectorsFrom 0 dest.ty.numLanes)

def narrow (dest : SType) (x y : Handle) (saturate : Bool) : BuildM Handle := do
  let s ← sessionOf [x, y]
  let t := x.type.ty
  if x.type.isFloat || dest.isFloat || dest.ty.numLanes != 2 * t.numLanes ||
      2 * dest.ty.elemKind.size != t.elemKind.size then
    refuse (.narrowing t dest.ty)
  let pack : Intrinsic := if dest.isSigned then .packSS else .packUS
  into s dest do
    if saturate && x.type.isSigned && (← get).cpu.supports pack t then
      intrinsic pack dest.ty [x.operand, y.operand]
    else narrowLanes t x.type.isSigned dest saturate x.operand y.operand

end SsaJit.Build.BuildM
