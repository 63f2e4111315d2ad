import SsaJit.Single
import SsaJit.X86.Sse

/-! What vector instructions compute: sixteen bytes read as lanes of equal width. -/

namespace SsaJit.X86

/-- The contents of a vector register. -/
structure Xmm where
  lo : UInt64
  hi : UInt64
  deriving DecidableEq, Repr, Inhabited

namespace Xmm

def bytes (x : Xmm) : List UInt8 := leBytes 8 x.lo ++ leBytes 8 x.hi

/-- The first sixteen bytes; missing ones are zero. -/
def ofBytes (bs : List UInt8) : Xmm := ⟨ofLeBytes (bs.take 8), ofLeBytes ((bs.drop 8).take 8)⟩

/-- The lanes, read as unsigned numbers. -/
def lanes (k : Kind) (x : Xmm) : List UInt64 :=
  (List.range (16 / k.size)).map fun i => ofLeBytes ((x.bytes.drop (i * k.size)).take k.size)

def ofLanes (k : Kind) (ls : List UInt64) : Xmm := ofBytes (ls.flatMap (leBytes k.size))

/-- Apply an operation to the lanes of one register. -/
def map (k : Kind) (f : UInt64 → UInt64) (x : Xmm) : Xmm := ofLanes k ((x.lanes k).map f)

/-- Apply an operation to the lanes of two registers. -/
def zip (k : Kind) (f : UInt64 → UInt64 → UInt64) (x y : Xmm) : Xmm :=
  ofLanes k (List.zipWith f (x.lanes k) (y.lanes k))

/-- The low 32 bits. -/
def low (x : Xmm) : Single := .ofWord x.lo

/-- Replace the low 32 bits. -/
def setLow (x : Xmm) (s : Single) : Xmm := { x with lo := (x.lo &&& 0xFFFFFFFF00000000) ||| s.toWord }

end Xmm

/-- The number nearest to `n` in a kind's signed range. -/
def clampSigned (k : Kind) (n : Int) : UInt64 :=
  let half : Int := (1 <<< (k.bits - 1) : Nat)
  (Int64.ofInt (max (-half) (min (half - 1) n))).toUInt64

/-- The number nearest to `n` in a kind's unsigned range. -/
def clampUnsigned (k : Kind) (n : Int) : UInt64 :=
  let whole : Int := (1 <<< k.bits : Nat)
  UInt64.ofNat (max 0 (min (whole - 1) n)).toNat

def FloatArith.apply : FloatArith → Single → Single → Single
  | .add => Single.add | .mul => Single.mul | .sub => Single.sub
  | .min => Single.min | .div => Single.div | .max => Single.max

/-- The comparison that a selector names. -/
def floatCompare (selector : UInt8) (x y : Single) : Bool :=
  match selector.toNat % 8 with
  | 0 => Single.eq x y
  | 1 => Single.lt x y
  | 2 => Single.le x y
  | 3 => Single.unordered x y
  | 4 => !Single.eq x y
  | 5 => !Single.lt x y
  | 6 => !Single.le x y
  | _ => !Single.unordered x y

/-- A whole number out of the range of the target. -/
def indefinite (bits : Nat) : UInt64 := 1 <<< UInt64.ofNat (bits - 1)

/-- The number without its fraction in `bits` bits, or the pattern for "none". -/
def truncateTo (bits : Nat) (x : Single) : UInt64 :=
  if x.fits (bits - 1) then (Int64.ofInt x.truncate).toUInt64 else indefinite bits

/-- All ones or all zeros. -/
def maskOf (b : Bool) : UInt64 := if b then -1 else 0

namespace SseOp

def onFloats (f : Single → Single) : UInt64 → UInt64 := fun w => (f (.ofWord w)).toWord

def onFloats₂ (f : Single → Single → Single) : UInt64 → UInt64 → UInt64 :=
  fun a b => (f (.ofWord a) (.ofWord b)).toWord

/-- Compute on exact signed lanes and saturate. -/
def signedSat (k : Kind) (f : Int → Int → Int) : UInt64 → UInt64 → UInt64 :=
  fun a b => clampSigned k (f (k.signExtend a).toInt (k.signExtend b).toInt)

def unsignedSat (k : Kind) (f : Int → Int → Int) : UInt64 → UInt64 → UInt64 :=
  fun a b => clampUnsigned k (f a.toNat b.toNat)

/-- Saturated lanes of both registers, in half the width. -/
def pack (source target : Kind) (clamp : Kind → Int → UInt64) (x y : Xmm) : Xmm :=
  .ofLanes target ((x.lanes source ++ y.lanes source).map fun a =>
    clamp target (source.signExtend a).toInt)

/-- The destination register after the instruction, from its old value and the source. The reciprocal
estimates differ between processors and have no value here. -/
def apply (op : SseOp) (imm : UInt8) (x y : Xmm) : Option Xmm :=
  let equal (k : Kind) := some (Xmm.zip k (fun a b => maskOf (a == b)) x y)
  let greater (k : Kind) :=
    some (Xmm.zip k (fun a b => maskOf (k.signExtend b < k.signExtend a)) x y)
  match op with
  | .scalar f => some (x.setLow (f.apply x.low y.low))
  | .packed f => some (Xmm.zip .f32 (onFloats₂ f.apply) x y)
  | .sqrtss => some (x.setLow y.low.sqrt)
  | .sqrtps => some (y.map .f32 (onFloats Single.sqrt))
  | .roundss => some (x.setLow y.low.roundToInt)
  | .roundps => some (y.map .f32 (onFloats Single.roundToInt))
  | .rcpss | .rcpps | .rsqrtss | .rsqrtps => none
  | .paddb => some (Xmm.zip .i8 (· + ·) x y) | .paddw => some (Xmm.zip .i16 (· + ·) x y)
  | .paddd => some (Xmm.zip .i32 (· + ·) x y) | .paddq => some (Xmm.zip .i64 (· + ·) x y)
  | .psubb => some (Xmm.zip .i8 (· - ·) x y) | .psubw => some (Xmm.zip .i16 (· - ·) x y)
  | .psubd => some (Xmm.zip .i32 (· - ·) x y) | .psubq => some (Xmm.zip .i64 (· - ·) x y)
  | .pmullw => some (Xmm.zip .i16 (· * ·) x y) | .pmulld => some (Xmm.zip .i32 (· * ·) x y)
  | .pmulhuw => some (Xmm.zip .i16 (fun a b => (a * b) >>> 16) x y)
  | .pmulhw =>
    some (Xmm.zip .i16 (fun a b =>
      (Kind.signExtend .i16 a * Kind.signExtend .i16 b).toUInt64 >>> 16) x y)
  | .pavgb => some (Xmm.zip .i8 (fun a b => (a + b + 1) >>> 1) x y)
  | .pavgw => some (Xmm.zip .i16 (fun a b => (a + b + 1) >>> 1) x y)
  | .paddsb => some (Xmm.zip .i8 (signedSat .i8 (· + ·)) x y)
  | .paddsw => some (Xmm.zip .i16 (signedSat .i16 (· + ·)) x y)
  | .paddusb => some (Xmm.zip .i8 (unsignedSat .i8 (· + ·)) x y)
  | .paddusw => some (Xmm.zip .i16 (unsignedSat .i16 (· + ·)) x y)
  | .psubsb => some (Xmm.zip .i8 (signedSat .i8 (· - ·)) x y)
  | .psubsw => some (Xmm.zip .i16 (signedSat .i16 (· - ·)) x y)
  | .psubusb => some (Xmm.zip .i8 (unsignedSat .i8 (· - ·)) x y)
  | .psubusw => some (Xmm.zip .i16 (unsignedSat .i16 (· - ·)) x y)
  | .packsswb => some (pack .i16 .i8 clampSigned x y)
  | .packssdw => some (pack .i32 .i16 clampSigned x y)
  | .packuswb => some (pack .i16 .i8 clampUnsigned x y)
  | .packusdw => some (pack .i32 .i16 clampUnsigned x y)
  | .pand => some ⟨x.lo &&& y.lo, x.hi &&& y.hi⟩
  | .pandn => some ⟨~~~x.lo &&& y.lo, ~~~x.hi &&& y.hi⟩
  | .por => some ⟨x.lo ||| y.lo, x.hi ||| y.hi⟩
  | .pxor => some ⟨x.lo ^^^ y.lo, x.hi ^^^ y.hi⟩
  | .pcmpeqb => equal .i8 | .pcmpeqw => equal .i16 | .pcmpeqd => equal .i32
  | .pcmpgtb => greater .i8 | .pcmpgtw => greater .i16 | .pcmpgtd => greater .i32
  | .cmpps =>
    some (Xmm.zip .f32 (fun a b => maskOf (floatCompare imm (.ofWord a) (.ofWord b))) x y)
  | .ucomiss => some x
  | .cvtdq2ps => some (y.map .i32 fun a => (Single.ofInt (Kind.signExtend .i32 a).toInt).toWord)
  | .cvttps2dq => some (y.map .f32 fun a => truncateTo 32 (.ofWord a))

end SseOp

end SsaJit.X86
