import Mathlib.Algebra.Order.Ring.Int
import SsaJit.Proofs.Lanes

/-! Lanes as numbers. A pattern of an integer kind stands for one number read with its sign and for
another read without; what is computed on 64 bits and cut to the kind stands for the exact number, as
long as that is one of the kind's. -/

namespace SsaJit.Kind

variable {k : Kind} {w : UInt64} {n : Int} {signed : Bool}

/-- The number that a pattern stands for. -/
def number (k : Kind) (signed : Bool) (w : UInt64) : Int :=
  if signed then (k.signExtend w).toInt else w.toNat

def least (k : Kind) (signed : Bool) : Int := if signed then -2 ^ (k.bits - 1) else 0

def greatest (k : Kind) (signed : Bool) : Int :=
  if signed then 2 ^ (k.bits - 1) - 1 else 2 ^ k.bits - 1

theorem toNat_canon (hk : k.isInt = true) (w : UInt64) : (k.canon w).toNat = w.toNat % 2 ^ k.bits := by
  have hmask : ∀ (b : Nat) (m : UInt64), m.toNat = 2 ^ b - 1 → (w &&& m).toNat = w.toNat % 2 ^ b :=
    fun b m hm => by rw [UInt64.toNat_and, hm, Nat.and_two_pow_sub_one_eq_mod]
  cases k with
  | i1 => exact hmask 1 1 rfl
  | i8 => exact hmask 8 0xFF rfl
  | i16 => exact hmask 16 0xFFFF rfl
  | i32 => exact hmask 32 0xFFFFFFFF rfl
  | i64 => exact (Nat.mod_eq_of_lt w.toNat_lt).symm
  | void | f32 | ptr | vector | other c => simp [isInt] at hk

theorem toInt_signExtend (hk : k.isInt = true) (w : UInt64) :
    (k.signExtend w).toInt = (w.toNat : Int).bmod (2 ^ k.bits) := by
  cases k with
  | i1 =>
    have hbit : (w &&& 1).toNat = w.toNat % 2 := toNat_canon (k := .i1) rfl w
    rcases and_one_eq w with h | h <;> rw [h] at hbit <;> simp [signExtend, h, bits, Int.bmod] at hbit ⊢ <;>
      omega
  | i8 => exact (Int8.toInt_toInt64 _).trans (BitVec.toInt_setWidth w.toBitVec)
  | i16 => exact (Int16.toInt_toInt64 _).trans (BitVec.toInt_setWidth w.toBitVec)
  | i32 => exact (Int32.toInt_toInt64 _).trans (BitVec.toInt_setWidth w.toBitVec)
  | i64 => exact BitVec.toInt_eq_toNat_bmod w.toBitVec
  | void | f32 | ptr | vector | other c => simp [isInt] at hk

/-- A pattern and its number are the same as far as the bits of the kind go. -/
theorem number_emod (hk : k.isInt = true) (signed : Bool) (w : UInt64) :
    k.number signed w % 2 ^ k.bits = w.toNat % 2 ^ k.bits := by
  cases signed with
  | false => rfl
  | true =>
    rw [number, if_pos rfl, toInt_signExtend hk]
    exact_mod_cast Int.bmod_emod (x := (w.toNat : Int)) (m := 2 ^ k.bits)

theorem number_range (hk : k.isInt = true) (signed : Bool) (hw : k.canon w = w) :
    k.least signed ≤ k.number signed w ∧ k.number signed w ≤ k.greatest signed := by
  have hlt : w.toNat < 2 ^ k.bits := by
    rw [← hw, toNat_canon hk]
    exact Nat.mod_lt _ (Nat.two_pow_pos _)
  cases signed with
  | false =>
    have hlt' : (w.toNat : Int) < 2 ^ k.bits := by exact_mod_cast hlt
    exact ⟨Int.natCast_nonneg _, Int.le_sub_one_of_lt hlt'⟩
  | true =>
    rw [number, least, greatest, if_pos rfl, if_pos rfl, if_pos rfl, toInt_signExtend hk]
    cases k <;> simp only [isInt, Bool.false_eq_true] at hk <;> simp only [bits, size] at hlt ⊢ <;>
      simp only [Int.bmod] <;> omega

/-- Of the numbers of a kind, no two are the same as far as its bits go. -/
theorem eq_of_emod {m : Int} (hk : k.isInt = true) (hm : k.least signed ≤ m ∧ m ≤ k.greatest signed)
    (hn : k.least signed ≤ n ∧ n ≤ k.greatest signed) (h : m % 2 ^ k.bits = n % 2 ^ k.bits) : m = n := by
  have hwidth : k.greatest signed - k.least signed = 2 ^ k.bits - 1 := by
    cases k <;> cases signed <;> first | rfl | cases hk
  have hdvd : (2 : Int) ^ k.bits ∣ m - n :=
    Int.dvd_of_emod_eq_zero (Int.emod_eq_emod_iff_emod_sub_eq_zero.mp h)
  have hnear : |m - n| < 2 ^ k.bits := abs_lt.mpr ⟨by omega, by omega⟩
  exact Int.eq_of_sub_eq_zero (Int.eq_zero_of_abs_lt_dvd hdvd hnear)

theorem number_canon_emod (hk : k.isInt = true) (signed : Bool) (w : UInt64) :
    k.number signed (k.canon w) % 2 ^ k.bits = w.toNat % 2 ^ k.bits := by
  rw [number_emod hk, toNat_canon hk]
  exact_mod_cast Nat.mod_mod w.toNat (2 ^ k.bits)

/-- What is the same as a number of the kind as far as its bits go stands for it. -/
theorem number_canon (hk : k.isInt = true) (hn : k.least signed ≤ n ∧ n ≤ k.greatest signed)
    (hw : (w.toNat : Int) % 2 ^ k.bits = n % 2 ^ k.bits) : k.number signed (k.canon w) = n :=
  eq_of_emod hk (number_range hk signed (canon_canon k w)) hn ((number_canon_emod hk signed w).trans hw)

/-- The number of the kind that is the same as `n` as far as its bits go. -/
def wrap (k : Kind) (signed : Bool) (n : Int) : Int :=
  if signed then n.bmod (2 ^ k.bits) else n % 2 ^ k.bits

/-- What is the same as any number as far as the bits of the kind go stands for that number wrapped. -/
theorem number_wrap (hk : k.isInt = true) (hw : (w.toNat : Int) % 2 ^ k.bits = n % 2 ^ k.bits) :
    k.number signed (k.canon w) = k.wrap signed n := by
  have hlow : ((k.canon w).toNat : Int) = n % 2 ^ k.bits := by
    rw [← hw, toNat_canon hk]
    exact_mod_cast rfl
  cases signed with
  | false => exact hlow
  | true =>
    have hmod := Int.emod_bmod (x := n) (n := 2 ^ k.bits)
    rw [number, wrap, if_pos rfl, if_pos rfl, toInt_signExtend hk, hlow]
    exact_mod_cast hmod

theorem number_inj {p q : UInt64} (hk : k.isInt = true) (hp : k.canon p = p) (hq : k.canon q = q)
    (h : k.number signed p = k.number signed q) : p = q := by
  have hmod := congrArg (· % 2 ^ k.bits) h
  simp only [number_emod hk] at hmod
  rw [← hp, ← hq]
  refine UInt64.toNat.inj ?_
  rw [toNat_canon hk, toNat_canon hk]
  exact_mod_cast hmod

/-- A signed word on 64 bits and its pattern are the same as far as the bits of the kind go. -/
theorem toNat_toUInt64_emod (hk : k.isInt = true) (x : Int64) :
    (x.toUInt64.toNat : Int) % 2 ^ k.bits = x.toInt % 2 ^ k.bits := by
  have hx : x.toInt = (x.toUInt64.toNat : Int).bmod (2 ^ 64) := toInt_signExtend (k := .i64) rfl x.toUInt64
  have hdvd : (2 : Int) ^ k.bits ∣ 2 ^ 64 := pow_dvd_pow 2 (by cases k <;> simp [isInt, bits, size] at hk ⊢)
  have hwrap : x.toInt % 2 ^ 64 = x.toUInt64.toNat % 2 ^ 64 := by
    rw [hx]
    exact_mod_cast Int.bmod_emod (x := (x.toUInt64.toNat : Int)) (m := 2 ^ 64)
  rw [← Int.emod_emod_of_dvd _ hdvd, ← hwrap, Int.emod_emod_of_dvd _ hdvd]

theorem number_zero (hk : k.isInt = true) (signed : Bool) : k.number signed 0 = 0 := by
  have hmod := number_emod hk signed 0
  have hzero : k.least signed ≤ 0 ∧ 0 ≤ k.greatest signed := by
    cases k <;> simp only [isInt, Bool.false_eq_true] at hk <;> cases signed <;> decide
  exact eq_of_emod hk (number_range hk signed (canon_zero k)) hzero hmod

theorem number_eq_zero (hk : k.isInt = true) (hw : k.canon w = w) : k.number signed w = 0 ↔ w = 0 := by
  refine ⟨fun h => ?_, fun h => by rw [h, number_zero hk]⟩
  exact number_inj hk hw (canon_zero k) (h.trans (number_zero hk signed).symm)

/-! ## Other widths -/

section widths

variable {j : Kind} {d : Bool}

/-- Of integer kinds, the one of more bytes has more bits. -/
theorem bits_lt (hk : k.isInt = true) (h : j.size < k.size) : j.bits < k.bits := by
  cases k <;> simp only [isInt, Bool.false_eq_true] at hk <;> cases j <;>
    simp only [size, bits] at h ⊢ <;> omega

theorem number_trunc (hk : k.isInt = true) (hj : j.isInt = true) (hle : j.bits ≤ k.bits) :
    j.number d (j.canon w) = j.wrap d (k.number signed w) := by
  have hdvd : (2 : Int) ^ j.bits ∣ 2 ^ k.bits := pow_dvd_pow 2 hle
  refine number_wrap hj ?_
  rw [← Int.emod_emod_of_dvd _ hdvd, ← number_emod hk signed, Int.emod_emod_of_dvd _ hdvd]

theorem number_zext (hj : j.isInt = true) : j.number d (j.canon w) = j.wrap d (k.number false w) :=
  number_wrap hj rfl

theorem number_sext (hj : j.isInt = true) :
    j.number d (j.canon (k.signExtend w).toUInt64) = j.wrap d (k.number true w) :=
  number_wrap hj (toNat_toUInt64_emod hj _)

end widths

/-! ## Division -/

section division

variable {x y : Int}

/-- The one quotient that is no number of the kind is that of the least number by minus one. -/
theorem tdiv_range (hx : k.least signed ≤ x ∧ x ≤ k.greatest signed)
    (hy : k.least signed ≤ y ∧ y ≤ k.greatest signed)
    (hover : ¬ (signed = true ∧ x = k.least signed ∧ y = -1)) :
    k.least signed ≤ x.tdiv y ∧ x.tdiv y ≤ k.greatest signed := by
  have habs : (x.tdiv y).natAbs = x.natAbs / y.natAbs := Int.natAbs_tdiv x y
  have hle : x.natAbs / y.natAbs ≤ x.natAbs := Nat.div_le_self _ _
  cases signed with
  | false =>
    obtain ⟨hxlow, hxhigh⟩ : 0 ≤ x ∧ x ≤ k.greatest false := hx
    have hnonneg := Int.tdiv_nonneg hxlow (show 0 ≤ y from hy.1)
    exact ⟨hnonneg, by omega⟩
  | true =>
    have hpos : (1 : Int) ≤ 2 ^ (k.bits - 1) := Int.add_one_le_of_lt (pow_pos (by decide) _)
    simp only [least, greatest, if_true] at hx hy hover ⊢
    generalize (2 : Int) ^ (k.bits - 1) = m at *
    by_cases hone : y = 1
    · rw [hone, Int.tdiv_one]
      exact hx
    by_cases hminus : y = -1
    · rw [hminus, Int.tdiv_neg, Int.tdiv_one]
      have hne : x ≠ -m := fun h => hover ⟨trivial, h, hminus⟩
      omega
    by_cases hzero : y = 0
    · rw [hzero, Int.tdiv_zero]
      omega
    · have hhalf : x.natAbs / y.natAbs ≤ x.natAbs / 2 := Nat.div_le_div_left (by omega) (by decide)
      omega

theorem tmod_range (hx : k.least signed ≤ x ∧ x ≤ k.greatest signed)
    (hy : k.least signed ≤ y ∧ y ≤ k.greatest signed) (hzero : y ≠ 0) :
    k.least signed ≤ x.tmod y ∧ x.tmod y ≤ k.greatest signed := by
  have habs : (x.tmod y).natAbs = x.natAbs % y.natAbs := Int.natAbs_tmod x y
  have hle : x.natAbs % y.natAbs ≤ x.natAbs := Nat.mod_le _ _
  have hlt : x.natAbs % y.natAbs < y.natAbs := Nat.mod_lt _ (by omega)
  cases signed with
  | false =>
    obtain ⟨hxlow, hxhigh⟩ : 0 ≤ x ∧ x ≤ k.greatest false := hx
    have hnonneg := Int.tmod_nonneg y hxlow
    exact ⟨hnonneg, by omega⟩
  | true =>
    simp only [least, greatest, if_true] at hx hy ⊢
    generalize (2 : Int) ^ (k.bits - 1) = m at *
    omega

variable {p q : UInt64}

theorem least_range (hk : k.isInt = true) (signed : Bool) :
    k.least signed ≤ k.least signed ∧ k.least signed ≤ k.greatest signed := by
  cases k <;> simp only [isInt, Bool.false_eq_true] at hk <;> cases signed <;> decide

/-- Signed words are divided exactly, but for the quotient that there is no room for. -/
theorem number_sdiv (hk : k.isInt = true) (hp : k.canon p = p) (hq : k.canon q = q) :
    k.number true (k.canon (k.signExtend p / k.signExtend q).toUInt64) =
      if k.number true p = k.least true ∧ k.number true q = -1 then k.least true
      else (k.number true p).tdiv (k.number true q) := by
  have hx := number_range hk true hp
  have hy := number_range hk true hq
  have hdvd : (2 : Int) ^ k.bits ∣ (2 ^ 64 : Nat) := by
    exact_mod_cast pow_dvd_pow 2 (by cases k <;> simp [isInt, bits, size] at hk ⊢)
  have hword : ((k.signExtend p / k.signExtend q).toUInt64.toNat : Int) % 2 ^ k.bits =
      (k.number true p).tdiv (k.number true q) % 2 ^ k.bits := by
    rw [toNat_toUInt64_emod hk, Int64.toInt_div, ← Int.emod_emod_of_dvd _ hdvd, Int.bmod_emod,
      Int.emod_emod_of_dvd _ hdvd]
    rfl
  split
  case isTrue hover =>
    have hwrap : (k.least true).tdiv (-1) % 2 ^ k.bits = k.least true % 2 ^ k.bits := by
      cases k <;> simp only [isInt, Bool.false_eq_true] at hk <;> decide
    rw [hover.1, hover.2, hwrap] at hword
    exact number_canon hk (least_range hk true) hword
  case isFalse hover => exact number_canon hk (tdiv_range hx hy fun h => hover h.2) hword

theorem number_srem (hk : k.isInt = true) (hp : k.canon p = p) (hq : k.canon q = q) (hzero : q ≠ 0) :
    k.number true (k.canon (k.signExtend p % k.signExtend q).toUInt64) =
      (k.number true p).tmod (k.number true q) := by
  have hne : k.number true q ≠ 0 := mt (number_eq_zero hk hq).mp hzero
  refine number_canon hk (tmod_range (number_range hk true hp) (number_range hk true hq) hne) ?_
  rw [toNat_toUInt64_emod hk, Int64.toInt_mod]
  rfl

theorem number_udiv (hk : k.isInt = true) (hp : k.canon p = p) (hq : k.canon q = q) :
    k.number false (k.canon (p / q)) = (k.number false p).tdiv (k.number false q) := by
  refine number_canon hk (tdiv_range (number_range hk false hp) (number_range hk false hq) (by simp)) ?_
  rw [UInt64.toNat_div, Int.ofNat_tdiv]
  rfl

theorem number_urem (hk : k.isInt = true) (hp : k.canon p = p) (hq : k.canon q = q) (hzero : q ≠ 0) :
    k.number false (k.canon (p % q)) = (k.number false p).tmod (k.number false q) := by
  have hne : k.number false q ≠ 0 := mt (number_eq_zero hk hq).mp hzero
  refine number_canon hk (tmod_range (number_range hk false hp) (number_range hk false hq) hne) ?_
  rw [UInt64.toNat_mod]
  rfl

end division

end SsaJit.Kind
