import Mathlib.Data.Nat.Dist
import SsaJit.Proofs.Lower.Cast

/-! Unsigned words as singles. A single has 24 significant bits; a word that needs more is rounded, to the
nearest number that has room and to the even one of two. The machine converts signed words only, so one
with its top bit set is converted by half, the lost bit kept in the last place, and doubled: that
rounds as if the word had been converted at once. -/

namespace SsaJit

namespace Single

variable {e n q d : Nat}

/-! ## Rounding whole numbers -/

/-- The distance of neighbours among the numbers with 24 significant bits, as far up as `n`. -/
def ulp (n : Nat) : Nat := 2 ^ (n.log2 - 23)

/-- The number rounded to 24 significant bits. -/
def rounded (n : Nat) : Nat := roundQuotient n (ulp n) * ulp n

theorem ulp_pos (n : Nat) : 0 < ulp n := Nat.two_pow_pos _

/-- A number is at most half a unit from its rounded quotient, and if it is, that is even. -/
theorem roundQuotient_half (n : Nat) (hd : 0 < d) :
    2 * Nat.dist n (roundQuotient n d * d) ≤ d ∧
      (2 * Nat.dist n (roundQuotient n d * d) = d → roundQuotient n d % 2 = 0) := by
  have hn := Nat.div_add_mod n d
  have hlt := Nat.mod_lt n hd
  have hnext : (n / d + 1) * d = n / d * d + d := Nat.succ_mul _ _
  rw [Nat.mul_comm] at hn
  unfold roundQuotient Nat.dist
  dsimp only
  split
  · rw [hnext]
    omega
  · omega

/-- Different multiples are at least one unit apart. -/
theorem mul_apart (p q d : Nat) : p = q ∨ p * d + d ≤ q * d ∨ q * d + d ≤ p * d := by
  rcases Nat.lt_trichotomy p q with h | h | h
  · exact .inr (.inl (by simpa only [Nat.succ_mul] using Nat.mul_le_mul_right d h))
  · exact .inl h
  · exact .inr (.inr (by simpa only [Nat.succ_mul] using Nat.mul_le_mul_right d h))

/-- No other number with 24 significant bits is nearer, and if one is as near, the bits of this one are
an even number. -/
theorem rounded_nearest (n p : Nat) : Nat.dist n (rounded n) ≤ Nat.dist n (p * ulp n) ∧
    (p * ulp n ≠ rounded n → Nat.dist n (rounded n) = Nat.dist n (p * ulp n) →
      roundQuotient n (ulp n) % 2 = 0) := by
  obtain ⟨hhalf, heven⟩ := roundQuotient_half n (ulp_pos n)
  change 2 * Nat.dist n (rounded n) ≤ ulp n at hhalf
  change 2 * Nat.dist n (rounded n) = ulp n → _ at heven
  rcases mul_apart p (roundQuotient n (ulp n)) (ulp n) with rfl | h
  · exact ⟨Nat.le_refl _, fun hne => absurd rfl hne⟩
  · change p * ulp n + ulp n ≤ rounded n ∨ rounded n + ulp n ≤ p * ulp n at h
    unfold Nat.dist at hhalf heven ⊢
    exact ⟨by omega, fun _ hsame => heven (by omega)⟩

theorem ulp_eq (h : 2 ^ e ≤ n) (h' : n < 2 ^ (e + 1)) : ulp n = 2 ^ (e - 23) := by
  rw [ulp, log2_eq h h']

/-- Up to 24 bits there is nothing to round. -/
theorem rounded_of_lt (h : n < 2 ^ 24) : rounded n = n := by
  have hlog : n.log2 - 23 = 0 := by
    rcases Nat.eq_zero_or_pos n with rfl | hpos
    · rfl
    · have := (Nat.log2_lt (Nat.ne_of_gt hpos)).mpr h
      omega
  rw [rounded, ulp, hlog, Nat.pow_zero, roundQuotient_one, Nat.mul_one]

/-- Half of a word with its top bit set, rounded with the lost bit in its last place, is half of what
the word is rounded to. -/
theorem two_mul_rounded_jam (h : 2 ^ 63 ≤ n) (h' : n < 2 ^ 64) :
    2 * rounded (jam n) = rounded n := by
  have hjam := jam_eq n
  have hulp : ulp (jam n) = 4 * 2 ^ 37 := ulp_eq (e := 62) (by omega) (by omega)
  have hulp' : ulp n = 8 * 2 ^ 37 := ulp_eq (e := 63) h h'
  rw [rounded, rounded, hulp, hulp', roundQuotient_jam n (Nat.two_pow_pos 37)]
  omega

/-! ## Their patterns -/

/-- The single stands for a whole number. -/
structure Is (x : Single) (n : Nat) : Prop where
  sign : x.isNegative = false
  finite : x.magnitude < infMagnitude
  units : x.units = n * one

theorem is_ofParts {s : Nat} (h : 2 ^ 23 ≤ q) (h' : q ≤ 2 ^ 24)
    (hs : s * 0x800000 + q < infMagnitude) (hn : q * 2 ^ s = n * one) :
    Is (ofParts false (s * 0x800000 + q)) n := by
  have hword : s * 0x800000 + q < 0x80000000 := Nat.lt_trans hs (by decide)
  exact ⟨isNegative_ofParts false hword, by rwa [magnitude_ofParts false hword],
    (units_ofParts false h h' hs).trans hn⟩

/-- Words are converted to what they are rounded to. -/
theorem ofInt_is (h : n < 2 ^ 64) : Is (ofInt n) (rounded n) := by
  rcases Nat.eq_zero_or_pos n with rfl | hpos
  · exact ⟨rfl, by decide, by rw [rounded_of_lt (by decide), Nat.zero_mul]; rfl⟩
  obtain ⟨e, hlow, hhigh⟩ : ∃ e, 2 ^ e ≤ n ∧ n < 2 ^ (e + 1) :=
    ⟨n.log2, Nat.log2_self_le (Nat.ne_of_gt hpos), Nat.lt_log2_self⟩
  have hpow : 2 ^ e < 2 ^ 64 := Nat.lt_of_le_of_lt hlow h
  have he : e < 64 := (Nat.pow_lt_pow_iff_right Nat.one_lt_two).mp hpow
  rw [ofInt_eq hpos]
  by_cases hfew : e < 23
  · -- filled up with zeros to 24 bits
    have hfill : n * 2 ^ (23 - e) * 2 ^ (e + 126) = n * one := by
      rw [Nat.mul_assoc, ← Nat.pow_add, one_eq]
      congr 2
      omega
    have hq : 2 ^ 23 ≤ n * 2 ^ (23 - e) := by
      calc 2 ^ 23 = 2 ^ e * 2 ^ (23 - e) := by
            rw [← Nat.pow_add, show e + (23 - e) = 23 by omega]
        _ ≤ n * 2 ^ (23 - e) := Nat.mul_le_mul_right _ hlow
    have hq' : n * 2 ^ (23 - e) ≤ 2 ^ 24 := by
      calc n * 2 ^ (23 - e) ≤ 2 ^ (e + 1) * 2 ^ (23 - e) := Nat.mul_le_mul_right _ (Nat.le_of_lt hhigh)
        _ = 2 ^ 24 := by rw [← Nat.pow_add, show e + 1 + (23 - e) = 24 by omega]
    have hfin : (e + 126) * 0x800000 + n * 2 ^ (23 - e) < infMagnitude := by
      rw [infMagnitude]
      omega
    have hsmall : n < 2 ^ 24 :=
      Nat.lt_of_lt_of_le hhigh (Nat.pow_le_pow_right (by decide) (by omega))
    rw [rounded_of_lt hsmall, ← hfill, roundRatio_significand hq hq' hfin]
    exact is_ofParts hq hq' hfin hfill
  · obtain ⟨hq, hq'⟩ := significand_bounds hlow hhigh (Nat.le_of_not_lt hfew)
    rw [roundRatio_ones hlow hhigh (by omega) (by omega)]
    refine is_ofParts hq hq' (by rw [infMagnitude]; omega) ?_
    rw [rounded, ulp_eq hlow hhigh, Nat.mul_assoc, one_eq, ← Nat.pow_add]
    congr 2
    omega

end Single

namespace Lower

open X86

/-- A number is rounded to 24 significant bits, to the nearest and to the even one of two. Converting
half of a word and doubling rounds as converting the word does; so the code of an unsigned conversion
leaves, for every word, the single that folding gives, and that stands for the rounded number. -/
theorem unsigned_conversion_rounds :
    (∀ n p, Nat.dist n (Single.rounded n) ≤ Nat.dist n (p * Single.ulp n) ∧
      (p * Single.ulp n ≠ Single.rounded n →
        Nat.dist n (Single.rounded n) = Nat.dist n (p * Single.ulp n) →
        Single.roundQuotient n (Single.ulp n) % 2 = 0)) ∧
    (∀ n, 2 ^ 63 ≤ n → n < 2 ^ 64 → 2 * Single.rounded (n >>> 1 ||| n &&& 1) = Single.rounded n ∧
      (Single.add (.ofInt (n >>> 1 ||| n &&& 1 : Nat)) (.ofInt (n >>> 1 ||| n &&& 1 : Nat))).Is
        (Single.rounded n)) ∧
    (∀ n : Nat, n < 2 ^ 63 → (Single.ofInt n).Is (Single.rounded n)) ∧
    ∀ (w : UInt64) (d e : Int32) (l : Label), ∃ x : Single,
      evalCast .uitofp .i64 .f32 w = some x.toWord ∧ x.Is (Single.rounded w.toNat) ∧
        Turns (cast .uitofp .i64 .f32 (inFrame d) (inFrame e) l (l + 1)) (inFrame e) .i64 w
          (inFrame d) .f32 x.toWord := by
  refine ⟨Single.rounded_nearest, fun n h h' => ?_, fun n h => Single.ofInt_is (by omega),
    fun w d e l => ⟨.ofInt w.toNat, rfl, Single.ofInt_is w.toNat_lt, ?_⟩⟩
  · have hjam : n >>> 1 ||| n &&& 1 = Single.jam n := by
      rw [Nat.shiftRight_eq_div_pow, Nat.and_one_is_mod]
      rfl
    rw [hjam, Single.add_jam h h']
    exact ⟨Single.two_mul_rounded_jam h h', Single.ofInt_is h'⟩
  · exact turns_unsigned rfl rfl d e (Int.ne_of_gt (Int.lt_succ l))

/-- One more than half way between two singles: the bit that halving loses decides. -/
theorem unsigned_conversion_rounds_decided :
    2 * Single.rounded (0x8000008000000001 >>> 1 ||| 0x8000008000000001 &&& 1) = 0x8000010000000000 ∧
    ∃ x : Single, evalCast .uitofp .i64 .f32 0x8000008000000001 = some x.toWord ∧
      x.Is 0x8000010000000000 ∧
      Turns (cast .uitofp .i64 .f32 (inFrame (-16)) (inFrame (-8)) 0 1) (inFrame (-8)) .i64
        0x8000008000000001 (inFrame (-16)) .f32 x.toWord := by
  obtain ⟨-, hhalf, -, hword⟩ := unsigned_conversion_rounds
  have hup : Single.rounded 0x8000008000000001 = 0x8000010000000000 := by decide +kernel
  obtain ⟨hsame, -⟩ := hhalf 0x8000008000000001 (by decide) (by decide)
  obtain ⟨x, hfold, hx, hturns⟩ := hword 0x8000008000000001 (-16) (-8) 0
  exact ⟨hsame.trans hup, x, hfold, hup ▸ hx, hturns⟩

end Lower
end SsaJit
