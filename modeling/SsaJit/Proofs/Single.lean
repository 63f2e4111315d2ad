import Mathlib.Algebra.Order.Ring.Nat
import SsaJit.Single

/-! Rounding whole numbers to singles. A significand of 24 bits, times a power of two, is kept as it
is; a number that is halved with the lost bit kept in the last place rounds as it did before. So an
unsigned word that is too big for a signed conversion may be converted by half and doubled. -/

namespace SsaJit.Single

variable {e n q s : Nat}

/-! ## Quotients -/

theorem roundQuotient_mul (n d : Nat) {c : Nat} (hc : 0 < c) :
    roundQuotient (n * c) (d * c) = roundQuotient n d := by
  have hup : d * c < 2 * (n % d * c) ↔ d < 2 * (n % d) := by
    rw [← Nat.mul_assoc]
    exact Nat.mul_lt_mul_right hc
  have heven : 2 * (n % d * c) = d * c ↔ 2 * (n % d) = d := by
    rw [← Nat.mul_assoc]
    exact Nat.mul_left_inj (Nat.ne_of_gt hc)
  simp only [roundQuotient, Nat.mul_div_mul_right n d hc, Nat.mul_mod_mul_right, hup, heven]

theorem roundQuotient_one (n : Nat) : roundQuotient n 1 = n := by
  simp [roundQuotient, Nat.mod_one]

/-- Half a number, its lowest bit set if there was a remainder. -/
def jam (n : Nat) : Nat := n / 2 ||| n % 2

theorem jam_eq (n : Nat) : jam n / 2 = n / 4 ∧ (jam n % 2 = 0 ↔ n % 4 = 0) := by
  have hdiv := Nat.or_div_two_pow (a := n / 2) (b := n % 2) (n := 1)
  have hmod := Nat.or_mod_two_pow (a := n / 2) (b := n % 2) (n := 1)
  rw [Nat.pow_one, Nat.mod_mod] at hmod
  rw [Nat.pow_one, show n % 2 / 2 = 0 by omega, Nat.or_zero] at hdiv
  refine ⟨by rw [jam, hdiv]; omega, ?_⟩
  rw [jam, hmod, Nat.or_eq_zero_iff]
  omega

/-- The last bit of the half decides a tie as the lost one would have. -/
theorem roundQuotient_jam (n : Nat) {c : Nat} (hc : 0 < c) :
    roundQuotient (jam n) (4 * c) = roundQuotient n (8 * c) := by
  have hjam := jam_eq n
  have hn := Nat.div_add_mod n (8 * c)
  have hlt := Nat.mod_lt n (show 0 < 8 * c by omega)
  rw [Nat.mul_assoc] at hn
  have hassoc := Nat.mul_assoc 4 c (n / (8 * c))
  obtain ⟨hquot, hrem⟩ : jam n / (4 * c) = n / (8 * c) ∧ jam n % (4 * c) = jam (n % (8 * c)) := by
    have hrem := jam_eq (n % (8 * c))
    rw [Nat.div_mod_unique (by omega), hassoc]
    omega
  have hrem' := jam_eq (n % (8 * c))
  unfold roundQuotient
  dsimp only
  rw [hquot, hrem]
  generalize n % (8 * c) = r at hlt hrem' ⊢
  refine if_congr ?_ rfl rfl
  omega

theorem le_roundQuotient (n d : Nat) : n / d ≤ roundQuotient n d ∧ roundQuotient n d ≤ n / d + 1 := by
  unfold roundQuotient
  dsimp only
  split <;> omega

/-! ## Numbers of units -/

theorem one_eq : one = 2 ^ 149 := by rw [one, Nat.shiftLeft_eq, Nat.one_mul]

theorem log2_eq (h : 2 ^ e ≤ n) (h' : n < 2 ^ (e + 1)) : n.log2 = e :=
  (Nat.log2_eq_iff (Nat.ne_of_gt (Nat.lt_of_lt_of_le (Nat.two_pow_pos e) h))).mpr ⟨h, h'⟩

/-- The significand of a number of ones. -/
theorem significand_bounds (h : 2 ^ e ≤ n) (h' : n < 2 ^ (e + 1)) (he : 23 ≤ e) :
    2 ^ 23 ≤ roundQuotient n (2 ^ (e - 23)) ∧ roundQuotient n (2 ^ (e - 23)) ≤ 2 ^ 24 := by
  have hpos := Nat.two_pow_pos (e - 23)
  have hlow : 2 ^ 23 ≤ n / 2 ^ (e - 23) := by
    rw [Nat.le_div_iff_mul_le hpos, ← Nat.pow_add, Nat.add_sub_cancel' he]
    exact h
  have hhigh : n / 2 ^ (e - 23) < 2 ^ 24 := by
    rw [Nat.div_lt_iff_lt_mul hpos, ← Nat.pow_add, show 24 + (e - 23) = e + 1 by omega]
    exact h'
  obtain ⟨hle, hge⟩ := le_roundQuotient n (2 ^ (e - 23))
  omega

/-- The pattern of a number of ones. -/
theorem roundRatio_ones (h : 2 ^ e ≤ n) (h' : n < 2 ^ (e + 1)) (he : 23 ≤ e) (he' : e < 127) :
    roundRatio (n * one) 1 = (e + 126) * 0x800000 + roundQuotient n (2 ^ (e - 23)) := by
  have hpos := Nat.two_pow_pos 149
  have hlog : (n * one).log2 = e + 149 := by
    rw [one_eq]
    refine log2_eq ?_ ?_
    · rw [Nat.pow_add]
      exact Nat.mul_le_mul_right _ h
    · rw [Nat.add_right_comm, Nat.pow_add]
      exact Nat.mul_lt_mul_of_pos_right h' hpos
  have hden : 1 <<< (e + 149 - 23) = 2 ^ (e - 23) * one := by
    rw [Nat.shiftLeft_eq, Nat.one_mul, one_eq, ← Nat.pow_add]
    congr 1
    omega
  obtain ⟨-, hq⟩ := significand_bounds h h' he
  unfold roundRatio
  dsimp only
  rw [Nat.div_one, hlog, hden, roundQuotient_mul _ _ (one_eq ▸ hpos),
    show e + 149 - 23 = e + 126 by omega]
  exact Nat.min_eq_left (by rw [infMagnitude]; omega)

/-- A significand at a power of two is its own nearest. -/
theorem roundRatio_significand (h : 2 ^ 23 ≤ q) (h' : q ≤ 2 ^ 24)
    (hs : s * 0x800000 + q < infMagnitude) : roundRatio (q * 2 ^ s) 1 = s * 0x800000 + q := by
  have hpos := Nat.two_pow_pos s
  unfold roundRatio
  dsimp only
  rw [Nat.div_one]
  rcases Nat.lt_or_eq_of_le h' with hlt | rfl
  · have hlog : (q * 2 ^ s).log2 = 23 + s := by
      refine log2_eq ?_ ?_
      · rw [Nat.pow_add]
        exact Nat.mul_le_mul_right _ h
      · rw [Nat.add_right_comm, Nat.pow_add]
        exact Nat.mul_lt_mul_of_pos_right hlt hpos
    rw [hlog, Nat.add_sub_cancel_left, Nat.shiftLeft_eq, roundQuotient_mul _ _ hpos,
      roundQuotient_one]
    exact Nat.min_eq_left (Nat.le_of_lt hs)
  · -- one more than the greatest significand is the least at the next power
    have hlog : (2 ^ 24 * 2 ^ s).log2 = 24 + s := by rw [← Nat.pow_add, Nat.log2_two_pow]
    have hnext : 2 ^ 24 * 2 ^ s = 2 ^ 23 * 2 ^ (s + 1) := by
      rw [← Nat.pow_add, ← Nat.pow_add]
      congr 1
      omega
    rw [hlog, show 24 + s - 23 = s + 1 by omega, hnext, Nat.shiftLeft_eq,
      roundQuotient_mul _ _ (Nat.two_pow_pos _), roundQuotient_one]
    have hsame : (s + 1) * 0x800000 + 2 ^ 23 = s * 0x800000 + 2 ^ 24 := by omega
    rw [hsame]
    exact Nat.min_eq_left (Nat.le_of_lt hs)

/-! ## Patterns -/

theorem magnitude_ofParts (b : Bool) (h : n < 0x80000000) : (ofParts b n).magnitude = n := by
  rw [magnitude, ofParts, UInt32.toNat_ofNat', Nat.mod_eq_of_lt h]
  cases b <;> simp only [Bool.false_eq_true, ↓reduceIte] <;> omega

theorem isNegative_ofParts (b : Bool) (h : n < 0x80000000) : (ofParts b n).isNegative = b := by
  rw [isNegative, ofParts, UInt32.toNat_ofNat', Nat.mod_eq_of_lt h]
  cases b with
  | false => exact decide_eq_false (by simp only [Bool.false_eq_true, ↓reduceIte]; omega)
  | true => exact decide_eq_true (by simp only [↓reduceIte]; omega)

theorem units_ofParts (b : Bool) (h : 2 ^ 23 ≤ q) (h' : q ≤ 2 ^ 24)
    (hs : s * 0x800000 + q < infMagnitude) : (ofParts b (s * 0x800000 + q)).units = q * 2 ^ s := by
  have hmag := magnitude_ofParts b (show s * 0x800000 + q < 0x80000000 from
    Nat.lt_trans hs (by decide))
  unfold units
  rw [hmag]
  dsimp only
  rcases Nat.lt_or_eq_of_le h' with hlt | rfl
  · rw [if_neg (by omega), Nat.shiftLeft_eq]
    congr 1
    · omega
    · congr 1
      omega
  · rw [if_neg (by omega), Nat.shiftLeft_eq, show (s * 0x800000 + 2 ^ 24) / 0x800000 - 1 = s + 1 by
      omega, show (s * 0x800000 + 2 ^ 24) % 0x800000 + 0x800000 = 2 ^ 23 by omega, ← Nat.pow_add,
      ← Nat.pow_add]
    congr 1
    omega

/-! ## Words -/

theorem ofInt_eq (h : 0 < n) : ofInt n = ofParts false (roundRatio (n * one) 1) := by
  have hone : one ≠ 0 := by rw [one_eq]; exact Nat.ne_of_gt (Nat.two_pow_pos 149)
  have hne : ((n : Int) * one) ≠ 0 := by
    rw [← Int.natCast_mul]
    exact Int.natCast_ne_zero.mpr (Nat.mul_ne_zero (Nat.ne_of_gt h) hone)
  rw [ofInt, ofUnits, if_neg hne, ← Int.natCast_mul, Int.natAbs_natCast,
    decide_eq_false (Int.not_lt.mpr (Int.natCast_nonneg _))]

/-- The double of a single that is far from infinite. -/
theorem add_self {a b : Nat} (h : 2 ^ 23 ≤ q) (h' : q ≤ 2 ^ 24) (ha : a = s * 0x800000 + q)
    (hb : b = (s + 1) * 0x800000 + q) (hlt : b < infMagnitude) :
    add (ofParts false a) (ofParts false a) = ofParts false b := by
  have hless : a < infMagnitude := Nat.lt_of_le_of_lt (by omega) hlt
  have hword : a < 0x80000000 := Nat.lt_trans hless (by decide)
  have hmag := magnitude_ofParts false hword
  have hneg := isNegative_ofParts false hword
  have hunits : (ofParts false a).units = q * 2 ^ s := by
    subst ha
    exact units_ofParts false h h' hless
  have hround : roundRatio (q * 2 ^ (s + 1)) 1 = b := by
    subst hb
    exact roundRatio_significand h h' hlt
  generalize ofParts false a = x at hmag hneg hunits ⊢
  have hnan : x.isNaN = false := by
    rw [isNaN, hmag]
    exact decide_eq_false (Nat.not_lt.mpr (Nat.le_of_lt hless))
  have hinf : x.isInf = false := by
    rw [isInf, hmag]
    exact beq_false_of_ne (Nat.ne_of_lt hless)
  have hpos : 0 < q * 2 ^ (s + 1) :=
    Nat.mul_pos (Nat.lt_of_lt_of_le (by decide) h) (Nat.two_pow_pos _)
  have hsum : x.signedUnits + x.signedUnits = ((q * 2 ^ (s + 1) : Nat) : Int) := by
    rw [signedUnits, hneg, hunits, Nat.pow_succ, ← Nat.mul_assoc, Nat.mul_comm _ 2]
    simp only [Bool.false_eq_true, ↓reduceIte]
    omega
  rw [add, nanOf, hnan, hinf, hneg, hsum]
  simp only [Bool.false_eq_true, ↓reduceIte, Bool.and_self]
  rw [ofUnits, if_neg (by omega), Int.natAbs_natCast, hround,
    decide_eq_false (Int.not_lt.mpr (Int.natCast_nonneg _))]

/-- An unsigned word too big for a signed one is the double of its jammed half. -/
theorem add_jam (h : 2 ^ 63 ≤ n) (h' : n < 2 ^ 64) :
    add (ofInt (jam n)) (ofInt (jam n)) = ofInt n := by
  have hjam := jam_eq n
  have hlow : 2 ^ 62 ≤ jam n := by omega
  have hhigh : jam n < 2 ^ (62 + 1) := by omega
  obtain ⟨hq, hq'⟩ := significand_bounds hlow hhigh (by decide)
  have hsame := roundQuotient_jam n (Nat.two_pow_pos 37)
  rw [show 4 * 2 ^ 37 = 2 ^ (62 - 23) by omega, show 8 * 2 ^ 37 = 2 ^ (63 - 23) by omega] at hsame
  rw [ofInt_eq (n := jam n) (by omega), ofInt_eq (n := n) (by omega),
    roundRatio_ones hlow hhigh (by decide) (by decide),
    roundRatio_ones (e := 63) h h' (by decide) (by decide), ← hsame]
  generalize roundQuotient (jam n) (2 ^ (62 - 23)) = q at hq hq' ⊢
  exact add_self (s := 188) hq hq' (by omega) (by omega) (by rw [infMagnitude]; omega)

end SsaJit.Single
