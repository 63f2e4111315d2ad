import Mathlib.Data.Int.ModEq
import SsaJit.Op
import SsaJit.Eval
import SsaJit.Proofs.Numbers
import SsaJit.X86.Lanes

/-! Numbers kept within the range of a kind. What is computed on words goes around where a number leaves
the range; the sign bits of operands and result tell where, and the bound on the side of the operand takes
its place. -/

namespace SsaJit

/-- A sum is what both numbers have, twice, and what one of them has. -/
theorem add_eq_two_mul_and_add_xor (a b : Nat) : a + b = 2 * (a &&& b) + (a ^^^ b) := by
  induction a using Nat.strong_induction_on generalizing b with
  | _ a ih =>
    by_cases ha : a = 0
    · simp [ha]
    have hhalf := ih (a / 2) (Nat.div_lt_self (Nat.pos_of_ne_zero ha) (by decide)) (b / 2)
    have hand := Nat.and_div_two (a := a) (b := b)
    have hxor := Nat.xor_div_two (a := a) (b := b)
    have hbit := Nat.xor_mod_two_eq_one (a := a) (b := b)
    have hboth := Nat.and_mod_two_eq_one (a := a) (b := b)
    omega

/-- The bits of either number are those of both and those of one. -/
theorem or_eq_and_add_xor (a b : Nat) : a ||| b = (a &&& b) + (a ^^^ b) := by
  induction a using Nat.strong_induction_on generalizing b with
  | _ a ih =>
    by_cases ha : a = 0
    · simp [ha]
    have hhalf := ih (a / 2) (Nat.div_lt_self (Nat.pos_of_ne_zero ha) (by decide)) (b / 2)
    have hor := Nat.or_div_two (a := a) (b := b)
    have hand := Nat.and_div_two (a := a) (b := b)
    have hxor := Nat.xor_div_two (a := a) (b := b)
    have hbit := Nat.xor_mod_two_eq_one (a := a) (b := b)
    have hboth := Nat.and_mod_two_eq_one (a := a) (b := b)
    have heither := Nat.or_mod_two_eq_one (a := a) (b := b)
    omega

namespace Kind

variable {k : Kind} {p q w : UInt64} {n x y : Int} {signed : Bool}

/-- The number of the kind that is nearest to `n`. -/
def clamp (k : Kind) (signed : Bool) (n : Int) : Int := max (k.least signed) (min (k.greatest signed) n)

/-! ## Comparisons -/

theorem evalCompare_less (k : Kind) (signed : Bool) (p q : UInt64) :
    evalCompare (if signed then .slt else .ult) k p q = decide (k.number signed p < k.number signed q) := by
  cases signed with
  | true => exact decide_eq_decide.mpr Int64.lt_iff_toInt_lt
  | false => exact decide_eq_decide.mpr (UInt64.lt_iff_toNat_lt.trans Int.ofNat_lt.symm)

theorem evalCompare_greater (k : Kind) (signed : Bool) (p q : UInt64) :
    evalCompare (if signed then .sgt else .ugt) k p q = decide (k.number signed q < k.number signed p) := by
  cases signed with
  | true => exact decide_eq_decide.mpr Int64.lt_iff_toInt_lt
  | false => exact decide_eq_decide.mpr (UInt64.lt_iff_toNat_lt.trans Int.ofNat_lt.symm)

/-! ## Words that go around -/

section around

theorem two_pow_dvd (hk : k.isInt = true) : (2 : Int) ^ k.bits ∣ 2 ^ 64 :=
  pow_dvd_pow 2 (by cases k <;> simp [isInt, bits, size] at hk ⊢)

theorem number_modEq (hk : k.isInt = true) (signed : Bool) (w : UInt64) :
    k.number signed w ≡ w.toNat [ZMOD 2 ^ k.bits] := number_emod hk signed w

theorem number_add (hk : k.isInt = true) (signed : Bool) (p q : UInt64) :
    k.number signed (k.canon (p + q)) = k.wrap signed (k.number signed p + k.number signed q) := by
  have hsum : ((p + q).toNat : Int) ≡ p.toNat + q.toNat [ZMOD 2 ^ 64] := by
    rw [UInt64.toNat_add, Int.natCast_mod, Int.natCast_add]
    exact Int.mod_modEq _ _
  exact number_wrap hk ((hsum.of_dvd (two_pow_dvd hk)).trans
    ((number_modEq hk signed p).add (number_modEq hk signed q)).symm)

theorem number_sub (hk : k.isInt = true) (signed : Bool) (p q : UInt64) :
    k.number signed (k.canon (p - q)) = k.wrap signed (k.number signed p - k.number signed q) := by
  have hdiff : ((p - q).toNat : Int) ≡ p.toNat - q.toNat [ZMOD 2 ^ 64] := by
    have hq := q.toNat_lt
    rw [UInt64.toNat_sub, Int.natCast_mod, Int.ModEq]
    omega
  exact number_wrap hk ((hdiff.of_dvd (two_pow_dvd hk)).trans
    ((number_modEq hk signed p).sub (number_modEq hk signed q)).symm)

theorem wrap_of_range (hk : k.isInt = true) (hn : k.least signed ≤ n ∧ n ≤ k.greatest signed) :
    k.wrap signed n = n := by
  cases signed with
  | false => exact Int.emod_eq_of_lt hn.1 (Int.lt_of_le_sub_one hn.2)
  | true =>
    cases k <;> simp only [isInt, Bool.false_eq_true] at hk <;>
      simp only [wrap, least, greatest, bits, size, if_true, Int.bmod] at hn ⊢ <;> omega

theorem wrap_add (k : Kind) (signed : Bool) (n : Int) :
    k.wrap signed (n + 2 ^ k.bits) = k.wrap signed n := by
  cases signed with
  | false => exact Int.add_emod_right _ _
  | true =>
    have hbmod := Int.add_bmod_right n (2 ^ k.bits)
    push_cast at hbmod
    exact hbmod

theorem greatest_eq (hk : k.isInt = true) (signed : Bool) :
    k.greatest signed = k.least signed + 2 ^ k.bits - 1 := by
  cases k <;> cases signed <;> first | rfl | cases hk

/-- Numbers that are not far out of the range go around once. -/
theorem wrap_near (hk : k.isInt = true) (hlow : k.least signed - 2 ^ k.bits ≤ n)
    (hhigh : n ≤ k.greatest signed + 2 ^ k.bits) :
    n < k.least signed ∧ k.wrap signed n = n + 2 ^ k.bits ∨
      (k.least signed ≤ n ∧ n ≤ k.greatest signed) ∧ k.wrap signed n = n ∨
      k.greatest signed < n ∧ k.wrap signed n = n - 2 ^ k.bits := by
  have hwidth := greatest_eq hk signed
  rcases lt_or_ge n (k.least signed) with hn | hn
  · refine .inl ⟨hn, ?_⟩
    rw [← wrap_add, wrap_of_range hk ⟨by omega, by omega⟩]
  rcases le_or_gt n (k.greatest signed) with hn' | hn'
  · exact .inr (.inl ⟨⟨hn, hn'⟩, wrap_of_range hk ⟨hn, hn'⟩⟩)
  · refine .inr (.inr ⟨hn', ?_⟩)
    have hback := wrap_add k signed (n - 2 ^ k.bits)
    rw [Int.sub_add_cancel] at hback
    rw [hback, wrap_of_range hk ⟨by omega, by omega⟩]

end around

/-! ## Sign bits -/

/-- A number is negative if the highest bit of its pattern is set. -/
theorem number_canon_neg (hk : k.isInt = true) (w : UInt64) :
    k.number true (k.canon w) < 0 ↔ w.toNat.testBit (k.bits - 1) = true := by
  rw [number, if_pos rfl, toInt_signExtend hk, toNat_canon hk, Nat.testBit_eq_decide_div_mod_eq,
    decide_eq_true_iff]
  cases k <;> simp only [isInt, Bool.false_eq_true] at hk <;> simp only [bits, size, Int.bmod] <;> omega

theorem number_neg (hk : k.isInt = true) (hp : k.canon p = p) :
    k.number true p < 0 ↔ p.toNat.testBit (k.bits - 1) = true := by
  rw [← number_canon_neg hk, hp]

/-- The signs differ. -/
theorem number_xor_neg (hk : k.isInt = true) (hp : k.canon p = p) (hq : k.canon q = q) :
    k.number true (k.canon (p ^^^ q)) < 0 ↔ ¬ (k.number true p < 0 ↔ k.number true q < 0) := by
  rw [number_canon_neg hk, number_neg hk hp, number_neg hk hq, UInt64.toNat_xor, Nat.testBit_xor,
    bne_iff_ne]
  exact not_congr Bool.eq_iff_iff

theorem number_and_neg (hk : k.isInt = true) (hp : k.canon p = p) (hq : k.canon q = q) :
    k.number true (k.canon (p &&& q)) < 0 ↔ k.number true p < 0 ∧ k.number true q < 0 := by
  rw [number_canon_neg hk, number_neg hk hp, number_neg hk hq, UInt64.toNat_and, Nat.testBit_and,
    Bool.and_eq_true]

/-! ## Sums and differences within the range -/

/-- The pattern of the greatest signed number. -/
def maxSigned (k : Kind) : UInt64 := k.canon ((1 <<< UInt64.ofNat (k.bits - 1)) - 1)

theorem number_minSigned (hk : k.isInt = true) : k.number true k.minSigned = k.least true := by
  cases k <;> simp only [isInt, Bool.false_eq_true] at hk <;> decide

theorem number_maxSigned (hk : k.isInt = true) : k.number true k.maxSigned = k.greatest true := by
  cases k <;> simp only [isInt, Bool.false_eq_true] at hk <;> decide

theorem number_ones (hk : k.isInt = true) : k.number false (k.canon (-1)) = k.greatest false := by
  cases k <;> simp only [isInt, Bool.false_eq_true] at hk <;> decide

theorem canon_minSigned (k : Kind) : k.canon k.minSigned = k.minSigned := by
  unfold minSigned
  split_ifs
  · exact canon_zero k
  · exact canon_canon k _

theorem canon_maxSigned (k : Kind) : k.canon k.maxSigned = k.maxSigned := canon_canon k _

/-- `r`, or the bound on the side of `p` where the sign bit of `o` is set. -/
def bounded (k : Kind) (p r o : UInt64) : UInt64 :=
  if k.number true o < 0 then if k.number true p < 0 then k.minSigned else k.maxSigned else r

theorem canon_bounded {r o : UInt64} (hr : k.canon r = r) :
    k.canon (k.bounded p r o) = k.bounded p r o := by
  unfold bounded
  split_ifs
  · exact canon_minSigned k
  · exact canon_maxSigned k
  · exact hr

theorem number_bounded (hk : k.isInt = true) {r o : UInt64} : k.number true (k.bounded p r o) =
    if k.number true o < 0 then if k.number true p < 0 then k.least true else k.greatest true
    else k.number true r := by
  rw [bounded, apply_ite (k.number true), apply_ite (k.number true), number_minSigned hk,
    number_maxSigned hk]

/-- A sum of words within the range. Signed ones leave it if both signs differ from that of the sum. -/
def sumWord (k : Kind) (signed : Bool) (p q : UInt64) : UInt64 :=
  let r := k.canon (p + q)
  if signed then k.bounded p r (k.canon (k.canon (p ^^^ r) &&& k.canon (q ^^^ r)))
  else if k.number false r < k.number false p then k.canon (-1) else r

/-- A difference of words within the range. Signed ones leave it if the signs differ and that of the
difference differs from the first. -/
def differenceWord (k : Kind) (signed : Bool) (p q : UInt64) : UInt64 :=
  let r := k.canon (p - q)
  if signed then k.bounded p r (k.canon (k.canon (p ^^^ q) &&& k.canon (p ^^^ r)))
  else if k.number false p < k.number false q then 0 else r

theorem canon_sumWord (k : Kind) (signed : Bool) (p q : UInt64) :
    k.canon (k.sumWord signed p q) = k.sumWord signed p q := by
  have hsum := canon_canon k (p + q)
  simp only [sumWord]
  split_ifs
  · exact canon_bounded hsum
  · exact canon_canon k _
  · exact hsum

theorem canon_differenceWord (k : Kind) (signed : Bool) (p q : UInt64) :
    k.canon (k.differenceWord signed p q) = k.differenceWord signed p q := by
  have hdiff := canon_canon k (p - q)
  simp only [differenceWord]
  split_ifs
  · exact canon_bounded hdiff
  · exact canon_zero k
  · exact hdiff

theorem least_nonpos (hk : k.isInt = true) (signed : Bool) : k.least signed ≤ 0 ∧ 0 ≤ k.greatest signed := by
  have hrange := number_range hk signed (canon_zero k)
  rwa [number_zero hk] at hrange

section sums

variable (hk : k.isInt = true) (hx : k.least signed ≤ x ∧ x ≤ k.greatest signed)
  (hy : k.least signed ≤ y ∧ y ≤ k.greatest signed)

include hk hx hy

theorem wrap_sum : x + y < k.least signed ∧ k.wrap signed (x + y) = x + y + 2 ^ k.bits ∨
    (k.least signed ≤ x + y ∧ x + y ≤ k.greatest signed) ∧ k.wrap signed (x + y) = x + y ∨
    k.greatest signed < x + y ∧ k.wrap signed (x + y) = x + y - 2 ^ k.bits := by
  have hwidth := greatest_eq hk signed
  have hzero := least_nonpos hk signed
  exact wrap_near hk (by omega) (by omega)

theorem wrap_difference : x - y < k.least signed ∧ k.wrap signed (x - y) = x - y + 2 ^ k.bits ∨
    (k.least signed ≤ x - y ∧ x - y ≤ k.greatest signed) ∧ k.wrap signed (x - y) = x - y ∨
    k.greatest signed < x - y ∧ k.wrap signed (x - y) = x - y - 2 ^ k.bits := by
  have hwidth := greatest_eq hk signed
  have hzero := least_nonpos hk signed
  exact wrap_near hk (by omega) (by omega)

end sums

/-- Signs tell where a sum goes around. -/
theorem clamp_sum (hk : k.isInt = true) (hx : k.least true ≤ x ∧ x ≤ k.greatest true)
    (hy : k.least true ≤ y ∧ y ≤ k.greatest true) : k.clamp true (x + y) =
      if ¬ (x < 0 ↔ k.wrap true (x + y) < 0) ∧ ¬ (y < 0 ↔ k.wrap true (x + y) < 0) then
        if x < 0 then k.least true else k.greatest true
      else k.wrap true (x + y) := by
  have hwidth := greatest_eq hk true
  have hzero := least_nonpos hk true
  have hwrap := wrap_sum hk hx hy
  have hhalf : k.greatest true = -k.least true - 1 := by simp [least, greatest]
  unfold clamp
  split_ifs <;> omega

theorem clamp_difference (hk : k.isInt = true) (hx : k.least true ≤ x ∧ x ≤ k.greatest true)
    (hy : k.least true ≤ y ∧ y ≤ k.greatest true) : k.clamp true (x - y) =
      if ¬ (x < 0 ↔ y < 0) ∧ ¬ (x < 0 ↔ k.wrap true (x - y) < 0) then
        if x < 0 then k.least true else k.greatest true
      else k.wrap true (x - y) := by
  have hwidth := greatest_eq hk true
  have hzero := least_nonpos hk true
  have hwrap := wrap_difference hk hx hy
  have hhalf : k.greatest true = -k.least true - 1 := by simp [least, greatest]
  unfold clamp
  split_ifs <;> omega

theorem clamp_sum_unsigned (hk : k.isInt = true) (hx : k.least false ≤ x ∧ x ≤ k.greatest false)
    (hy : k.least false ≤ y ∧ y ≤ k.greatest false) : k.clamp false (x + y) =
      if k.wrap false (x + y) < x then k.greatest false else k.wrap false (x + y) := by
  have hwidth := greatest_eq hk false
  have hwrap := wrap_sum hk hx hy
  have hlow : k.least false = 0 := rfl
  unfold clamp
  split_ifs <;> omega

theorem clamp_difference_unsigned (hk : k.isInt = true) (hx : k.least false ≤ x ∧ x ≤ k.greatest false)
    (hy : k.least false ≤ y ∧ y ≤ k.greatest false) : k.clamp false (x - y) =
      if x < y then 0 else k.wrap false (x - y) := by
  have hwidth := greatest_eq hk false
  have hwrap := wrap_difference hk hx hy
  have hlow : k.least false = 0 := rfl
  unfold clamp
  split_ifs <;> omega

theorem number_sumWord (hk : k.isInt = true) (hp : k.canon p = p) (hq : k.canon q = q) :
    k.number signed (k.sumWord signed p q) = k.clamp signed (k.number signed p + k.number signed q) := by
  have hx := number_range hk signed hp
  have hy := number_range hk signed hq
  have hsum := number_add hk signed p q
  have hr := canon_canon k (p + q)
  unfold sumWord
  cases signed with
  | true =>
    rw [if_pos rfl, number_bounded hk, clamp_sum hk hx hy, ← hsum]
    simp only [number_and_neg hk (canon_canon k _) (canon_canon k _), number_xor_neg hk hp hr,
      number_xor_neg hk hq hr]
  | false =>
    rw [if_neg (by decide), apply_ite (k.number false), number_ones hk, hsum, clamp_sum_unsigned hk hx hy]

theorem number_differenceWord (hk : k.isInt = true) (hp : k.canon p = p) (hq : k.canon q = q) :
    k.number signed (k.differenceWord signed p q) =
      k.clamp signed (k.number signed p - k.number signed q) := by
  have hx := number_range hk signed hp
  have hy := number_range hk signed hq
  have hdiff := number_sub hk signed p q
  have hr := canon_canon k (p - q)
  unfold differenceWord
  cases signed with
  | true =>
    rw [if_pos rfl, number_bounded hk, clamp_difference hk hx hy, ← hdiff]
    simp only [number_and_neg hk (canon_canon k _) (canon_canon k _), number_xor_neg hk hp hr,
      number_xor_neg hk hp hq]
  | false =>
    rw [if_neg (by decide), apply_ite (k.number false), number_zero hk, hdiff,
      clamp_difference_unsigned hk hx hy]

/-! ## Means -/

/-- The mean of two words, rounded up: what both have, and half of what one of them has. -/
def meanWord (k : Kind) (signed : Bool) (p q : UInt64) : UInt64 :=
  let differing := k.canon (p ^^^ q)
  let half := k.canon (if signed then (k.signExtend differing >>> 1).toUInt64 else differing >>> 1)
  k.canon (k.canon (p ||| q) - half)

theorem canon_meanWord (k : Kind) (signed : Bool) (p q : UInt64) :
    k.canon (k.meanWord signed p q) = k.meanWord signed p q := canon_canon k _

/-- A number is its pattern, less a power of two if the highest bit is set. -/
theorem number_eq_sub (hk : k.isInt = true) (hp : k.canon p = p) : k.number signed p = p.toNat -
    if signed = true ∧ p.toNat.testBit (k.bits - 1) = true then 2 ^ k.bits else 0 := by
  cases signed with
  | false => simp [number]
  | true =>
    have hlow := toNat_canon hk p
    rw [hp] at hlow
    rw [number, if_pos rfl, toInt_signExtend hk, Nat.testBit_eq_decide_div_mod_eq]
    simp only [true_and, decide_eq_true_iff]
    cases k <;> simp only [isInt, Bool.false_eq_true] at hk <;> simp only [bits, size, Int.bmod] at hlow ⊢ <;>
      omega

theorem canon_iff_lt (hk : k.isInt = true) : k.canon p = p ↔ p.toNat < 2 ^ k.bits := by
  rw [← UInt64.toNat_inj, toNat_canon hk]
  exact ⟨fun h => h ▸ Nat.mod_lt _ (Nat.two_pow_pos _), Nat.mod_eq_of_lt⟩

/-- A sum of numbers is what both have, twice, and what one of them has. -/
theorem number_add_eq (hk : k.isInt = true) (signed : Bool) (hp : k.canon p = p)
    (hq : k.canon q = q) :
    k.number signed p + k.number signed q =
      2 * k.number signed (k.canon (p &&& q)) + k.number signed (k.canon (p ^^^ q)) ∧
    k.number signed (k.canon (p ||| q)) =
      k.number signed (k.canon (p &&& q)) + k.number signed (k.canon (p ^^^ q)) := by
  have hp' := (canon_iff_lt hk).mp hp
  have hq' := (canon_iff_lt hk).mp hq
  have hand : k.canon (p &&& q) = p &&& q :=
    (canon_iff_lt hk).mpr (by rw [UInt64.toNat_and]; exact Nat.and_lt_two_pow _ hq')
  have hor : k.canon (p ||| q) = p ||| q :=
    (canon_iff_lt hk).mpr (by rw [UInt64.toNat_or]; exact Nat.or_lt_two_pow hp' hq')
  have hxor : k.canon (p ^^^ q) = p ^^^ q :=
    (canon_iff_lt hk).mpr (by rw [UInt64.toNat_xor]; exact Nat.xor_lt_two_pow hp' hq')
  have hsum := add_eq_two_mul_and_add_xor p.toNat q.toNat
  have hunion := or_eq_and_add_xor p.toNat q.toNat
  rw [hand, hor, hxor, number_eq_sub hk hp, number_eq_sub hk hq, number_eq_sub hk hand, number_eq_sub hk hor,
    number_eq_sub hk hxor, UInt64.toNat_and, UInt64.toNat_or, UInt64.toNat_xor, Nat.testBit_and,
    Nat.testBit_or, Nat.testBit_xor]
  cases signed <;> cases p.toNat.testBit (k.bits - 1) <;> cases q.toNat.testBit (k.bits - 1) <;>
    simp <;> omega

theorem toInt_half (i : Int64) : (i >>> 1).toInt = i.toInt / 2 := by
  have hbits : (i >>> 1).toBitVec = i.toBitVec.sshiftRight 1 := rfl
  rw [← Int64.toInt_toBitVec, hbits, BitVec.toInt_sshiftRight, Int.shiftRight_eq_div_pow]
  rfl

/-- Half of a number, rounded down. -/
theorem number_half (hk : k.isInt = true) (signed : Bool) (hp : k.canon p = p) :
    k.number signed (k.canon (if signed then (k.signExtend p >>> 1).toUInt64 else p >>> 1)) =
      k.number signed p / 2 := by
  have hrange := number_range hk signed hp
  cases signed with
  | false =>
    have hhalf : (p >>> 1).toNat = p.toNat / 2 := by
      rw [UInt64.toNat_shiftRight]
      exact Nat.shiftRight_eq_div_pow _ 1
    have hlt : k.canon (p >>> 1) = p >>> 1 := (canon_iff_lt hk).mpr
      (hhalf ▸ Nat.lt_of_le_of_lt (Nat.div_le_self _ _) ((canon_iff_lt hk).mp hp))
    rw [if_neg (by decide), hlt, number, number, if_neg (by decide), if_neg (by decide), hhalf]
    exact Int.natCast_div _ _
  | true =>
    have hzero := least_nonpos hk true
    rw [if_pos rfl]
    refine number_canon hk ⟨by omega, by omega⟩ ?_
    rw [toNat_toUInt64_emod hk, toInt_half]
    rfl

theorem number_meanWord (hk : k.isInt = true) (hp : k.canon p = p) (hq : k.canon q = q) :
    k.number signed (k.meanWord signed p q) = (k.number signed p + k.number signed q + 1) / 2 := by
  have hx := number_range hk signed hp
  have hy := number_range hk signed hq
  obtain ⟨hsum, hunion⟩ := number_add_eq hk signed hp hq
  have hhalf := number_half hk signed (canon_canon k (p ^^^ q))
  have hmean : k.number signed (k.canon (p ||| q)) - k.number signed (k.canon (p ^^^ q)) / 2 =
      (k.number signed p + k.number signed q + 1) / 2 := by omega
  rw [meanWord, number_sub hk, hhalf, hmean]
  exact wrap_of_range hk ⟨by omega, by omega⟩

/-! ## Numbers of another kind -/

section other

variable {j : Kind} {source dest : Bool}

theorem clamp_range (hk : k.isInt = true) (signed : Bool) (n : Int) :
    k.least signed ≤ k.clamp signed n ∧ k.clamp signed n ≤ k.greatest signed := by
  have hzero := least_nonpos hk signed
  exact ⟨le_max_left _ _, max_le (hzero.1.trans hzero.2) (min_le_left _ _)⟩

/-- A number within the range of the kind that is given as a constant. -/
theorem number_const (hk : k.isInt = true) (hn : k.least signed ≤ n ∧ n ≤ k.greatest signed)
    (hword : -2 ^ 63 ≤ n ∧ n < 2 ^ 63) : k.number signed (k.canon (Int64.ofInt n).toUInt64) = n := by
  refine number_canon hk hn ?_
  rw [toNat_toUInt64_emod hk, Int64.toInt_ofInt_of_le hword.1 hword.2]

/-- A word brought into the range of a kind with fewer bits. Only words with a sign can lie below it. -/
def clampWord (j k : Kind) (source dest : Bool) (p : UInt64) : UInt64 :=
  let upper := j.canon (Int64.ofInt (k.greatest dest)).toUInt64
  let lower := j.canon (Int64.ofInt (k.least dest)).toUInt64
  let r := if j.number source upper < j.number source p then upper else p
  if source then if j.number true r < j.number true lower then lower else r else r

/-- The numbers of a kind with fewer bits are numbers of the wider kind, with a sign at least. -/
theorem range_lt (hk : k.isInt = true) (hj : j.isInt = true) (h : k.bits < j.bits) (source dest : Bool) :
    j.least true ≤ k.least dest ∧ k.greatest dest ≤ j.greatest source ∧ -2 ^ 63 ≤ k.least dest ∧
      k.greatest dest < 2 ^ 63 := by
  cases k <;> simp only [isInt, Bool.false_eq_true] at hk <;> cases j <;>
    simp only [isInt, Bool.false_eq_true, bits, size] at hj h <;> first
      | omega
      | (cases source <;> cases dest <;> decide)

theorem number_clampWord (hk : k.isInt = true) (hj : j.isInt = true) (h : k.bits < j.bits)
    (hp : j.canon p = p) :
    j.number source (j.clampWord k source dest p) = k.clamp dest (j.number source p) := by
  have hx := number_range hj source hp
  have hzero := least_nonpos hk dest
  have hzero' := least_nonpos hj source
  obtain ⟨hlow, hhigh, hmin, hmax⟩ := range_lt hk hj h source dest
  have hupper : j.number source (j.canon (Int64.ofInt (k.greatest dest)).toUInt64) = k.greatest dest :=
    number_const hj ⟨by omega, hhigh⟩ ⟨by omega, hmax⟩
  unfold clampWord clamp
  cases source with
  | true =>
    have hlower : j.number true (j.canon (Int64.ofInt (k.least dest)).toUInt64) = k.least dest :=
      number_const hj ⟨hlow, by omega⟩ ⟨hmin, by omega⟩
    rw [if_pos rfl, apply_ite (j.number true), apply_ite (j.number true), hupper, hlower]
    split_ifs <;> omega
  | false =>
    have hnonneg : 0 ≤ j.number false p := hx.1
    rw [if_neg (by decide), apply_ite (j.number false), hupper]
    split_ifs <;> omega

/-- The bits that the narrower kind takes of a word within its range stand for the same number. -/
theorem number_narrowed (hk : k.isInt = true) (hj : j.isInt = true) (h : k.bits < j.bits)
    (hp : j.canon p = p) : k.number dest (k.canon (j.clampWord k source dest p)) =
      k.clamp dest (j.number source p) := by
  have hcut : k.number dest (k.canon (j.clampWord k source dest p)) =
      k.wrap dest (j.number source (j.clampWord k source dest p)) := number_trunc hj hk h.le
  rw [hcut, number_clampWord hk hj h hp]
  exact wrap_of_range hk (clamp_range hk dest _)

end other

/-! ## Saturating instructions -/

theorem number_clampSigned (hk : k.isInt = true) (n : Int) :
    k.number true (k.canon (X86.clampSigned k n)) = k.clamp true n := by
  have hclamp : X86.clampSigned k n = (Int64.ofInt (k.clamp true n)).toUInt64 := by
    simp [X86.clampSigned, clamp, least, greatest, Nat.shiftLeft_eq]
  have hrange := clamp_range hk true n
  have hwidth : -2 ^ 63 ≤ k.least true ∧ k.greatest true < 2 ^ 63 := by
    cases k <;> simp only [isInt, Bool.false_eq_true] at hk <;> decide
  rw [hclamp]
  exact number_const hk hrange ⟨by omega, by omega⟩

theorem number_clampUnsigned (hk : k.isInt = true) (n : Int) :
    k.number false (k.canon (X86.clampUnsigned k n)) = k.clamp false n := by
  have hclamp : X86.clampUnsigned k n = UInt64.ofNat (k.clamp false n).toNat := by
    simp [X86.clampUnsigned, clamp, least, greatest, Nat.shiftLeft_eq]
  have hrange := clamp_range hk false n
  have hwidth : k.greatest false < 2 ^ 64 := by
    cases k <;> simp only [isInt, Bool.false_eq_true] at hk <;> decide
  have hlow : k.least false = 0 := rfl
  refine number_canon hk hrange ?_
  rw [hclamp, UInt64.toNat_ofNat_of_lt' (by rw [UInt64.size]; omega), Int.toNat_of_nonneg (by omega)]

/-- The sum of two words of less than eight bytes has room for what it is rounded up by. -/
theorem number_average (hk : k.isInt = true) (hsize : k.size < 8) (hp : k.canon p = p) (hq : k.canon q = q) :
    k.number false (k.canon ((p + q + 1) >>> 1)) = (k.number false p + k.number false q + 1) / 2 := by
  have hx := number_range hk false hp
  have hy := number_range hk false hq
  have hbits : (2 : Int) ^ k.bits ≤ 2 ^ 32 := by
    cases k <;> simp_all [isInt, size, bits]
  have hlow : k.least false = 0 := rfl
  have hhigh : k.greatest false = 2 ^ k.bits - 1 := rfl
  have hnum : ∀ w : UInt64, k.number false w = w.toNat := fun _ => rfl
  have hword : ((p + q + 1) >>> 1).toNat = (p.toNat + q.toNat + 1) / 2 := by
    have hsum : (p + q + 1).toNat = p.toNat + q.toNat + 1 := by
      rw [hnum] at hx hy
      rw [UInt64.toNat_add, UInt64.toNat_add, UInt64.toNat_one]
      omega
    rw [UInt64.toNat_shiftRight, hsum]
    exact Nat.shiftRight_eq_div_pow _ 1
  refine number_canon hk ⟨by omega, by omega⟩ ?_
  rw [hword, hnum, hnum]
  push_cast
  rfl

end Kind

end SsaJit
