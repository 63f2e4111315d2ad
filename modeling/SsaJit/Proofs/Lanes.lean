import Mathlib.Algebra.Order.Ring.Nat
import SsaJit.Proofs.Ssa.Form

/-! Lanes that fit a kind: which patterns survive being cut to it, and that operations on lanes that
fit give lanes that fit. -/

namespace SsaJit

variable {k : Kind} {a b w : UInt64}

namespace Kind

theorem canon_canon (k : Kind) (w : UInt64) : k.canon (k.canon w) = k.canon w := by
  cases k <;> simp [canon, UInt64.and_assoc]

theorem cut_canon (hk : k.size ≠ 0) : k.cut (k.canon w) = k.canon w := by
  rw [cut, if_neg hk, canon_canon]

theorem cut_cut (k : Kind) (w : UInt64) : k.cut (k.cut w) = k.cut w := by
  unfold cut
  split
  · rfl
  · exact canon_canon k w

@[simp] theorem canon_zero (k : Kind) : k.canon 0 = 0 := by
  cases k <;> simp [canon]

@[simp] theorem cut_zero (k : Kind) : k.cut 0 = 0 := by
  unfold cut
  split
  · rfl
  · exact canon_zero k

/-- A pattern that fits is the same after every cut. -/
theorem canon_of_cut (h : k.cut w = w) : k.canon w = w := by
  unfold cut at h
  split at h
  · rw [← h, canon_zero]
  · exact h

theorem size_ne_zero_of_isInt (h : k.isInt = true) : k.size ≠ 0 := by
  cases k <;> simp_all [isInt, size]

theorem and_mask_toNat {n : Nat} {m : UInt64} (hm : m.toNat = 2 ^ n - 1) (h : w &&& m = w) :
    w.toNat < 2 ^ n := by
  have := congrArg UInt64.toNat h
  rw [UInt64.toNat_and, hm, Nat.and_two_pow_sub_one_eq_mod] at this
  rw [← this]
  exact Nat.mod_lt _ (Nat.two_pow_pos n)

theorem and_mask_of_lt {n : Nat} {m : UInt64} (hm : m.toNat = 2 ^ n - 1) (h : w.toNat < 2 ^ n) :
    w &&& m = w := by
  apply UInt64.toNat.inj
  rw [UInt64.toNat_and, hm, Nat.and_two_pow_sub_one_eq_mod, Nat.mod_eq_of_lt h]

/-- A divisor that fits its kind is zero as a signed number only if it is zero. -/
theorem eq_zero_of_signExtend (hk : k.isInt = true) (hw : k.cut w = w)
    (h : k.signExtend w = 0) : w = 0 := by
  have hw := canon_of_cut hw
  cases k with
  | i1 =>
    by_cases hb : w &&& 1 = 0
    · simpa [canon, hb] using hw.symm
    · simp [signExtend, hb] at h
  | i8 =>
    have hlt : w.toNat < 2 ^ 8 := and_mask_toNat (by decide) hw
    have h8 : w.toUInt8.toInt8 = 0 := by
      apply Int8.toInt.inj
      rw [← Int8.toInt_toInt64]
      exact congrArg Int64.toInt h
    have hz : w.toUInt8 = 0 := congrArg Int8.toUInt8 h8
    have := congrArg UInt8.toNat hz
    rw [UInt64.toNat_toUInt8, Nat.mod_eq_of_lt hlt] at this
    exact UInt64.toNat.inj this
  | i16 =>
    have hlt : w.toNat < 2 ^ 16 := and_mask_toNat (by decide) hw
    have h16 : w.toUInt16.toInt16 = 0 := by
      apply Int16.toInt.inj
      rw [← Int16.toInt_toInt64]
      exact congrArg Int64.toInt h
    have hz : w.toUInt16 = 0 := congrArg Int16.toUInt16 h16
    have := congrArg UInt16.toNat hz
    rw [UInt64.toNat_toUInt16, Nat.mod_eq_of_lt hlt] at this
    exact UInt64.toNat.inj this
  | i32 =>
    have hlt : w.toNat < 2 ^ 32 := and_mask_toNat (by decide) hw
    have h32 : w.toUInt32.toInt32 = 0 := by
      apply Int32.toInt.inj
      rw [← Int32.toInt_toInt64]
      exact congrArg Int64.toInt h
    have hz : w.toUInt32 = 0 := congrArg Int32.toUInt32 h32
    have := congrArg UInt32.toNat hz
    rw [UInt64.toNat_toUInt32, Nat.mod_eq_of_lt hlt] at this
    exact UInt64.toNat.inj this
  | i64 => exact congrArg Int64.toUInt64 h
  | void | f32 | ptr | vector | other c => simp [isInt] at hk

theorem setWidth_signExtend {n m : Nat} (h : n ≤ m) (x : BitVec n) :
    (x.signExtend m).setWidth n = x := by
  ext i hi
  simp [BitVec.getElem_signExtend, hi, Nat.lt_of_lt_of_le hi h]

theorem and_one_eq (w : UInt64) : w &&& 1 = 0 ∨ w &&& 1 = 1 := by
  have hlt : (w &&& 1).toNat < 2 :=
    and_mask_toNat (n := 1) (m := 1) rfl (by rw [UInt64.and_assoc, UInt64.and_self])
  rcases Nat.lt_or_ge (w &&& 1).toNat 1 with h | h
  · exact .inl (UInt64.toNat.inj (Nat.lt_one_iff.mp h))
  · exact .inr (UInt64.toNat.inj (Nat.le_antisymm (Nat.lt_succ_iff.mp hlt) h))

/-- The bits that the sign fills are cut off again. -/
theorem canon_signExtend (hk : k.isInt = true) (w : UInt64) :
    k.canon (k.signExtend w).toUInt64 = k.canon w := by
  have hmask : ∀ {n : Nat} {m x y : UInt64}, m.toNat = 2 ^ n - 1 →
      x.toBitVec.setWidth n = y.toBitVec.setWidth n → x &&& m = y &&& m := fun hm h => by
    apply UInt64.toNat.inj
    rw [UInt64.toNat_and, UInt64.toNat_and, hm, Nat.and_two_pow_sub_one_eq_mod,
      Nat.and_two_pow_sub_one_eq_mod]
    simpa using congrArg BitVec.toNat h
  cases k with
  | i1 =>
    rcases and_one_eq w with h | h <;> simp only [signExtend, canon, h] <;> decide
  | i8 =>
    exact hmask (n := 8) (by decide) (setWidth_signExtend (by decide) (w.toBitVec.setWidth 8))
  | i16 =>
    exact hmask (n := 16) (by decide) (setWidth_signExtend (by decide) (w.toBitVec.setWidth 16))
  | i32 =>
    exact hmask (n := 32) (by decide) (setWidth_signExtend (by decide) (w.toBitVec.setWidth 32))
  | i64 => rfl
  | void | f32 | ptr | vector | other c => simp [isInt] at hk

/-- Cut to fewer bits than there are. -/
theorem canon_narrower {j : Kind} (hk : k.isInt = true) (hj : j.isInt = true) (h : j.bits ≤ k.bits)
    (w : UInt64) : j.canon (k.canon w) = j.canon w := by
  cases k <;> cases j <;> simp_all [isInt, bits, size] <;>
    simp only [canon, UInt64.and_assoc] <;> rfl

theorem canon_narrow {j : Kind} (hk : k.isInt = true) (hj : j.isInt = true) (h : j.bits ≤ k.bits)
    (w : UInt64) : j.canon (k.signExtend w).toUInt64 = j.canon w := by
  rw [← canon_narrower hk hj h, canon_signExtend hk, canon_narrower hk hj h]

end Kind

theorem Single.toWord_fits (x : Single) : Kind.f32.cut x.toWord = x.toWord := by
  rw [Kind.cut, if_neg (by decide)]
  exact Kind.and_mask_of_lt (n := 32) (by decide) (by simpa [toWord] using x.bits.toNat_lt)

theorem laneKind_size {k : Kind} (h : Ty.laneKind k = true) : k.size ≠ 0 := by
  cases k <;> simp_all [Ty.laneKind, Kind.size]

/-- The mask of a vector has as many lanes, of the same width. -/
theorem maskType_vec {e : Kind} {n : UInt8} {t : Ty} (h : Ty.maskType (.vec e n) = .ok t) :
    ∃ k, t = .vec k n ∧ k.size = e.size := by
  by_cases he : e = .f32
  · subst he
    simp only [Ty.maskType, Ty.vector?] at h
    split at h
    · cases h
    split at h
    · cases h
    · cases h
      exact ⟨.i32, by simp, rfl⟩
  · have hself : Ty.maskType (.vec e n) = .ok (.vec e n) := by
      unfold Ty.maskType
      split <;> simp_all
    exact ⟨e, Except.ok.inj (h.symm.trans hself), rfl⟩

/-! ## One lane -/

/-- A result that is there and fits the kind, or a lack of one. -/
def LaneFits (k : Kind) (r : Outcome (Option UInt64)) : Prop :=
  ∃ x, r = .ok x ∧ ∀ w, x = some w → k.cut w = w

theorem laneFits_none {k : Kind} : LaneFits k (.ok none) := ⟨none, rfl, fun _ h => by cases h⟩

theorem laneFits_some (h : k.cut w = w) : LaneFits k (.ok (some w)) :=
  ⟨some w, rfl, fun _ hw => by obtain rfl := Option.some.inj hw; exact h⟩

theorem evalBinary_int {op : Op} (hk : k.isInt = true) (hop : op.isFloatBinary = false)
    (hb : k.cut b = b) : LaneFits k (evalBinary op k a b) := by
  have hsize := Kind.size_ne_zero_of_isInt hk
  have hdone : ∀ r, LaneFits k (.ok (some (k.canon r))) :=
    fun r => laneFits_some (Kind.cut_canon hsize)
  have hdiv : b ≠ 0 → k.signExtend b ≠ 0 := fun hb0 h => hb0 (Kind.eq_zero_of_signExtend hk hb h)
  unfold evalBinary
  cases op <;> simp only [Op.isFloatBinary, Bool.true_eq_false] at hop ⊢
  case sdiv | srem =>
    split
    · exact laneFits_none
    · next hno =>
      rw [if_neg (hdiv fun h => hno (.inl h))]
      exact hdone _
  case udiv | urem =>
    split
    · exact laneFits_none
    · exact hdone _
  all_goals first | exact hdone _ | exact laneFits_none

theorem evalBinary_float {op : Op} (hop : op.isFloatBinary = true) :
    LaneFits .f32 (evalBinary op .f32 a b) := by
  have hdone : ∀ r, LaneFits .f32 (.ok (some (Kind.f32.canon r))) :=
    fun r => laneFits_some (Kind.cut_canon (by decide))
  unfold evalBinary
  cases op <;> simp only [Op.isFloatBinary, Bool.false_eq_true] at hop ⊢ <;> exact hdone _

theorem evalBinary_same {op : Op} (hop : op = .and ∨ op = .or) (ha : k.cut a = a) :
    evalBinary op k a a = .ok (some a) := by
  rcases hop with rfl | rfl <;> simp [evalBinary, Kind.canon_of_cut ha]

theorem evalBinary_none {op : Op} (hop : op = .sub ∨ op = .xor) :
    evalBinary op k a a = .ok (some 0) := by
  rcases hop with rfl | rfl <;> simp [evalBinary]

theorem fneg_fits (h : Kind.f32.cut w = w) :
    Kind.f32.cut (w ^^^ 0x80000000) = w ^^^ 0x80000000 := by
  have hw : w.toNat < 2 ^ 32 := Kind.and_mask_toNat (by decide) (Kind.canon_of_cut h)
  rw [Kind.cut, if_neg (by decide)]
  refine Kind.and_mask_of_lt (n := 32) (by decide) ?_
  rw [UInt64.toNat_xor]
  exact Nat.xor_lt_two_pow hw (by decide)

/-! ## Lanes in order -/

namespace Operation

variable {P : UInt64 → Prop}

theorem perLane_fits {g : Nat → Outcome (Option UInt64)} {l : List Nat}
    (h : ∀ i ∈ l, LaneFits k (g i)) : ∃ r, perLane g l = .ok r ∧
      ∀ lanes, r = some lanes → lanes.length = l.length ∧ ∀ w ∈ lanes, k.cut w = w := by
  induction l with
  | nil => exact ⟨some [], rfl, by simp⟩
  | cons i l ih =>
    obtain ⟨x, hx, hfit⟩ := h i List.mem_cons_self
    obtain ⟨r, hr, hall⟩ := ih fun j hj => h j (List.mem_cons_of_mem _ hj)
    unfold perLane
    rw [hx]
    cases x with
    | none => exact ⟨none, rfl, by simp⟩
    | some w =>
      rw [hr]
      refine ⟨r.map (w :: ·), rfl, fun lanes hl => ?_⟩
      obtain ⟨rest, hrest, rfl⟩ := Option.map_eq_some_iff.mp hl
      obtain ⟨hlen, hw⟩ := hall rest hrest
      refine ⟨by simp [hlen], fun y hy => ?_⟩
      rcases List.mem_cons.mp hy with rfl | hy
      · exact hfit y rfl
      · exact hw y hy

end Operation

theorem mapM_fits {α : Type} {P : UInt64 → Prop} {g : α → Outcome UInt64} {l : List α}
    (h : ∀ i ∈ l, ∃ w, g i = .ok w ∧ P w) :
    ∃ lanes, l.mapM g = .ok lanes ∧ lanes.length = l.length ∧ ∀ w ∈ lanes, P w := by
  induction l with
  | nil => exact ⟨[], rfl, rfl, by simp⟩
  | cons i l ih =>
    obtain ⟨w, hw, hP⟩ := h i List.mem_cons_self
    obtain ⟨lanes, hl, hlen, hall⟩ := ih fun j hj => h j (List.mem_cons_of_mem _ hj)
    refine ⟨w :: lanes, by rw [List.mapM_cons, hw, hl]; rfl, by simp [hlen], fun y hy => ?_⟩
    rcases List.mem_cons.mp hy with rfl | hy
    · exact hP
    · exact hall y hy

theorem length_bytes (n : Nat) (lanes : List UInt64) :
    (lanes.flatMap (leBytes n)).length = lanes.length * n := by
  induction lanes with
  | nil => simp
  | cons w lanes ih => simp [ih, Nat.succ_mul, Nat.add_comm]

theorem bytesOfLanes_eq {t : Ty} {lanes : List UInt64} (h : lanes.length = t.numLanes) :
    bytesOfLanes t lanes = .ok (lanes.flatMap (leBytes t.elemKind.size)) := by
  rw [bytesOfLanes, if_neg (by omega), ← h, List.take_length]

theorem readLanes_fits (k : Kind) (n : Nat) (buf : List UInt8) (h : buf.length = n * k.size) :
    ∃ lanes, readLanes k k.size n buf = .ok lanes ∧ lanes.length = n ∧
      ∀ w ∈ lanes, k.cut w = w := by
  induction n generalizing buf with
  | zero => exact ⟨[], rfl, rfl, by simp⟩
  | succ n ih =>
    have hlen : k.size ≤ buf.length := by rw [h, Nat.succ_mul]; omega
    obtain ⟨lanes, hl, hn, hall⟩ := ih (buf.drop k.size) (by
      rw [List.length_drop, h, Nat.succ_mul, Nat.add_sub_cancel])
    refine ⟨k.canon (ofLeBytes (buf.take k.size)) :: lanes, ?_, by simp [hn], fun w hw => ?_⟩
    · rw [readLanes]
      rw [if_neg (by omega), hl]
      rfl
    · rcases List.mem_cons.mp hw with rfl | hw
      · by_cases hk : k.size = 0
        · simp [hk, ofLeBytes]
        · exact Kind.cut_canon hk
      · exact hall w hw

end SsaJit
