import Mathlib.Algebra.Order.Ring.Nat
import SsaJit.Native.Pages
import SsaJit.Proofs.Lower.Frame

/-! Memory in whole pages. As long as the page size is a power of two, rounding up gives the next multiple
of it, and code buffers have the length that was asked for, rounded up. -/

namespace SsaJit.Native

/-! ## Whole pages -/

/-- Taking away the low bits rounds down, below zero too. -/
theorem toInt_and_not_mask {s m : Int64} {k : Nat} (hk : k < 64) (hm : m.toBitVec.toNat = 2 ^ k - 1) :
    (s &&& ~~~m).toInt = s.toInt / (2 ^ k : Nat) * (2 ^ k : Nat) := by
  have hhalf : 9223372036854775808 = 2 ^ (63 - k) * 2 ^ k := by
    rw [← Nat.pow_add, Nat.sub_add_cancel (by omega)]
  have hpos : 0 < 2 ^ k := Nat.two_pow_pos k
  have hcut : (s &&& ~~~m).toBitVec.toNat = s.toBitVec.toNat / 2 ^ k * 2 ^ k :=
    Lower.Frame.toNat_and_not hm
  have hint : ∀ y : Int64, y.toInt = y.toBitVec.toInt := fun _ => rfl
  rw [hint, hint, BitVec.toInt_eq_toNat_cond, BitVec.toInt_eq_toNat_cond, hcut]
  generalize s.toBitVec.toNat = n
  generalize 2 ^ k = K at hhalf hpos
  generalize 2 ^ (63 - k) = c at hhalf
  have hle : n / K * K ≤ n := Nat.div_mul_le_self n K
  by_cases hn : n < c * K
  · rw [if_pos (by omega), if_pos (by omega)]
    rfl
  · have hc : c * K ≤ n / K * K :=
      Nat.mul_le_mul_right K ((Nat.le_div_iff_mul_le hpos).mpr (Nat.le_of_not_lt hn))
    have hwrap : ((18446744073709551616 : Nat) : Int) = (2 * c : Nat) * (K : Nat) := by
      rw [← Int.natCast_mul, Nat.mul_assoc, ← hhalf]
    rw [if_neg (by omega), if_neg (by omega)]
    show ((n / K * K : Nat) : Int) - (18446744073709551616 : Nat) =
      ((n : Int) - (18446744073709551616 : Nat)) / (K : Nat) * (K : Nat)
    rw [hwrap, Int.sub_mul_ediv_right _ _ (by omega), Int.sub_mul]
    rfl

namespace Pages

/-- The page size is a power of two. -/
def PowerOfTwo (p : Pages) : Prop := ∃ k : Nat, p.pageSize.toInt = (2 ^ k : Nat)

/-- What is mapped for a code buffer of some size. -/
def codeRoom (p : Pages) (n : Int64) : Int64 := p.roundUp (if n ≤ 0 then 1 else n)

/-- The pages with one more mapping. -/
def withMapping (p : Pages) : Pages := { p with mapped := p.mapped + 1, live := p.mapped :: p.live }

variable {p : Pages} {n : Int64}

namespace PowerOfTwo

theorem pos (hp : p.PowerOfTwo) : 0 < p.pageSize.toInt := by
  obtain ⟨k, hk⟩ := hp
  have hpos := Nat.two_pow_pos k
  omega

theorem toInt_sub_one (hp : p.PowerOfTwo) : (p.pageSize - 1).toInt = p.pageSize.toInt - 1 := by
  have hpos := hp.pos
  have hlt := p.pageSize.toInt_lt
  have hone : (1 : Int64).toInt = 1 := rfl
  rw [Int64.toInt_sub, hone]
  exact Int.bmod_eq_of_le (by omega) (by omega)

/-- The page size and the mask of the bits below it. -/
theorem mask (hp : p.PowerOfTwo) : ∃ k, k < 64 ∧ p.pageSize.toInt = (2 ^ k : Nat) ∧
    (p.pageSize - 1).toBitVec.toNat = 2 ^ k - 1 := by
  have hpos := hp.pos
  have hsub := hp.toInt_sub_one
  obtain ⟨k, hk⟩ := hp
  have hlt := p.pageSize.toInt_lt
  have hk63 : k < 63 := (Nat.pow_lt_pow_iff_right (by decide)).mp (show 2 ^ k < 2 ^ 63 by omega)
  have hmask := BitVec.toInt_eq_toNat_cond (p.pageSize - 1).toBitVec
  have hint : (p.pageSize - 1).toBitVec.toInt = (p.pageSize - 1).toInt := rfl
  refine ⟨k, by omega, hk, ?_⟩
  rw [hint, hsub] at hmask
  have hbound := (p.pageSize - 1).toBitVec.isLt
  split at hmask <;> omega

theorem dvd_top (hp : p.PowerOfTwo) : p.pageSize.toInt ∣ 9223372036854775808 := by
  obtain ⟨k, hk⟩ := hp
  have hlt := p.pageSize.toInt_lt
  have hk63 : k ≤ 63 := (Nat.pow_le_pow_iff_right (by decide)).mp (show 2 ^ k ≤ 2 ^ 63 by omega)
  rw [hk]
  exact Int.natCast_dvd_natCast.mpr (Nat.pow_dvd_pow 2 hk63)

/-- A whole number of pages, whatever was rounded. -/
theorem dvd_roundUp (hp : p.PowerOfTwo) (n : Int64) : p.pageSize.toInt ∣ (p.roundUp n).toInt := by
  obtain ⟨k, hk, hsize, hmask⟩ := hp.mask
  rw [roundUp, toInt_and_not_mask hk hmask, hsize]
  exact Int.dvd_mul_left _ _

/-- The next multiple of the page size, if it does not wrap. -/
theorem toInt_roundUp (hp : p.PowerOfTwo) (hn : n.toInt + p.pageSize.toInt ≤ 9223372036854775808) :
    (p.roundUp n).toInt = (n.toInt + p.pageSize.toInt - 1) / p.pageSize.toInt * p.pageSize.toInt := by
  have hpos := hp.pos
  obtain ⟨k, hk, hsize, hmask⟩ := hp.mask
  have hlow := n.le_toInt
  have hadd : (n + p.pageSize - 1).toInt = n.toInt + p.pageSize.toInt - 1 := by
    rw [Int64.sub_eq_add_neg, Int64.add_assoc, ← Int64.sub_eq_add_neg, Int64.toInt_add, hp.toInt_sub_one,
      Int.bmod_eq_of_le (by omega) (by omega)]
    omega
  rw [roundUp, toInt_and_not_mask hk hmask, hadd, ← hsize]

theorem le_roundUp (hp : p.PowerOfTwo) (hn : n.toInt + p.pageSize.toInt ≤ 9223372036854775808) :
    n.toInt ≤ (p.roundUp n).toInt := by
  have hlt := Int.lt_ediv_add_one_mul_self (n.toInt + p.pageSize.toInt - 1) hp.pos
  rw [Int.add_mul, Int.one_mul] at hlt
  rw [hp.toInt_roundUp hn]
  omega

/-- There is room for a page above a whole number of pages. -/
theorem add_le_top (hp : p.PowerOfTwo) (hn : p.pageSize.toInt ∣ n.toInt) :
    n.toInt + p.pageSize.toInt ≤ 9223372036854775808 := by
  have hgap := Int.le_of_dvd (by have := n.toInt_lt; omega) (Int.dvd_sub hp.dvd_top hn)
  omega

theorem roundUp_of_dvd (hp : p.PowerOfTwo) (hn : p.pageSize.toInt ∣ n.toInt) : p.roundUp n = n := by
  have hpos := hp.pos
  apply Int64.toInt.inj
  rw [hp.toInt_roundUp (hp.add_le_top hn)]
  obtain ⟨c, hc⟩ := hn
  rw [hc, Int.add_sub_assoc, Int.mul_add_ediv_left, Int.ediv_eq_zero_of_lt (by omega) (by omega),
    Int.add_zero, Int.mul_comm]
  omega

theorem codeRoom_of_dvd (hp : p.PowerOfTwo) (hn : p.pageSize.toInt ∣ n.toInt) (hpos : 0 < n.toInt) :
    p.codeRoom n = n := by
  have hn0 : ¬ n ≤ 0 := Int64.not_le.mpr (Int64.lt_iff_toInt_lt.mpr (by rwa [Int64.toInt_zero]))
  rw [codeRoom, if_neg hn0, hp.roundUp_of_dvd hn]

/-- A whole number of pages, if nothing else at least one, has room for code. -/
theorem codeRoom_pos (hp : p.PowerOfTwo) (hn : p.pageSize.toInt ∣ n.toInt) : 0 < (p.codeRoom n).toInt := by
  unfold codeRoom
  split
  · have hlt := p.pageSize.toInt_lt
    have hone : (1 : Int64).toInt = 1 := rfl
    have hle := hp.le_roundUp (n := 1) (by omega)
    omega
  · next hle =>
    rw [hp.roundUp_of_dvd hn]
    exact Int64.lt_iff_toInt_lt.mp (Int64.not_le.mp hle)

end PowerOfTwo

/-- A code buffer, or the system's reason against it. -/
theorem allocateCode_eq : p.allocateCode n =
    match p.refusal (p.codeRoom n) with
    | some reason => .fail (.allocation (decimal (p.codeRoom n).toInt ++ " bytes: " ++ reason))
    | none => .ok (p.mapped, (p.codeRoom n).toInt.toNat, p.withMapping) := by
  unfold allocateCode map codeRoom
  generalize p.roundUp (if n ≤ 0 then 1 else n) = room
  dsimp only
  cases p.refusal room with
  | some reason => rfl
  | none => rfl

/-! ## Mappings that are kept -/

/-- Of the mappings made since `p`, some are kept, and the others were released, each of them once. No
older mapping was released. -/
structure Settled (p p' : Pages) (kept : List Nat) : Prop where
  fresh : kept.Nodup ∧ ∀ id ∈ kept, p.mapped ≤ id ∧ id < p'.mapped
  live : p'.live = kept ++ p.live
  released : ∃ gone, p'.released = gone ++ p.released ∧ gone.Nodup ∧
    ∀ id, id ∈ gone ↔ p.mapped ≤ id ∧ id < p'.mapped ∧ id ∉ kept

namespace Settled

variable {p' : Pages} {kept : List Nat} {id : Nat}

theorem refl (p : Pages) : p.Settled p [] where
  fresh := ⟨.nil, nofun⟩
  live := rfl
  released := ⟨[], rfl, .nil, fun _ => ⟨nofun, fun h => by omega⟩⟩

theorem withMapping (h : p.Settled p' kept) (hle : p.mapped ≤ p'.mapped) :
    p.Settled p'.withMapping (p'.mapped :: kept) where
  fresh := by
    obtain ⟨hnodup, hnew⟩ := h.fresh
    refine ⟨List.nodup_cons.mpr ⟨fun hin => Nat.lt_irrefl _ (hnew _ hin).2, hnodup⟩, ?_⟩
    exact List.forall_mem_cons.mpr ⟨⟨hle, Nat.lt_succ_self _⟩, fun id hid =>
      ⟨(hnew id hid).1, Nat.lt_succ_of_lt (hnew id hid).2⟩⟩
  live := congrArg (p'.mapped :: ·) h.live
  released := by
    obtain ⟨gone, hgone, hnodup, hmem⟩ := h.released
    refine ⟨gone, hgone, hnodup, fun id => (hmem id).trans ?_⟩
    rw [List.mem_cons, not_or, Pages.withMapping]
    constructor
    · rintro ⟨hlo, hhi, hid⟩
      exact ⟨hlo, Nat.lt_succ_of_lt hhi, Nat.ne_of_lt hhi, hid⟩
    · rintro ⟨hlo, hhi, hne, hid⟩
      exact ⟨hlo, Nat.lt_of_le_of_ne (Nat.le_of_lt_succ hhi) hne, hid⟩

theorem unmap (h : p.Settled p' kept) (hid : id ∈ kept) : p.Settled (p'.unmap id) (kept.erase id) where
  fresh := ⟨h.fresh.1.erase id, fun x hx => h.fresh.2 x (List.mem_of_mem_erase hx)⟩
  live := by
    rw [Pages.unmap, h.live]
    exact List.erase_append_left p.live hid
  released := by
    obtain ⟨gone, hgone, hnodup, hmem⟩ := h.released
    obtain ⟨hlo, hhi⟩ := h.fresh.2 id hid
    refine ⟨id :: gone, congrArg (id :: ·) hgone,
      List.nodup_cons.mpr ⟨fun hin => ((hmem id).mp hin).2.2 hid, hnodup⟩, fun x => ?_⟩
    rw [List.mem_cons, hmem, h.fresh.1.mem_erase_iff, Pages.unmap]
    by_cases hx : x = id
    · subst hx
      simp [hlo, hhi]
    · simp [hx]

end Settled

end Pages

end SsaJit.Native
