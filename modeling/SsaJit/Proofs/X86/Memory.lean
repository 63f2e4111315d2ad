import Mathlib.Data.Nat.Bitwise
import SsaJit.X86.Machine

/-! Bytes in memory. What was written is read back, and addresses away from it keep their bytes; a
word and its bytes, least significant first, determine each other as far as the bytes go. Addresses
wrap around, so that `x` lies among the `n` addresses from `a` on if it is less than `n` past `a`. -/

namespace SsaJit

/-! ## Little-endian words -/

/-- The number whose bytes, least significant first, are given. -/
def natOfBytes : List UInt8 → Nat
  | [] => 0
  | b :: rest => b.toNat + 256 * natOfBytes rest

theorem natOfBytes_lt (bs : List UInt8) : natOfBytes bs < 256 ^ bs.length := by
  induction bs with
  | nil => simp [natOfBytes]
  | cons b rest ih =>
    have hb := b.toNat_lt
    rw [natOfBytes, List.length_cons, Nat.pow_succ]
    omega

theorem natOfBytes_lt_word {bs : List UInt8} (h : bs.length ≤ 8) :
    natOfBytes bs < 18446744073709551616 :=
  calc natOfBytes bs < 256 ^ bs.length := natOfBytes_lt bs
    _ ≤ 256 ^ 8 := Nat.pow_le_pow_right (by decide) h

theorem toNat_ofLeBytes {bs : List UInt8} (h : bs.length ≤ 8) :
    (ofLeBytes bs).toNat = natOfBytes bs := by
  induction bs with
  | nil => rfl
  | cons b rest ih =>
    have hb := b.toNat_lt
    have hrest := ih (Nat.le_of_succ_le h)
    have hlt : natOfBytes rest * 256 < 18446744073709551616 := by
      have := natOfBytes_lt_word h
      rw [natOfBytes] at this
      omega
    have hshift : (ofLeBytes rest <<< 8).toNat = natOfBytes rest <<< 8 := by
      rw [UInt64.toNat_shiftLeft, hrest, Nat.shiftLeft_eq, Nat.shiftLeft_eq]
      exact Nat.mod_eq_of_lt hlt
    rw [ofLeBytes, UInt64.toNat_or, hshift, UInt8.toNat_toUInt64, Nat.or_comm,
      ← Nat.shiftLeft_add_eq_or_of_lt hb, Nat.shiftLeft_eq, natOfBytes]
    omega

theorem natOfBytes_leBytes (n : Nat) (w : UInt64) :
    natOfBytes (leBytes n w) = w.toNat % 256 ^ n := by
  induction n generalizing w with
  | zero => simp [leBytes, natOfBytes, Nat.mod_one]
  | succ n ih =>
    have hshift : (w >>> 8).toNat = w.toNat / 256 := by
      rw [UInt64.toNat_shiftRight, Nat.shiftRight_eq_div_pow]
      rfl
    rw [leBytes, natOfBytes, ih, hshift, UInt64.toNat_toUInt8, Nat.pow_succ' (m := 256),
      Nat.mod_mul]

theorem toNat_ofLeBytes_leBytes {n : Nat} (hn : n ≤ 8) (w : UInt64) :
    (ofLeBytes (leBytes n w)).toNat = w.toNat % 256 ^ n := by
  rw [toNat_ofLeBytes (by simpa using hn), natOfBytes_leBytes]

/-- The low bytes of a word say what its low bits are. -/
theorem ofLeBytes_leBytes {n : Nat} (hn : n ≤ 8) {w m : UInt64} (hm : m.toNat = 256 ^ n - 1) :
    ofLeBytes (leBytes n w) = w &&& m := by
  apply UInt64.toNat.inj
  have hpow : (256 : Nat) ^ n = 2 ^ (8 * n) := by rw [Nat.pow_mul]
  rw [toNat_ofLeBytes_leBytes hn, UInt64.toNat_and, hm, hpow, Nat.and_two_pow_sub_one_eq_mod]

/-- All eight bytes say what the word is. -/
theorem ofLeBytes_leBytes_word (w : UInt64) : ofLeBytes (leBytes 8 w) = w := by
  rw [ofLeBytes_leBytes (m := -1) (by decide) (by decide)]
  simp

theorem leBytes_ofLeBytes {bs : List UInt8} (h : bs.length ≤ 8) :
    leBytes bs.length (ofLeBytes bs) = bs := by
  induction bs with
  | nil => rfl
  | cons b rest ih =>
    have hrest : rest.length ≤ 8 := Nat.le_of_succ_le h
    have hb := b.toNat_lt
    have hnat := toNat_ofLeBytes h
    rw [natOfBytes, ← toNat_ofLeBytes hrest] at hnat
    have hlow : (ofLeBytes (b :: rest)).toUInt8 = b := by
      apply UInt8.toNat.inj
      rw [UInt64.toNat_toUInt8, hnat]
      omega
    have hhigh : ofLeBytes (b :: rest) >>> 8 = ofLeBytes rest := by
      apply UInt64.toNat.inj
      rw [UInt64.toNat_shiftRight, Nat.shiftRight_eq_div_pow, hnat]
      change (b.toNat + 256 * (ofLeBytes rest).toNat) / 256 = _
      omega
    rw [List.length_cons, leBytes, hlow, hhigh, ih hrest]

/-! ## Reading and writing -/

namespace X86.Memory

/-- Is the address one of the `n` from `a` on? -/
def Within (a : UInt64) (n : Nat) (x : UInt64) : Prop := (x - a).toNat < n

instance (a : UInt64) (n : Nat) (x : UInt64) : Decidable (Within a n x) :=
  inferInstanceAs (Decidable ((x - a).toNat < n))

theorem within_add {a : UInt64} {n i : Nat} (hi : i < n) (hn : n ≤ UInt64.size) :
    Within a n (a + UInt64.ofNat i) := by
  have : a + UInt64.ofNat i - a = UInt64.ofNat i := by
    rw [UInt64.add_comm, UInt64.add_sub_cancel]
  rw [Within, this, UInt64.toNat_ofNat_of_lt' (Nat.lt_of_lt_of_le hi hn)]
  exact hi

theorem get_set (m : Memory) (a x : UInt64) (b : UInt8) :
    (m.set a b).get x = if x = a then b else m.get x := by
  simp only [set, get, Std.HashMap.getD_insert, beq_iff_eq]
  exact if_congr eq_comm rfl rfl

theorem get_write {bs : List UInt8} (h : bs.length ≤ UInt64.size) (m : Memory) (a x : UInt64) :
    (m.write a bs).get x = bs.getD (x - a).toNat (m.get x) := by
  induction bs generalizing m a with
  | nil => rfl
  | cons b bs ih =>
    rw [List.length_cons] at h
    rw [write, ih (Nat.le_of_succ_le h), get_set]
    by_cases hx : x = a
    · subst hx
      have hfar : (x - (x + 1)).toNat = 18446744073709551615 := by
        rw [show x - (x + 1) = 18446744073709551615 by grind]
        rfl
      rw [if_pos rfl, hfar, List.getD_eq_default _ _ (Nat.le_of_lt_succ h), UInt64.sub_self]
      rfl
    · have hnext : (x - a).toNat = (x - (a + 1)).toNat + 1 := by
        have hpos : x - a ≠ 0 := by grind
        have hone : 1 ≤ (x - a).toNat := Nat.one_le_iff_ne_zero.mpr
          fun h0 => hpos (UInt64.toNat.inj h0)
        have hle : 1 ≤ x - a := UInt64.le_iff_toNat_le.mpr hone
        rw [show x - (a + 1) = x - a - 1 by grind, UInt64.toNat_sub_of_le _ _ hle]
        change _ = (x - a).toNat - 1 + 1
        omega
      rw [if_neg hx, hnext]
      rfl

theorem get_write_of_not_within {bs : List UInt8} (h : bs.length ≤ UInt64.size) {m : Memory}
    {a x : UInt64} (hx : ¬ Within a bs.length x) : (m.write a bs).get x = m.get x := by
  rw [get_write h, List.getD_eq_default _ _ (Nat.le_of_not_lt hx)]

@[simp] theorem length_read (m : Memory) (a : UInt64) (n : Nat) : (m.read a n).length = n := by
  simp [read]

theorem read_congr {m m' : Memory} {a : UInt64} {n : Nat}
    (h : ∀ i < n, m'.get (a + UInt64.ofNat i) = m.get (a + UInt64.ofNat i)) :
    m'.read a n = m.read a n :=
  List.map_congr_left fun i hi => h i (List.mem_range.mp hi)

theorem read_write {bs : List UInt8} (h : bs.length ≤ UInt64.size) (m : Memory) (a : UInt64) :
    (m.write a bs).read a bs.length = bs := by
  refine List.ext_getElem (length_read _ _ _) fun i hi hi' => ?_
  have hdist : (a + UInt64.ofNat i - a).toNat = i := by
    rw [UInt64.add_comm, UInt64.add_sub_cancel,
      UInt64.toNat_ofNat_of_lt' (Nat.lt_of_lt_of_le hi' h)]
  have hread : ((m.write a bs).read a bs.length)[i] = (m.write a bs).get (a + UInt64.ofNat i) := by
    simp only [read, List.getElem_map, List.getElem_range]
  rw [hread, get_write h, hdist, List.getD_eq_getElem _ _ hi']

theorem readWord_writeWord {n : Nat} (hn : n ≤ 8) {w : UInt64} (m : Memory) (a : UInt64) :
    (m.writeWord a n w).readWord a n = ofLeBytes (leBytes n w) := by
  have hlen : (leBytes n w).length ≤ UInt64.size := by
    rw [length_leBytes]
    exact Nat.le_trans hn (by decide)
  have hback := read_write hlen m a
  rw [length_leBytes] at hback
  rw [readWord, writeWord, hback]

theorem get_writeWord {n : Nat} (hn : n ≤ 8) {m : Memory} {a x w : UInt64} (hx : ¬ Within a n x) :
    (m.writeWord a n w).get x = m.get x :=
  get_write_of_not_within (by rw [length_leBytes]; exact Nat.le_trans hn (by decide))
    (by rwa [length_leBytes])

theorem readWord_congr {m m' : Memory} {a : UInt64} {n : Nat} (hn : n ≤ 8)
    (h : ∀ x, Within a n x → m'.get x = m.get x) : m'.readWord a n = m.readWord a n :=
  congrArg ofLeBytes (read_congr fun _ hi => h _ (within_add hi (Nat.le_trans hn (by decide))))

/-- Bytes that were read elsewhere. -/
theorem get_write_read {n : Nat} (hn : n ≤ UInt64.size) (m m' : Memory) (a b x : UInt64) :
    (m'.write a (m.read b n)).get x = if Within a n x then m.get (b + (x - a)) else m'.get x := by
  rw [get_write (by rwa [length_read])]
  split
  · next h =>
    have hlt : (x - a).toNat < (m.read b n).length := by rwa [length_read]
    rw [List.getD_eq_getElem _ _ hlt]
    simp only [read, List.getElem_map, List.getElem_range, UInt64.ofNat_toNat]
  · next h =>
    exact List.getD_eq_default _ _ (by rw [length_read]; exact Nat.le_of_not_lt h)

theorem within_split {a x : UInt64} {n k : Nat} (h : n + k < UInt64.size) :
    Within a (n + k) x ↔ Within a n x ∨ Within (a + UInt64.ofNat n) k x := by
  have hx := (x - a).toNat_lt
  have hdist : (x - (a + UInt64.ofNat n)).toNat = (18446744073709551616 - n + (x - a).toNat) %
      18446744073709551616 := by
    rw [show x - (a + UInt64.ofNat n) = x - a - UInt64.ofNat n by grind, UInt64.toNat_sub,
      UInt64.toNat_ofNat_of_lt' (by omega)]
  have hsize : UInt64.size = 18446744073709551616 := rfl
  unfold Within
  rw [hdist]
  omega

/-- No address is among both the `n` from `a` on and the `k` from `b` on. -/
def Apart (a : UInt64) (n : Nat) (b : UInt64) (k : Nat) : Prop :=
  ∀ x, Within a n x → ¬ Within b k x

/-- Addresses that follow others do not come around to them. -/
theorem apart_next {a : UInt64} {n k : Nat} (h : n + k ≤ UInt64.size) :
    Apart a n (a + UInt64.ofNat n) k := by
  intro x hx hx'
  have hsize : UInt64.size = 18446744073709551616 := rfl
  unfold Within at hx hx'
  have hdist : x - a = x - (a + UInt64.ofNat n) + UInt64.ofNat n := by grind
  rw [hdist, UInt64.toNat_add, UInt64.toNat_ofNat_of_lt' (by omega)] at hx
  omega

theorem read_append (m : Memory) (a : UInt64) (n k : Nat) :
    m.read a (n + k) = m.read a n ++ m.read (a + UInt64.ofNat n) k := by
  simp [read, List.range_add, UInt64.ofNat_add, UInt64.add_assoc]

end X86.Memory

end SsaJit
