import Mathlib.Data.List.Basic
import SsaJit.Lower.Value
import SsaJit.Proofs.X86.Run

/-! Copying areas of the frame. A copy goes piece by piece, and as long as the two areas lie apart the
pieces do not disturb each other: afterwards the one area holds what the other holds and nothing else
has changed. Areas of the frame are apart if their offsets are. -/

namespace SsaJit.Lower

open X86

variable {m m' m'' : Machine} {d e : Int32} {n k size : Nat}

/-! ## Places in the frame -/

/-- The address of a place; code addresses, which no value has, count as displacements of zero. -/
def addressOf (m : Machine) (p : Place) : UInt64 := m.address (p.map fun _ => 0)

theorem addressOf_inFrame (m : Machine) (d : Int32) :
    addressOf m (inFrame d) = m.reg .rbp + d.toInt64.toUInt64 := rfl

theorem addressOf_congr (h : m'.reg .rbp = m.reg .rbp) (d : Int32) :
    addressOf m' (inFrame d) = addressOf m (inFrame d) := by
  rw [addressOf_inFrame, addressOf_inFrame, h]

theorem shift_inFrame (d : Int32) (n : Nat) :
    shift (inFrame d) n = inFrame (d + (Int64.ofNat n).toInt32) := rfl

theorem toInt_add_ofNat (h : d.toInt + n < 2147483648) :
    (d + (Int64.ofNat n).toInt32).toInt = d.toInt + n := by
  have hlow := d.le_toInt
  rw [Int32.toInt_add, Int64.toInt_toInt32, Int64.toInt_ofNat_of_lt (by omega), Int.add_bmod_bmod]
  exact Int.bmod_eq_of_le (by omega) (by omega)

/-- Going on by `n` bytes stays in the frame's range of offsets. -/
theorem addressOf_shift (h : d.toInt + n < 2147483648) (m : Machine) :
    addressOf m (shift (inFrame d) n) = addressOf m (inFrame d) + UInt64.ofNat n := by
  have hsum : (d + (Int64.ofNat n).toInt32).toInt64 = d.toInt64 + Int64.ofNat n := by
    have hlow := d.le_toInt
    have hhigh := d.toInt_lt
    apply Int64.toInt.inj
    rw [Int32.toInt_toInt64, toInt_add_ofNat h, Int64.toInt_add, Int32.toInt_toInt64,
      Int64.toInt_ofNat_of_lt (by omega)]
    exact (Int.bmod_eq_of_le (by omega) (by omega)).symm
  rw [shift_inFrame, addressOf_inFrame, addressOf_inFrame, hsum, Int64.toUInt64_add,
    UInt64.add_assoc]
  rfl

theorem toInt_toInt64 (w : UInt64) : w.toInt64.toInt =
    if w.toNat < 9223372036854775808 then (w.toNat : Int) else w.toNat - 18446744073709551616 := by
  have h : w.toInt64.toInt = w.toBitVec.toInt := rfl
  rw [h, BitVec.toInt_eq_toNat_cond]
  change (if 2 * w.toNat < 18446744073709551616 then _ else _) = _
  split <;> split <;> first | rfl | omega

/-- Areas whose offsets do not meet have no address in common. -/
theorem apart_inFrame (m : Machine) (hd : d.toInt + n ≤ 0) (he : e.toInt + k ≤ 0)
    (h : d.toInt + n ≤ e.toInt ∨ e.toInt + k ≤ d.toInt) :
    Memory.Apart (addressOf m (inFrame d)) n (addressOf m (inFrame e)) k := by
  intro x hx hy
  have hoff : ∀ c : Int32, c.toInt ≤ 0 → (c.toInt64.toUInt64.toNat : Int) = c.toInt ∨
      (c.toInt64.toUInt64.toNat : Int) = c.toInt + 18446744073709551616 := by
    intro c hc
    have hword := toInt_toInt64 c.toInt64.toUInt64
    rw [Int64.toInt64_toUInt64, Int32.toInt_toInt64] at hword
    split at hword <;> omega
  have hmeet : d.toInt64.toUInt64 + (x - addressOf m (inFrame d)) =
      e.toInt64.toUInt64 + (x - addressOf m (inFrame e)) := by
    rw [addressOf_inFrame, addressOf_inFrame]
    grind
  have hmeet := congrArg UInt64.toNat hmeet
  rw [UInt64.toNat_add, UInt64.toNat_add] at hmeet
  have hd' := hoff d (by omega)
  have he' := hoff e (by omega)
  have hdlow := d.le_toInt
  have helow := e.le_toInt
  unfold Memory.Within at hx hy
  omega

/-! ## Pieces -/

/-- The pieces lie one after the other from `a` to `z`, each of a width that can be moved at once. -/
def Covers (a : Nat) : List (Nat × Nat) → Nat → Prop
  | [], z => a = z
  | (off, n) :: rest, z => off = a ∧ n ∈ [1, 2, 4, 8, 16] ∧ Covers (a + n) rest z

theorem Covers.append {a b z : Nat} {l l' : List (Nat × Nat)} (h : Covers a l b)
    (h' : Covers b l' z) : Covers a (l ++ l') z := by
  induction l generalizing a with
  | nil =>
    cases h
    exact h'
  | cons x l ih =>
    obtain ⟨hoff, hn, hrest⟩ := h
    exact ⟨hoff, hn, ih hrest⟩

theorem covers_sixteens (q : Nat) :
    Covers 0 ((List.range q).map fun i => (16 * i, 16)) (16 * q) := by
  induction q with
  | zero => rfl
  | succ q ih =>
    rw [List.range_succ, List.map_append]
    exact ih.append ⟨rfl, by simp, rfl⟩

/-- One binary digit of what is left: the piece is there or the place is the same. -/
theorem covers_digit {n a z : Nat} {p : Prop} [Decidable p] (hn : n ∈ [1, 2, 4, 8, 16])
    (hyes : p → a + n = z) (hno : ¬ p → a = z) :
    Covers a ((if p then some (a, n) else none).toList) z := by
  split
  · next h => exact ⟨rfl, hn, hyes h⟩
  · next h => exact hno h

theorem chunks_cover (size : Nat) : Covers 0 (chunks size) size := by
  have hdigits : [8, 4, 2, 1].filterMap (fun n =>
      if size / n % 2 = 1 then some (size / (2 * n) * (2 * n), n) else none) =
      (if size / 8 % 2 = 1 then some (size / 16 * 16, 8) else none).toList ++
      ((if size / 4 % 2 = 1 then some (size / 8 * 8, 4) else none).toList ++
      ((if size / 2 % 2 = 1 then some (size / 4 * 4, 2) else none).toList ++
      (if size / 1 % 2 = 1 then some (size / 2 * 2, 1) else none).toList)) := by
    rw [List.filterMap_eq_flatMap_toList]
    simp only [List.flatMap_cons, List.flatMap_nil, List.append_nil]
  have h₈ : Covers (16 * (size / 16)) _ (size / 8 * 8) :=
    covers_digit (n := 8) (p := size / 8 % 2 = 1) (by simp) (by omega) (by omega)
  have h₄ : Covers (size / 8 * 8) _ (size / 4 * 4) :=
    covers_digit (n := 4) (p := size / 4 % 2 = 1) (by simp) (by omega) (by omega)
  have h₂ : Covers (size / 4 * 4) _ (size / 2 * 2) :=
    covers_digit (n := 2) (p := size / 2 % 2 = 1) (by simp) (by omega) (by omega)
  have h₁ : Covers (size / 2 * 2) _ size :=
    covers_digit (n := 1) (p := size / 1 % 2 = 1) (by simp) (by omega) (by omega)
  rw [chunks, hdigits, Nat.mul_comm (size / 16) 16]
  exact (covers_sixteens (size / 16)).append (h₈.append (h₄.append (h₂.append h₁)))

theorem Covers.le {a z : Nat} {l : List (Nat × Nat)} (h : Covers a l z) : a ≤ z := by
  induction l generalizing a with
  | nil => exact Nat.le_of_eq h
  | cons x l ih => exact Nat.le_trans (Nat.le_add_right a x.2) (ih h.2.2)

/-- The instructions that move one piece. -/
def movePiece (dst src : Place) (off n : Nat) : List (Instr Label) :=
  if n = 16 then [.movdquLoad 0 (shift src off), .movdquStore (shift dst off) 0]
  else [.load .rcx (shift src off) (chunkAccess n), .store (shift dst off) .rcx (chunkWidth n)]

theorem copy_eq (dst src : Place) (size : Nat) :
    copy dst src size = straight ((chunks size).flatMap fun x => movePiece dst src x.1 x.2) := rfl

/-- The machine after bytes were moved: memory at `dst` is what it was at `src`, all else is as it
was, and only rcx has changed among the registers. -/
structure Copies (m m' : Machine) (dst src : UInt64) (n : Nat) : Prop where
  mem : ∀ x, m'.mem.get x = (m.mem.write dst (m.mem.read src n)).get x
  regs : ∀ r, r ≠ .rcx → m'.reg r = m.reg r

theorem Copies.read {dst src : UInt64} (hn : n ≤ UInt64.size) (h : Copies m m' dst src n) :
    m'.mem.read dst n = m.mem.read src n := by
  have hback := Memory.read_write (show (m.mem.read src n).length ≤ _ by rwa [Memory.length_read]) m.mem dst
  rw [Memory.length_read] at hback
  rw [← hback]
  exact Memory.read_congr fun i _ => h.mem _

/-- Bytes apart from the copy are as they were. -/
theorem Copies.get {dst src x : UInt64} (hn : n ≤ UInt64.size) (h : Copies m m' dst src n)
    (hx : ¬ Memory.Within dst n x) : m'.mem.get x = m.mem.get x := by
  rw [h.mem, Memory.get_write_read hn, if_neg hx]

theorem bytes_ofBytes {bs : List UInt8} (h : bs.length = 16) : (Xmm.ofBytes bs).bytes = bs := by
  have hlo : (bs.take 8).length = 8 := by rw [List.length_take, h]; rfl
  have hhi : (bs.drop 8).length = 8 := by rw [List.length_drop, h]
  have hlow := leBytes_ofLeBytes (Nat.le_of_eq hlo)
  have hhigh := leBytes_ofLeBytes (Nat.le_of_eq hhi)
  rw [hlo] at hlow
  rw [hhi] at hhigh
  have htake : (bs.drop 8).take 8 = bs.drop 8 := List.take_of_length_le (Nat.le_of_eq hhi)
  rw [Xmm.ofBytes, Xmm.bytes, htake]
  change leBytes 8 (ofLeBytes (bs.take 8)) ++ leBytes 8 (ofLeBytes (bs.drop 8)) = bs
  rw [hlow, hhigh, List.take_append_drop]

theorem writeWord_readWord (hn : n ≤ 8) (mem mem' : Memory) (a b : UInt64) :
    mem'.writeWord a n (mem.readWord b n) = mem'.write a (mem.read b n) := by
  have hback := leBytes_ofLeBytes (show (mem.read b n).length ≤ 8 by rwa [Memory.length_read])
  rw [Memory.length_read] at hback
  rw [Memory.writeWord, Memory.readWord, hback]

theorem load_chunkAccess (hn : n ∈ [1, 2, 4, 8]) (a : UInt64) :
    m.load a (chunkAccess n) = m.mem.readWord a n ∧ (chunkWidth n).bytes = n := by
  simp only [List.mem_cons, List.not_mem_nil, or_false] at hn
  rcases hn with rfl | rfl | rfl | rfl <;> exact ⟨rfl, rfl⟩

theorem movePiece_spec (off : Nat) (hn : n ∈ [1, 2, 4, 8, 16]) (hd : d.toInt + (off + n) ≤ 0)
    (he : e.toInt + (off + n) ≤ 0) (m : Machine) :
    ∃ m', execAll (movePiece (inFrame d) (inFrame e) off n) m = .ok m' ∧
      Copies m m' (addressOf m (inFrame d) + UInt64.ofNat off)
        (addressOf m (inFrame e) + UInt64.ofNat off) n := by
  have hpos : 0 < n := by
    simp only [List.mem_cons, List.not_mem_nil, or_false] at hn
    omega
  rw [← addressOf_shift (n := off) (by omega), ← addressOf_shift (n := off) (by omega)]
  by_cases h16 : n = 16
  · subst h16
    rw [movePiece, if_pos rfl]
    generalize hsrc : shift (inFrame e) off = src
    generalize hdst : shift (inFrame d) off = dst
    refine ⟨(m.setXmm 0 (m.loadX (addressOf m src))).storeX (addressOf m dst)
      ((m.setXmm 0 (m.loadX (addressOf m src))).xmm 0), ?_, fun x => ?_, fun r _ => ?_⟩
    · subst hsrc hdst
      rfl
    · rw [Machine.mem_storeX, Machine.xmm_setXmm_self, Machine.loadX,
        bytes_ofBytes (Memory.length_read _ _ _)]
      rfl
    · rw [Machine.reg_storeX]
      rfl
  · have hn : n ∈ [1, 2, 4, 8] := by
      simp only [List.mem_cons, List.not_mem_nil, or_false] at hn ⊢
      omega
    obtain ⟨hload, hwidth⟩ := load_chunkAccess (m := m) hn (addressOf m (shift (inFrame e) off))
    have hsmall : n ≤ 8 := by
      simp only [List.mem_cons, List.not_mem_nil, or_false] at hn
      omega
    rw [movePiece, if_neg h16]
    -- after the load, the frame and so the place to store to are the same
    have hstep : execAll [.load .rcx (shift (inFrame e) off) (chunkAccess n)] m =
        .ok (m.setReg .rcx (m.load (addressOf m (shift (inFrame e) off)) (chunkAccess n))) := rfl
    rw [hload] at hstep
    generalize hw : m.mem.readWord (addressOf m (shift (inFrame e) off)) n = w at hstep
    have haddr : addressOf (m.setReg .rcx w) (shift (inFrame d) off) =
        addressOf m (shift (inFrame d) off) :=
      addressOf_congr (m.reg_setReg_ne w (by decide)) _
    have hstore : execAll [.store (shift (inFrame d) off) .rcx (chunkWidth n)] (m.setReg .rcx w) =
        .ok ((m.setReg .rcx w).store (addressOf (m.setReg .rcx w) (shift (inFrame d) off))
          (chunkWidth n).bytes ((m.setReg .rcx w).reg .rcx)) := rfl
    rw [haddr, hwidth, Machine.reg_setReg_self] at hstore
    refine ⟨_, (execAll_append hstep).trans hstore, fun x => ?_,
      fun r hr => m.reg_setReg_ne _ hr.symm⟩
    rw [Machine.mem_store, ← hw, writeWord_readWord hsmall]
    rfl

/-- Pieces that follow each other are moved as one, as long as the areas lie apart. -/
theorem Copies.append {dst src : UInt64} {a n size : Nat} (hsize : size < UInt64.size)
    (hle : a + n ≤ size) (hap : Memory.Apart dst size src size) (h : Copies m m' dst src a)
    (h' : Copies m' m'' (dst + UInt64.ofNat a) (src + UInt64.ofNat a) n) :
    Copies m m'' dst src (a + n) := by
  refine ⟨fun x => ?_, fun r hr => (h'.regs r hr).trans (h.regs r hr)⟩
  have hfirst : ∀ y, m'.mem.get y =
      if Memory.Within dst a y then m.mem.get (src + (y - dst)) else m.mem.get y := fun y =>
    (h.mem y).trans (Memory.get_write_read (by omega) _ _ _ _ _)
  rw [h'.mem, Memory.get_write_read (by omega), Memory.get_write_read (by omega),
    if_congr (Memory.within_split (by omega)) rfl rfl]
  by_cases hlate : Memory.Within (dst + UInt64.ofNat a) n x
  · -- the piece is read where the earlier ones did not write
    have hin : Memory.Within dst (a + n) x := (Memory.within_split (by omega)).mpr (.inr hlate)
    have hsrc : Memory.Within src size (src + (x - dst)) := by
      rw [Memory.Within, show src + (x - dst) - src = x - dst by grind]
      exact Nat.lt_of_lt_of_le hin hle
    have hkept : ¬ Memory.Within dst a (src + (x - dst)) := fun hdst =>
      hap _ (Nat.lt_of_lt_of_le hdst (by omega)) hsrc
    rw [if_pos hlate, if_pos (.inr hlate), hfirst,
      show src + UInt64.ofNat a + (x - (dst + UInt64.ofNat a)) = src + (x - dst) by grind,
      if_neg hkept]
  · rw [if_neg hlate, hfirst, if_congr (or_iff_left hlate) rfl rfl]

theorem execAll_pieces (hd : d.toInt + size ≤ 0) (he : e.toInt + size ≤ 0)
    (hap : d.toInt + size ≤ e.toInt ∨ e.toInt + size ≤ d.toInt) {l : List (Nat × Nat)} {a : Nat}
    (hl : Covers a l size) (h : Copies m m' (addressOf m (inFrame d)) (addressOf m (inFrame e)) a) :
    ∃ m'', execAll (l.flatMap fun x => movePiece (inFrame d) (inFrame e) x.1 x.2) m' = .ok m'' ∧
      Copies m m'' (addressOf m (inFrame d)) (addressOf m (inFrame e)) size := by
  induction l generalizing a m' with
  | nil =>
    cases hl
    exact ⟨m', rfl, h⟩
  | cons x l ih =>
    obtain ⟨off, n⟩ := x
    obtain ⟨rfl, hn, hrest⟩ := hl
    have hle := hrest.le
    obtain ⟨m₁, hrun, hpiece⟩ := movePiece_spec (d := d) (e := e) off hn (by omega) (by omega) m'
    rw [addressOf_congr (h.regs .rbp (by decide)), addressOf_congr (h.regs .rbp (by decide))] at hpiece
    have hlow := d.le_toInt
    have hsize : size < UInt64.size := Nat.lt_of_le_of_lt (show size ≤ 2147483648 by omega) (by decide)
    have hall := h.append hsize hle (apart_inFrame m hd he hap) hpiece
    obtain ⟨m₂, hmore, hend⟩ := ih hrest hall
    exact ⟨m₂, (execAll_append hrun).trans hmore, hend⟩

theorem copy_spec (hd : d.toInt + size ≤ 0) (he : e.toInt + size ≤ 0)
    (hap : d.toInt + size ≤ e.toInt ∨ e.toInt + size ≤ d.toInt) (m : Machine) :
    ∃ is, copy (inFrame d) (inFrame e) size = straight is ∧ ∃ m', execAll is m = .ok m' ∧
      Copies m m' (addressOf m (inFrame d)) (addressOf m (inFrame e)) size :=
  ⟨_, copy_eq .., execAll_pieces hd he hap (chunks_cover size) ⟨fun _ => rfl, fun _ _ => rfl⟩⟩

end SsaJit.Lower
