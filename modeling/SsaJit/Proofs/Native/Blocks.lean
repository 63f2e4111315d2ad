import SsaJit.Native.Blocks
import SsaJit.Proofs.Native.Pages
import SsaJit.Proofs.X86.Memory

/-! Aligned blocks lie inside their mappings. What is mapped for a block is rounded up from a sum that may
wrap; then it comes out below one, which the system refuses. So in a mapping there is room for the
header, for what aligning loses and for the block, and the header leads back to the mapping. -/

namespace SsaJit.Native

/-- A number that shares no bit with the one before it is a power of two. -/
theorem eq_two_pow {x : Nat} (hx : x ≠ 0) (h : x &&& (x - 1) = 0) : x = 2 ^ x.log2 := by
  by_contra hne
  have hle := Nat.log2_self_le hx
  have hlt : x < 2 ^ (x.log2 + 1) := Nat.lt_log2_self
  have hbit := Nat.testBit_of_two_pow_le_and_two_pow_add_one_gt hle hlt
  have hbit' := Nat.testBit_of_two_pow_le_and_two_pow_add_one_gt (n := x - 1) (i := x.log2)
    (by omega) (by omega)
  have hand := congrArg (·.testBit x.log2) h
  simp [hbit, hbit'] at hand

namespace Pages

variable {p : Pages} {n a : Int64} {base : UInt64}

/-! ## Sizes -/

/-- The bytes a block has: those asked for, but at least one. -/
def blockBytes (n : Int64) : Int := max n.toInt 1

/-- What a mapping needs for a block, its alignment and its header. -/
def blockNeeds (n a : Int64) : Int := blockBytes n + max a.toInt 16 + 16

/-- What is mapped for a block. -/
def blockRoom (p : Pages) (n a : Int64) : Int64 :=
  p.roundUp ((if n ≤ 0 then 1 else n) + blockAlign a + headerSize)

/-- Is the alignment that is used a power of two? -/
abbrev Aligns (a : Int64) : Prop := blockAlign a &&& (blockAlign a - 1) = 0

theorem toInt_blockBytes (n : Int64) : (if n ≤ 0 then 1 else n).toInt = blockBytes n := by
  have hone : (1 : Int64).toInt = 1 := rfl
  simp only [blockBytes, apply_ite Int64.toInt, hone, Int64.le_iff_toInt_le, Int64.toInt_zero]
  split <;> omega

theorem toInt_blockAlign (a : Int64) : (blockAlign a).toInt = max a.toInt 16 := by
  have hsize : headerSize.toInt = 16 := rfl
  simp only [blockAlign, apply_ite Int64.toInt, Int64.lt_iff_toInt_lt, hsize]
  split <;> omega

/-- A size that is not below zero is the same word. -/
theorem toNat_toUInt64 (hn : 0 ≤ n.toInt) : (n.toUInt64.toNat : Int) = n.toInt := by
  have hcond := BitVec.toInt_eq_toNat_cond n.toBitVec
  have hint : n.toBitVec.toInt = n.toInt := rfl
  have hnat : n.toBitVec.toNat = n.toUInt64.toNat := rfl
  have hbound := n.toUInt64.toNat_lt
  split at hcond <;> omega

theorem Aligns.pow (h : Aligns a) : ∃ k, k < 63 ∧ max a.toInt 16 = (2 ^ k : Nat) ∧
    (blockAlign a).toUInt64.toNat = 2 ^ k := by
  have hint := toInt_blockAlign a
  have hlt := (blockAlign a).toInt_lt
  have heq := toNat_toUInt64 (n := blockAlign a) (by omega)
  have hand : (blockAlign a).toUInt64.toNat &&& ((blockAlign a).toUInt64.toNat - 1) = 0 := by
    have hone : (1 : BitVec 64) ≤ (blockAlign a).toBitVec := by
      change 1 ≤ (blockAlign a).toUInt64.toNat
      omega
    have hzero := congrArg (fun x : Int64 => x.toBitVec.toNat) h
    rw [Int64.toBitVec_and, BitVec.toNat_and] at hzero
    exact (congrArg _ (BitVec.toNat_sub_of_le hone)).symm.trans hzero
  have hpow := eq_two_pow (by omega) hand
  refine ⟨_, ?_, by rw [← hint, ← heq, ← hpow], hpow⟩
  have : 2 ^ (blockAlign a).toUInt64.toNat.log2 < 2 ^ 63 := by omega
  exact (Nat.pow_lt_pow_iff_right (by decide)).mp this

namespace PowerOfTwo

theorem roundUp_nonpos (hp : p.PowerOfTwo) (hn : n.toInt ≤ 0) : (p.roundUp n).toInt ≤ 0 := by
  have hpos := hp.pos
  have hlt := p.pageSize.toInt_lt
  have hdiv : (n.toInt + p.pageSize.toInt - 1) / p.pageSize.toInt ≤ 0 :=
    Int.lt_add_one_iff.mp (Int.ediv_lt_of_lt_mul hpos (by omega))
  rw [hp.toInt_roundUp (by omega)]
  exact Int.mul_nonpos_of_nonpos_of_nonneg hdiv (by omega)

/-- What is rounded up beyond the greatest number wraps to below zero. -/
theorem roundUp_neg (hp : p.PowerOfTwo) (hn : 9223372036854775808 < n.toInt + p.pageSize.toInt) :
    (p.roundUp n).toInt < 0 := by
  have hpos := hp.pos
  have hlt := p.pageSize.toInt_lt
  have hlt' := n.toInt_lt
  obtain ⟨k, hk, hsize, hmask⟩ := hp.mask
  have hadd : (n + p.pageSize - 1).toInt = n.toInt + p.pageSize.toInt - 1 - 18446744073709551616 := by
    rw [Int64.sub_eq_add_neg, Int64.add_assoc, ← Int64.sub_eq_add_neg, Int64.toInt_add, hp.toInt_sub_one,
      Int.bmod_def]
    omega
  have hle := Int.ediv_mul_le (n + p.pageSize - 1).toInt (b := (2 ^ k : Nat)) (by omega)
  rw [roundUp, toInt_and_not_mask hk hmask]
  omega

/-- No sum that wraps leads to a size above zero: a positive one is the next multiple of the page size
from what the block needs. -/
theorem blockRoom_exact (hp : p.PowerOfTwo) (ha : Aligns a) (hpos : 0 < (p.blockRoom n a).toInt) :
    (p.blockRoom n a).toInt =
        (blockNeeds n a + p.pageSize.toInt - 1) / p.pageSize.toInt * p.pageSize.toInt ∧
      blockNeeds n a ≤ (p.blockRoom n a).toInt := by
  obtain ⟨k, hk, halign, -⟩ := ha.pow
  have hsize : headerSize.toInt = 16 := rfl
  have hn := n.toInt_lt
  have halt : max a.toInt 16 ≤ 4611686018427387904 := by
    rw [halign]
    exact_mod_cast Nat.pow_le_pow_right (by decide) (Nat.le_of_lt_succ hk)
  unfold blockRoom at hpos ⊢
  generalize hs : (if n ≤ 0 then 1 else n) + blockAlign a + headerSize = s at hpos ⊢
  have hsum : s.toInt = (blockNeeds n a).bmod 18446744073709551616 := by
    rw [← hs, Int64.toInt_add, Int64.toInt_add, toInt_blockBytes, toInt_blockAlign, hsize, blockNeeds]
    exact Int.bmod_add_bmod
  have hs0 : 0 < s.toInt := Int.not_le.mp fun hle => Int.not_le.mpr hpos (hp.roundUp_nonpos hle)
  have hexact : s.toInt = blockNeeds n a := by
    have hb : 1 ≤ blockBytes n ∧ blockBytes n ≤ 9223372036854775807 := by
      unfold blockBytes
      omega
    rw [hsum, Int.bmod_def] at hs0 ⊢
    unfold blockNeeds at hs0 ⊢
    omega
  have htop : s.toInt + p.pageSize.toInt ≤ 9223372036854775808 :=
    Int.not_lt.mp fun hlt => Int.lt_asymm hpos (hp.roundUp_neg hlt)
  rw [← hexact]
  exact ⟨hp.toInt_roundUp htop, hp.le_roundUp htop⟩

end PowerOfTwo

/-! ## Places -/

/-- The first multiple of the alignment that leaves room for a header. -/
theorem toNat_blockAddress {align : UInt64} {k : Nat} (halign : align.toNat = 2 ^ k)
    (hfits : base.toNat + 16 + 2 ^ k ≤ 18446744073709551616) :
    (blockAddress base align).toNat = (base.toNat + 16 + 2 ^ k - 1) / 2 ^ k * 2 ^ k := by
  have hpos := Nat.two_pow_pos k
  have hsize : headerSize.toUInt64.toNat = 16 := rfl
  have hone : (1 : UInt64).toNat = 1 := rfl
  have hmask : (align - 1).toNat = 2 ^ k - 1 := by
    rw [UInt64.toNat_sub_of_le _ _ (UInt64.le_iff_toNat_le.mpr (by omega)), halign, hone]
  have hadd : (base + headerSize.toUInt64 + align - 1).toNat = base.toNat + 16 + 2 ^ k - 1 := by
    rw [UInt64.toNat_sub, UInt64.toNat_add, UInt64.toNat_add, hsize, halign, hone]
    omega
  have hcut : (blockAddress base align).toNat =
      (base + headerSize.toUInt64 + align - 1).toNat / 2 ^ k * 2 ^ k := Lower.Frame.toNat_and_not hmask
  rw [hcut, hadd]

/-- A block, unless the alignment is no power of two or the system refuses. -/
theorem allocate_eq : p.allocate n a base =
    if Aligns a ∧ p.refusal (p.blockRoom n a) = none then
      some (⟨blockAddress base (blockAlign a).toUInt64, base, p.blockRoom n a⟩, p.withMapping)
    else none := by
  have hroom : p.roundUp ((if n ≤ 0 then 1 else n) + blockAlign a + headerSize) = p.blockRoom n a := rfl
  by_cases ha : Aligns a
  · simp only [allocate, map, hroom, if_neg (not_not.mpr ha)]
    cases p.refusal (p.blockRoom n a) with
    | some reason => simp
    | none => simp [ha, withMapping]
  · rw [if_neg fun h => ha h.1]
    exact if_pos ha

end Pages

namespace Heap

open Pages X86.Memory

variable {h : Heap} {n a : Int64} {base p : UInt64} {e : Extent} {m m' : X86.Memory}

/-! ## Headers -/

theorem header_middle (p : UInt64) : p - headerSize.toUInt64 + UInt64.ofNat 8 = p - 8 := by
  change p - 16 + 8 = p - 8
  grind

theorem header_end (p : UInt64) : p - headerSize.toUInt64 + UInt64.ofNat 16 = p := by
  change p - 16 + 16 = p
  grind

theorem within_header {x : UInt64} : Within (p - headerSize.toUInt64) 16 x ↔
    Within (p - headerSize.toUInt64) 8 x ∨ Within (p - 8) 8 x := by
  rw [← header_middle]
  exact within_split (n := 8) (k := 8) (by decide)

theorem get_writeHeader {x : UInt64} (hx : ¬ Within (p - headerSize.toUInt64) 16 x) :
    (writeHeader m p e).get x = m.get x := by
  obtain ⟨hbase, hlength⟩ := not_or.mp (within_header.not.mp hx)
  rw [writeHeader, get_writeWord (by decide) hlength, get_writeWord (by decide) hbase]

/-- What a header says is in its bytes. -/
theorem readHeader_congr (hm : ∀ x, Within (p - headerSize.toUInt64) 16 x → m'.get x = m.get x) :
    readHeader m' p = readHeader m p := by
  rw [readHeader, readHeader, readWord_congr (by decide) fun x hx => hm x (within_header.mpr (.inl hx)),
    readWord_congr (by decide) fun x hx => hm x (within_header.mpr (.inr hx))]

theorem readHeader_writeHeader : readHeader (writeHeader m p e) p = e := by
  have happart : Apart (p - headerSize.toUInt64) 8 (p - 8) 8 := by
    rw [← header_middle]
    exact apart_next (by decide)
  rw [readHeader, writeHeader, readWord_writeWord (by decide), ofLeBytes_leBytes_word,
    readWord_congr (by decide) fun x hx => get_writeWord (by decide) (happart x hx),
    readWord_writeWord (by decide), ofLeBytes_leBytes_word]

/-! ## Blocks -/

/-- A block at `p` and its header in a mapping at `base`, when the heap was `h` before and is `h'` after. -/
structure Placed (h h' : Heap) (n a : Int64) (base p : UInt64) : Prop where
  /-- What was mapped is what was needed, in whole pages. -/
  room : (h.pages.blockRoom n a).toInt = (blockNeeds n a + h.pages.pageSize.toInt - 1) /
    h.pages.pageSize.toInt * h.pages.pageSize.toInt
  mapped : h'.pages = h.pages.withMapping
  extents : h'.extents =
    (h.pages.mapped, ⟨base, (h.pages.blockRoom n a).toUInt64⟩) :: h.extents
  power : ∃ k : Nat, max a.toInt 16 = (2 ^ k : Nat)
  aligned : max a.toInt 16 ∣ p.toNat
  header : base.toNat + 16 ≤ p.toNat
  block : p.toNat + blockBytes n ≤ base.toNat + (h.pages.blockRoom n a).toInt
  apart : Apart (p - headerSize.toUInt64) 16 p (blockBytes n).toNat
  reads : readHeader h'.mem p = ⟨base, (h.pages.blockRoom n a).toUInt64⟩
  others : ∀ x, ¬ Within (p - headerSize.toUInt64) 16 x → h'.mem.get x = h.mem.get x

theorem allocate_placed (hp : h.pages.PowerOfTwo) (ha : Aligns a)
    (hpos : 0 < (h.pages.blockRoom n a).toInt) (hmap : h.pages.refusal (h.pages.blockRoom n a) = none)
    (hfits : base.toNat + (h.pages.blockRoom n a).toInt ≤ 18446744073709551616) :
    ∃ p h', h.allocate n a base = .ok (some p, h') ∧ Placed h h' n a base p := by
  obtain ⟨k, hk, halign, hword⟩ := ha.pow
  obtain ⟨hroom, hneeds⟩ := hp.blockRoom_exact ha hpos
  have hbytes : 1 ≤ blockBytes n := by unfold blockBytes; omega
  have hk2 := Nat.two_pow_pos k
  have hsum : blockNeeds n a = blockBytes n + (2 ^ k : Nat) + 16 := by rw [blockNeeds, halign]
  obtain ⟨p, hpeq⟩ : ∃ p, p = blockAddress base (blockAlign a).toUInt64 := ⟨_, rfl⟩
  have haddr : p.toNat = (base.toNat + 16 + 2 ^ k - 1) / 2 ^ k * 2 ^ k := by
    rw [hpeq]
    exact toNat_blockAddress hword (by omega)
  obtain ⟨hlow, hhigh⟩ : base.toNat + 16 ≤ p.toNat ∧ p.toNat < base.toNat + 16 + 2 ^ k := by
    have hdiv := Nat.div_mul_le_self (base.toNat + 16 + 2 ^ k - 1) (2 ^ k)
    have hrem := Nat.lt_div_mul_add (a := base.toNat + 16 + 2 ^ k - 1) hk2
    omega
  have hlen := toNat_toUInt64 (Int.le_of_lt hpos)
  have hoff : (p - base).toNat = p.toNat - base.toNat :=
    UInt64.toNat_sub_of_le _ _ (UInt64.le_iff_toNat_le.mpr (by omega))
  have hsize : headerSize.toUInt64.toNat = 16 := rfl
  have hfront : (p - base - headerSize.toUInt64).toNat = p.toNat - base.toNat - 16 := by
    rw [UInt64.toNat_sub_of_le _ _ (UInt64.le_iff_toNat_le.mpr (by omega)), hoff, hsize]
  have hinside : ¬ ((h.pages.blockRoom n a).toUInt64 ≤ p - base - headerSize.toUInt64 ∨
      (h.pages.blockRoom n a).toUInt64 ≤ p - base) := by
    rw [UInt64.le_iff_toNat_le, UInt64.le_iff_toNat_le, hfront, hoff]
    omega
  have hrun : h.allocate n a base = .ok (some p, {
      pages := h.pages.withMapping
      mem := writeHeader h.mem p ⟨base, (h.pages.blockRoom n a).toUInt64⟩
      extents := (h.pages.mapped, ⟨base, (h.pages.blockRoom n a).toUInt64⟩) :: h.extents }) := by
    rw [allocate, allocate_eq, if_pos ⟨ha, hmap⟩, ← hpeq]
    exact if_neg hinside
  have hbound : 16 + (blockBytes n).toNat ≤ UInt64.size := by
    change _ ≤ 18446744073709551616
    omega
  have hbeside := apart_next (a := p - headerSize.toUInt64) hbound
  rw [header_end] at hbeside
  refine ⟨p, _, hrun, hroom, rfl, rfl, ⟨k, halign⟩, ?_, hlow, by omega, hbeside,
    readHeader_writeHeader, fun x => get_writeHeader⟩
  rw [halign, haddr]
  exact Int.natCast_dvd_natCast.mpr (Nat.dvd_mul_left _ _)

variable {h' : Heap}

/-- Clearing a new block changes its bytes alone. -/
theorem allocateZero_of_allocate (hrun : h.allocate n a base = .ok (some p, h')) :
    ∃ z, h.allocateZero n a base = .ok (some p, z) ∧ z.pages = h'.pages ∧ z.extents = h'.extents ∧
      ∀ x, z.mem.get x = if Within p (blockBytes n).toNat x then 0 else h'.mem.get x := by
  refine ⟨{ h' with mem := h'.mem.write p (List.replicate (blockBytes n).toNat 0) }, ?_, rfl, rfl,
    fun x => ?_⟩
  · rw [allocateZero, hrun, ← toInt_blockBytes]
    rfl
  · have hn := n.toInt_lt
    have hsize : (blockBytes n).toNat ≤ UInt64.size := by
      unfold blockBytes
      change _ ≤ 18446744073709551616
      omega
    rw [get_write (by rwa [List.length_replicate])]
    by_cases hx : Within p (blockBytes n).toNat x
    · rw [if_pos hx, List.getD_eq_getElem _ _ (by rwa [List.length_replicate]), List.getElem_replicate]
    · rw [if_neg hx, List.getD_eq_default _ _
        (by rw [List.length_replicate]; exact Nat.le_of_not_lt hx)]

/-- As long as nothing has been written to the header, releasing the block at `p` releases the mapping
and nothing else. -/
def Releases (h' : Heap) (p : UInt64) (m : Nat × Extent) : Prop :=
  ∀ k : Heap, (∀ x, Within (p - headerSize.toUInt64) 16 x → k.mem.get x = h'.mem.get x) →
    m ∈ k.extents → (∀ m' ∈ k.extents, m'.2.base = m.2.base → m' = m) →
    k.deallocate (some p) =
      .ok { k with pages := k.pages.unmap m.1, extents := k.extents.erase m }

theorem Placed.releases (hplaced : Placed h h' n a base p) :
    h'.Releases p (h.pages.mapped, ⟨base, (h.pages.blockRoom n a).toUInt64⟩) := by
  intro k hmem hin hone
  generalize hm : (h.pages.mapped, Extent.mk base (h.pages.blockRoom n a).toUInt64) = m at hin hone ⊢
  have hreads : readHeader k.mem p = m.2 := by
    rw [readHeader_congr hmem, hplaced.reads, ← hm]
  have hfind : k.extents.find? (fun m => m.2 = readHeader k.mem p) = some m := by
    obtain ⟨m', hm'⟩ : ∃ m', k.extents.find? (fun m => m.2 = readHeader k.mem p) = some m' :=
      Option.isSome_iff_exists.mp (List.find?_isSome.mpr ⟨m, hin, by simp [hreads]⟩)
    have hnamed : m'.2 = readHeader k.mem p := by simpa using List.find?_some hm'
    rw [hm', hone m' (List.mem_of_find?_eq_some hm') (by rw [hnamed, hreads])]
  rw [deallocate, hfind]

/-- Blocks lie inside their mappings. Whatever is asked for, what is mapped is either below one or enough.
A block is handed out if the alignment is a power of two and the system does not refuse. Then the block
and its header lie side by side in the mapping, the block at a multiple of the alignment; clearing it
leaves the header; and whatever has been done to other bytes, releasing the block releases its mapping
and nothing else. -/
theorem blocks_inside (h : Heap) (n a : Int64) (base : UInt64) (hp : h.pages.PowerOfTwo)
    (hrefuse : ∀ size ≤ 0, h.pages.refusal size ≠ none)
    (hfits : base.toNat + (h.pages.blockRoom n a).toInt ≤ 18446744073709551616) :
    (Aligns a → (h.pages.blockRoom n a).toInt ≤ 0 ∨
      blockNeeds n a ≤ (h.pages.blockRoom n a).toInt) ∧
    (h.allocate n a base = .ok (none, h) ∧
        ¬ (Aligns a ∧ h.pages.refusal (h.pages.blockRoom n a) = none) ∨
      ∃ p h', h.allocate n a base = .ok (some p, h') ∧ Placed h h' n a base p ∧
        (∃ z, h.allocateZero n a base = .ok (some p, z) ∧ z.pages = h'.pages ∧
          z.extents = h'.extents ∧
          ∀ x, z.mem.get x = if Within p (blockBytes n).toNat x then 0 else h'.mem.get x) ∧
        h'.Releases p (h.pages.mapped, ⟨base, (h.pages.blockRoom n a).toUInt64⟩)) := by
  refine ⟨fun ha => ?_, ?_⟩
  · rcases Int.lt_or_le 0 (h.pages.blockRoom n a).toInt with hpos | hle
    · exact .inr (hp.blockRoom_exact ha hpos).2
    · exact .inl hle
  by_cases hgets : Aligns a ∧ h.pages.refusal (h.pages.blockRoom n a) = none
  · obtain ⟨ha, hmap⟩ := hgets
    have hpos : 0 < (h.pages.blockRoom n a).toInt := by
      by_contra hle
      refine hrefuse _ (Int64.le_iff_toInt_le.mpr ?_) hmap
      rw [Int64.toInt_zero]
      omega
    obtain ⟨p, h', hrun, hplaced⟩ := allocate_placed hp ha hpos hmap hfits
    exact .inr ⟨p, h', hrun, hplaced, allocateZero_of_allocate hrun, hplaced.releases⟩
  · exact .inl ⟨by rw [allocate, allocate_eq, if_neg hgets], hgets⟩

/-- A hundred bytes at a multiple of 64. -/
theorem blocks_inside_hundred : (∀ size ≤ 0, systemRefusal size ≠ none) ∧
    ∃ p h', allocate {} 100 64 0x7f0000001000 = .ok (some p, h') ∧ p = 0x7f0000001040 ∧
      Placed {} h' 100 64 0x7f0000001000 p ∧
      h'.deallocate (some p) = .ok { h' with pages := h'.pages.unmap 0, extents := [] } := by
  have hrefuse : ∀ size ≤ 0, systemRefusal size ≠ none := fun size hsize => by
    rw [systemRefusal, if_pos hsize]
    nofun
  refine ⟨hrefuse, ?_⟩
  obtain ⟨-, hcases⟩ := blocks_inside {} 100 64 0x7f0000001000 ⟨12, rfl⟩ hrefuse (by decide)
  rcases hcases with ⟨-, hnone⟩ | ⟨p, h', hrun, hplaced, -, hreleases⟩
  · exact absurd ⟨by decide, by decide⟩ hnone
  · have hp : (allocate {} 100 64 0x7f0000001000).toOption.map Prod.fst =
        some (some 0x7f0000001040) := rfl
    rw [hrun] at hp
    have hlast := hreleases h' (fun _ _ => rfl) (by rw [hplaced.extents]; exact List.mem_cons_self)
      fun m' hm' _ => by rw [hplaced.extents] at hm'; exact List.mem_singleton.mp hm'
    refine ⟨p, h', hrun, Option.some.inj (Option.some.inj hp), hplaced, hlast.trans ?_⟩
    rw [hplaced.extents, List.erase_cons_head]

end Heap

end SsaJit.Native
