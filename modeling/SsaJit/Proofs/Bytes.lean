import SsaJit.Proofs.Lanes
import SsaJit.Proofs.Outcome
import SsaJit.Proofs.X86.Memory

/-! Lanes as they lie in memory: a lane that fits its kind is read back from its bytes, and bytes that
were read as lanes are the bytes of these lanes. Only bits may lose something, as they fill a byte.
Bytes that are put over a buffer change it there and nowhere else. -/

namespace SsaJit

variable {k : Kind} {a w : UInt64}

theorem leBytes_zero (n : Nat) : leBytes n 0 = List.replicate n 0 := by
  induction n with
  | zero => rfl
  | succ n ih =>
    rw [leBytes, List.replicate_succ, UInt64.zero_shiftRight, ih]
    rfl

/-- The bytes of a lane hold it as far as its kind goes. -/
theorem ofLeBytes_lane (hk : k.size ≠ 0) (h1 : k ≠ .i1) (w : UInt64) :
    ofLeBytes (leBytes k.size w) = k.canon w := by
  cases k with
  | i1 => exact absurd rfl h1
  | i8 | i16 | i32 | f32 => exact ofLeBytes_leBytes (by decide) (by decide)
  | i64 | ptr => exact ofLeBytes_leBytes_word w
  | void | vector | other => exact absurd rfl hk

/-- A lane that fits is read back as it is. -/
theorem ofLeBytes_of_canon (hk : k.size ≠ 0) (ha : k.canon a = a) :
    ofLeBytes (leBytes k.size a) = a := by
  by_cases h1 : k = .i1
  · subst h1
    have hbyte : ofLeBytes (leBytes Kind.i1.size (Kind.i1.canon a)) = (a &&& 1) &&& 0xFF :=
      ofLeBytes_leBytes (by decide) (by decide)
    rw [ha, UInt64.and_assoc] at hbyte
    exact hbyte.trans ha
  · exact (ofLeBytes_lane hk h1 a).trans ha

theorem Kind.size_le (k : Kind) : k.size ≤ 8 := by
  cases k <;> simp [Kind.size]

/-- The bytes of a lane do not depend on what its kind has no room for. -/
theorem leBytes_canon (hk : k.size ≠ 0) (h1 : k ≠ .i1) (w : UInt64) :
    leBytes k.size (k.canon w) = leBytes k.size w := by
  have hback := leBytes_ofLeBytes
    (show (leBytes k.size w).length ≤ 8 by rw [length_leBytes]; exact Kind.size_le k)
  rwa [length_leBytes, ofLeBytes_lane hk h1] at hback

theorem leBytes_canon_ofLeBytes {bs : List UInt8} (hbits : k = .i1 → ∀ b ∈ bs, b.toNat < 2)
    (hlen : bs.length = k.size) : leBytes k.size (k.canon (ofLeBytes bs)) = bs := by
  by_cases h1 : k = .i1
  · obtain ⟨b, rfl⟩ := List.length_eq_one_iff.mp (hlen.trans (congrArg Kind.size h1))
    have hb := hbits h1 b List.mem_cons_self
    obtain rfl | rfl : b = 0 ∨ b = 1 := by
      rcases Nat.lt_or_ge b.toNat 1 with h | h
      · exact .inl (UInt8.toNat.inj (by simpa using h))
      · exact .inr (UInt8.toNat.inj (show b.toNat = 1 by omega))
    · rw [h1]
      rfl
    · rw [h1]
      rfl
  · have hback := leBytes_ofLeBytes (show bs.length ≤ 8 by rw [hlen]; exact Kind.size_le k)
    rw [hlen] at hback
    by_cases hk : k.size = 0
    · rw [hk] at hback ⊢
      exact hback
    · rw [leBytes_canon hk h1, hback]

/-- Lanes that were read from bytes have these bytes, unless they are bits and the bytes are not. -/
theorem bytes_of_readLanes {n : Nat} {buf : List UInt8} {lanes : List UInt64}
    (hbits : k = .i1 → ∀ b ∈ buf, b.toNat < 2) (hlen : buf.length = n * k.size)
    (h : readLanes k k.size n buf = .ok lanes) :
    lanes.length = n ∧ lanes.flatMap (leBytes k.size) = buf := by
  induction n generalizing buf lanes with
  | zero =>
    cases h
    rw [Nat.zero_mul, List.length_eq_zero_iff] at hlen
    exact ⟨rfl, hlen.symm⟩
  | succ n ih =>
    rw [readLanes] at h
    rw [Nat.succ_mul] at hlen
    rw [if_neg (by omega)] at h
    obtain ⟨rest, hrest, heq⟩ := Outcome.bind_eq_ok.mp h
    obtain rfl := Except.ok.inj heq
    obtain ⟨hn, hbytes⟩ := ih (fun h1 b hb => hbits h1 b (List.mem_of_mem_drop hb))
      (by rw [List.length_drop]; omega) hrest
    have htake : (buf.take k.size).length = k.size := by
      rw [List.length_take]
      omega
    have hfirst := leBytes_canon_ofLeBytes (fun h1 b hb => hbits h1 b (List.mem_of_mem_take hb)) htake
    refine ⟨by rw [List.length_cons, hn], ?_⟩
    rw [List.flatMap_cons, hfirst, hbytes, List.take_append_drop]

/-- Lanes that fit are read back from their bytes. -/
theorem readLanes_bytes {lanes : List UInt64} (h : ∀ a ∈ lanes, k.cut a = a) :
    readLanes k k.size lanes.length (lanes.flatMap (leBytes k.size)) = .ok lanes := by
  induction lanes with
  | nil => rfl
  | cons a lanes ih =>
    have ha := h a List.mem_cons_self
    have hlane : k.canon (ofLeBytes (leBytes k.size a)) = a := by
      by_cases hk : k.size = 0
      · rw [Kind.cut, if_pos hk] at ha
        rw [hk, ← ha]
        exact Kind.canon_zero k
      · rw [ofLeBytes_of_canon hk (Kind.canon_of_cut ha), Kind.canon_of_cut ha]
    have hlen := length_leBytes k.size a
    rw [List.length_cons, readLanes, List.flatMap_cons, List.take_left' hlen, List.drop_left' hlen,
      ih fun b hb => h b (List.mem_cons_of_mem _ hb), if_neg (by simp [hlen]), hlane]
    rfl

/-! ## Types -/

/-- The types whose values fill their bytes: scalars of whole bytes, and the vectors that can be built. -/
inductive Ty.Filled : Ty → Prop
  | scalar {k : Kind} (hk : k.size ≠ 0) (h1 : k ≠ .i1) : Filled (.scalar k)
  | vector {e : Kind} {n : Int} {t : Ty} (h : Ty.vector? e n = .ok t) : Filled t

variable {t u : Ty} {l : List UInt64} {buf : List UInt8}

theorem Ty.Filled.lane (h : t.Filled) : t.elemKind.size ≠ 0 ∧ t.elemKind ≠ .i1 := by
  cases h with
  | scalar hk h1 => exact ⟨hk, h1⟩
  | @vector e n t h =>
    unfold Ty.vector? at h
    split at h
    · cases h
    next hlane =>
    split at h
    · cases h
    · obtain rfl := Except.ok.inj h
      cases e <;> simp_all [Ty.laneKind, Ty.elemKind, Kind.size]

/-- Bytes read as lanes are written as they were. -/
theorem lanesOfBytes_written (ht : t.Filled) (h : buf.length = t.size) :
    ∃ l, lanesOfBytes t buf = .ok l ∧ l.length = t.numLanes ∧
      (∀ a ∈ l, t.elemKind.canon a = a) ∧ bytesOfLanes t l = .ok buf := by
  obtain ⟨l, hl, hn, hcut⟩ := readLanes_fits t.elemKind t.numLanes buf h
  have hbytes := (bytes_of_readLanes (fun h1 => absurd h1 ht.lane.2) h hl).2
  exact ⟨l, hl, hn, fun a ha => Kind.canon_of_cut (hcut a ha), by rw [bytesOfLanes_eq hn, hbytes]⟩

/-- Lanes that fit are read back from what they are written to. -/
theorem bytesOfLanes_read (ht : t.Filled) (hn : l.length = t.numLanes)
    (hl : ∀ a ∈ l, t.elemKind.canon a = a) :
    ∃ buf, bytesOfLanes t l = .ok buf ∧ buf.length = t.size ∧ lanesOfBytes t buf = .ok l := by
  refine ⟨_, bytesOfLanes_eq hn, by rw [length_bytes, hn, Ty.size], ?_⟩
  rw [lanesOfBytes, ← hn]
  exact readLanes_bytes fun a ha => by rw [Kind.cut, if_neg ht.lane.1, hl a ha]

/-- Reading the bytes of a value as another type of the same size loses nothing: lanes come back after a
turn through the other type, and so do bytes after a turn through lanes. -/
theorem reinterpret_lossless (ht : t.Filled) :
    (∀ u l, u.Filled → t.size = u.size → l.length = t.numLanes →
      (∀ a ∈ l, t.elemKind.canon a = a) →
      (bytesOfLanes t l >>= lanesOfBytes u >>= bytesOfLanes u >>= lanesOfBytes t) = .ok l) ∧
    ∀ buf, buf.length = t.size → (lanesOfBytes t buf >>= bytesOfLanes t) = .ok buf := by
  constructor
  · intro u l hu hsize hn hl
    obtain ⟨buf, hwrite, hlen, hread⟩ := bytesOfLanes_read ht hn hl
    obtain ⟨m, hm, -, -, hback⟩ := lanesOfBytes_written hu (hlen.trans hsize)
    calc (bytesOfLanes t l >>= lanesOfBytes u >>= bytesOfLanes u >>= lanesOfBytes t)
        = (lanesOfBytes u buf >>= bytesOfLanes u >>= lanesOfBytes t) := by rw [hwrite]; rfl
      _ = (bytesOfLanes u m >>= lanesOfBytes t) := by rw [hm]; rfl
      _ = lanesOfBytes t buf := by rw [hback]; rfl
      _ = .ok l := hread
  · intro buf hlen
    obtain ⟨l, hl, -, -, hback⟩ := lanesOfBytes_written ht hlen
    rw [hl]
    exact hback

/-- Words of four lanes as two words of twice the width. -/
theorem reinterpret_lossless_halves :
    (bytesOfLanes .v4i32 [1, 2, 3, 0xFFFFFFFF] >>= lanesOfBytes .v2i64 >>= bytesOfLanes .v2i64 >>=
      lanesOfBytes .v4i32) = .ok [1, 2, 3, 0xFFFFFFFF] := by
  have hcut : ∀ a ∈ ([1, 2, 3, 0xFFFFFFFF] : List UInt64), Ty.v4i32.elemKind.canon a = a := by
    -- each lane on its own: all words are too many to go through
    simp only [List.forall_mem_cons, List.not_mem_nil, false_implies, implies_true, and_true]
    decide
  exact (reinterpret_lossless (.vector (e := .i32) (n := 4) rfl)).1 .v2i64 _
    (.vector (e := .i64) (n := 2) rfl) rfl rfl hcut

/-! ## Bytes over other bytes -/

/-- A buffer with bytes written over it from an offset on; what does not fit is dropped. -/
def overwritten (buf : Array UInt8) (offset : Nat) (bs : List UInt8) : Array UInt8 :=
  bs.zipIdx.foldl (fun a p => a.setIfInBounds (offset + p.2) p.1) buf

section overwritten

variable {bs : List UInt8} {buf : Array UInt8} {offset k : Nat}

theorem getElem?_overwritten_from (n : Nat) :
    ((bs.zipIdx n).foldl (fun a p => a.setIfInBounds (offset + p.2) p.1) buf)[k]? =
      if offset + n ≤ k ∧ k < offset + n + bs.length ∧ k < buf.size then bs[k - (offset + n)]?
      else buf[k]? := by
  induction bs generalizing n buf with
  | nil => rw [if_neg (by simp; omega)]; rfl
  | cons b bs ih =>
    rw [List.zipIdx_cons, List.foldl_cons, ih, Array.size_setIfInBounds, Array.getElem?_setIfInBounds,
      List.length_cons]
    by_cases hk : offset + n = k
    · subst hk
      rw [if_neg (by omega), if_pos rfl]
      by_cases hin : offset + n < buf.size
      · rw [if_pos hin, if_pos (by omega), Nat.sub_self]
        rfl
      · rw [if_neg hin, if_neg (by omega), Array.getElem?_eq_none (Nat.le_of_not_lt hin)]
    · rw [if_neg hk]
      by_cases hin : offset + n ≤ k ∧ k < offset + n + (bs.length + 1) ∧ k < buf.size
      · rw [if_pos hin, if_pos (by omega), show k - (offset + n) = k - (offset + (n + 1)) + 1 by omega,
          List.getElem?_cons_succ]
      · rw [if_neg hin, if_neg (by omega)]

theorem getElem?_overwritten : (overwritten buf offset bs)[k]? =
    if offset ≤ k ∧ k < offset + bs.length ∧ k < buf.size then bs[k - offset]? else buf[k]? :=
  getElem?_overwritten_from 0

theorem size_overwritten (buf : Array UInt8) (offset : Nat) (bs : List UInt8) :
    (overwritten buf offset bs).size = buf.size := by
  refine List.foldlRecOn (motive := fun (a : Array UInt8) => a.size = buf.size) bs.zipIdx _ rfl
    fun a ha p _ => ?_
  exact Array.size_setIfInBounds.trans ha

end overwritten

end SsaJit
