import Mathlib.Algebra.Order.Ring.Nat
import Mathlib.Data.List.Nodup
import SsaJit.Lower.Frame
import SsaJit.Proofs.Ssa.Verify

/-! The layout of a frame. Rooms are made one below the other: a slot for each value, a second one
for a phi, a region for a stack allocation. As long as the depth that they need, counted exactly,
stays within the range of an offset, the offsets are exact too, so that no two rooms meet and all of
them lie below rbp. -/

namespace SsaJit.Lower

/-- What a frame keeps for a value. -/
inductive Use
  | slot | stage | region
  deriving DecidableEq

/-- Room for one use of a value. -/
structure Room where
  value : ValueId
  use : Use
  bytes : Nat
  align : Nat

/-- What tells rooms apart. -/
def Room.key (r : Room) : ValueId × Use := (r.value, r.use)

/-- The depth after making room at depth `n`. -/
def Room.below (r : Room) (n : Nat) : Nat := (n + r.bytes + (r.align - 1)) / r.align * r.align

/-- Bytes of a slot, which is also its alignment. -/
def slotBytes (t : Ty) : Nat := if t.isVector then 16 else 8

/-- The rooms of a value, in the order in which they are made. -/
def roomsOf (v : ValueId) (x : Value) : List Room :=
  if x.type.isVoid then []
  else
    let bytes := slotBytes x.type
    ⟨v, .slot, bytes, bytes⟩ :: match x.op with
      | .phi => [⟨v, .stage, bytes, bytes⟩]
      | .alloca => [⟨v, .region, x.aux.toInt.toNat, 16⟩]
      | _ => []

/-- The rooms of a function's frame. -/
def roomsIn (f : Func) : List Room :=
  (f.layout.flatMap f.valuesOf).flatMap fun (v, x) => roomsOf v x

/-- The depth that a function's frame needs. -/
def frameNeed (f : Func) : Nat := (roomsIn f).foldl (fun n r => r.below n) 0

namespace Frame

variable {fr : Frame} {v w : ValueId} {u : Use} {n : Nat} {r : Room}

/-- Where the room for a use of a value is. -/
def offset (fr : Frame) : ValueId × Use → Int32
  | (v, .slot) => fr.slots.getD v 0
  | (v, .stage) => fr.staging.getD v 0
  | (v, .region) => fr.regions.getD v 0

/-- Make one room. -/
def put (fr : Frame) (r : Room) : Frame :=
  let off := below fr.low (Int64.ofNat r.bytes) (Int64.ofNat r.align)
  match r.use with
  | .slot => { fr with slots := fr.slots.setIfInBounds r.value off, low := off }
  | .stage => { fr with staging := fr.staging.setIfInBounds r.value off, low := off }
  | .region => { fr with regions := fr.regions.setIfInBounds r.value off, low := off }

theorem place_eq {x : Value} (h : x.op = .alloca → 0 ≤ x.aux.toInt) :
    fr.place v x = (roomsOf v x).foldl put fr := by
  have hsize : slotSize x.type = Int64.ofNat (slotBytes x.type) := by
    unfold slotSize slotBytes
    split <;> rfl
  unfold place roomsOf
  split
  · rfl
  · rw [hsize]
    cases hop : x.op with
    | phi => rfl
    | alloca =>
      have haux : Int64.ofNat x.aux.toInt.toNat = x.aux := by
        apply Int64.toInt.inj
        have hlt := x.aux.toInt_lt
        have hpos := h hop
        rw [Int64.toInt_ofNat_of_lt (by omega)]
        omega
      simp only [List.foldl_cons, List.foldl_nil, put, haux]
      rfl
    | _ => rfl

/-- Taking away the low bits rounds down. -/
theorem toNat_and_not {b m : BitVec 64} {k : Nat} (hm : m.toNat = 2 ^ k - 1) :
    (b &&& ~~~m).toNat = b.toNat / 2 ^ k * 2 ^ k := by
  rw [← Nat.shiftRight_eq_div_pow, ← Nat.shiftLeft_eq]
  apply Nat.eq_of_testBit_eq
  intro i
  have hbit : m.getLsbD i = decide (i < k) := by
    rw [BitVec.getLsbD, hm, Nat.testBit_two_pow_sub_one]
  rw [BitVec.testBit_toNat, BitVec.getLsbD_and, BitVec.getLsbD_not, hbit, Nat.testBit_shiftLeft,
    Nat.testBit_shiftRight, BitVec.testBit_toNat]
  by_cases hi : i < k
  · simp [hi, Nat.not_le.mpr hi]
  · have hlt : b.getLsbD i = true → i < 64 := fun h => BitVec.lt_of_getLsbD h
    rw [Nat.add_sub_cancel' (Nat.le_of_not_lt hi)]
    cases hb : b.getLsbD i <;> simp_all

/-- Below zero too. -/
theorem toInt_and_not (x : Int64) {a : Nat} (ha : a = 8 ∨ a = 16) :
    (x &&& ~~~(Int64.ofNat a - 1)).toInt = x.toInt / a * a := by
  have hcut : ∀ (m : BitVec 64) (k : Nat), m.toNat = 2 ^ k - 1 →
      (x.toBitVec &&& ~~~m).toNat = x.toBitVec.toNat / 2 ^ k * 2 ^ k := fun _ _ => toNat_and_not
  have hint : ∀ y : Int64, y.toInt = y.toBitVec.toInt := fun _ => rfl
  rw [hint, hint, BitVec.toInt_eq_toNat_cond, BitVec.toInt_eq_toNat_cond]
  rcases ha with rfl | rfl
  · have hbits : (x &&& ~~~(Int64.ofNat 8 - 1)).toBitVec.toNat = x.toBitVec.toNat / 8 * 8 :=
      hcut 7#64 3 (by decide)
    rw [hbits]
    omega
  · have hbits : (x &&& ~~~(Int64.ofNat 16 - 1)).toBitVec.toNat = x.toBitVec.toNat / 16 * 16 :=
      hcut 15#64 4 (by decide)
    rw [hbits]
    omega

theorem toInt_ofNat_and_not {x a : Nat} (ha : a = 8 ∨ a = 16) (hx : x < 9223372036854775808) :
    (Int64.ofNat x &&& ~~~(Int64.ofNat a - 1)).toInt = (x / a * a : Nat) := by
  rw [toInt_and_not _ ha, Int64.toInt_ofNat_of_lt hx]
  rfl

theorem toInt_below {low : Int32} {bytes align : Nat} (halign : align = 8 ∨ align = 16)
    (hlow : low.toInt = -n) (hfit : (n + bytes + (align - 1)) / align * align < 2147483648) :
    (below low (Int64.ofNat bytes) (Int64.ofNat align)).toInt =
      -((n + bytes + (align - 1)) / align * align : Nat) := by
  have hsum : n + bytes ≤ (n + bytes + (align - 1)) / align * align := by
    rcases halign with rfl | rfl <;> omega
  have hrange := low.le_toInt
  have hneg : (-low).toInt64 = Int64.ofNat n := by
    apply Int64.toInt.inj
    rw [Int32.toInt_toInt64, Int64.toInt_ofNat_of_lt (by omega), Int32.toInt_neg, hlow, Int.neg_neg]
    exact Int.bmod_eq_of_le (by omega) (by omega)
  have hdepth : (-low).toInt64 + Int64.ofNat bytes + Int64.ofNat align - 1 =
      Int64.ofNat (n + bytes + (align - 1)) := by
    rw [hneg]
    rcases halign with rfl | rfl
    · simp only [Int64.ofNat_add]
      grind
    · simp only [Int64.ofNat_add]
      grind
  have hround := toInt_ofNat_and_not halign (show n + bytes + (align - 1) < 9223372036854775808 by omega)
  have hbelow : below low (Int64.ofNat bytes) (Int64.ofNat align) =
      (-(Int64.ofNat (n + bytes + (align - 1)) &&& ~~~(Int64.ofNat align - 1))).toInt32 := by
    rw [below, hdepth]
  rw [hbelow, Int64.toInt_toInt32, Int64.toInt_neg, hround]
  generalize (n + bytes + (align - 1)) / align * align = depth at hfit
  rw [Int.bmod_eq_of_le (n := (-(depth : Int))) (by omega) (by omega)]
  exact Int.bmod_eq_of_le (by omega) (by omega)

/-! ## Making rooms -/

/-- A frame for values up to a number. -/
structure Sized (fr : Frame) (count : Nat) : Prop where
  slots : fr.slots.size = count
  staging : fr.staging.size = count
  regions : fr.regions.size = count

theorem sized_blank (count : Nat) : Sized (blank count) count :=
  ⟨Array.size_replicate, Array.size_replicate, Array.size_replicate⟩

theorem Sized.put {count : Nat} (h : Sized fr count) (r : Room) : Sized (fr.put r) count := by
  unfold Frame.put
  split
  · exact ⟨Array.size_setIfInBounds.trans h.slots, h.staging, h.regions⟩
  · exact ⟨h.slots, Array.size_setIfInBounds.trans h.staging, h.regions⟩
  · exact ⟨h.slots, h.staging, Array.size_setIfInBounds.trans h.regions⟩

theorem low_put (fr : Frame) (r : Room) :
    (fr.put r).low = below fr.low (Int64.ofNat r.bytes) (Int64.ofNat r.align) := by
  unfold put
  split <;> rfl

theorem offset_put_self {count : Nat} (h : Sized fr count) (hr : r.value < count) :
    (fr.put r).offset r.key = (fr.put r).low := by
  obtain ⟨v, use, bytes, align⟩ := r
  have hlt : v < count := hr
  cases use with
  | slot => simp [put, offset, Room.key, h.slots, hlt]
  | stage => simp [put, offset, Room.key, h.staging, hlt]
  | region => simp [put, offset, Room.key, h.regions, hlt]

theorem offset_put_ne {k : ValueId × Use} (h : k ≠ r.key) :
    (fr.put r).offset k = fr.offset k := by
  obtain ⟨v, use⟩ := k
  obtain ⟨w, use', bytes, align⟩ := r
  have hne : use = use' → v ≠ w := fun hu hv => h (by rw [hu, hv]; rfl)
  cases use with
  | slot =>
    cases use' with
    | slot => simp [put, offset, Array.getElem?_setIfInBounds_ne (hne rfl).symm]
    | stage | region => rfl
  | stage =>
    cases use' with
    | stage => simp [put, offset, Array.getElem?_setIfInBounds_ne (hne rfl).symm]
    | slot | region => rfl
  | region =>
    cases use' with
    | region => simp [put, offset, Array.getElem?_setIfInBounds_ne (hne rfl).symm]
    | slot | stage => rfl

/-- Rooms in the order in which they were made: each lies below the ones before, and all of them
between depth `n` and rbp. -/
structure Laid (fr : Frame) (n : Nat) (rooms : List Room) : Prop where
  low : fr.low.toInt = -n
  inside : ∀ r ∈ rooms, -n ≤ (fr.offset r.key).toInt ∧ (fr.offset r.key).toInt + r.bytes ≤ 0
  below : rooms.Pairwise fun r s => (fr.offset s.key).toInt + s.bytes ≤ (fr.offset r.key).toInt

theorem Room.le_below (halign : r.align = 8 ∨ r.align = 16) (n : Nat) : n + r.bytes ≤ r.below n := by
  unfold Room.below
  rcases halign with h | h <;> rw [h] <;> omega

/-- As long as offsets reach it, a room is made at exactly the depth that it needs. -/
theorem put_exact {count : Nat} (hlow : fr.low.toInt = -n) (hsize : Sized fr count)
    (hr : r.value < count) (halign : r.align = 8 ∨ r.align = 16) (hfit : r.below n < 2147483648) :
    (fr.put r).low.toInt = -(r.below n) ∧ ((fr.put r).offset r.key).toInt = -(r.below n) := by
  have hexact : (fr.put r).low.toInt = -(r.below n) := by
    rw [low_put]
    exact toInt_below halign hlow hfit
  exact ⟨hexact, by rw [offset_put_self hsize hr, hexact]⟩

theorem Laid.put {count : Nat} {done : List Room} (h : Laid fr n done) (hsize : Sized fr count)
    (hr : r.value < count) (hnew : ∀ s ∈ done, s.key ≠ r.key)
    (halign : r.align = 8 ∨ r.align = 16) (hfit : r.below n < 2147483648) :
    Laid (fr.put r) (r.below n) (done ++ [r]) := by
  have hle := Room.le_below halign n
  obtain ⟨hlow, hself⟩ := put_exact h.low hsize hr halign hfit
  have hold : ∀ s ∈ done, (fr.put r).offset s.key = fr.offset s.key :=
    fun s hs => offset_put_ne (hnew s hs)
  refine ⟨hlow, fun s hs => ?_, ?_⟩
  · rcases List.mem_append.mp hs with hs | hs
    · have := h.inside s hs
      rw [hold s hs]
      omega
    · obtain rfl := List.mem_singleton.mp hs
      rw [hself]
      omega
  · refine List.pairwise_append.mpr ⟨?_, List.pairwise_singleton _ _, fun s hs t ht => ?_⟩
    · exact h.below.imp_of_mem fun hs ht hst => by rwa [hold _ hs, hold _ ht]
    · obtain rfl := List.mem_singleton.mp ht
      have := h.inside s hs
      rw [hself, hold s hs]
      omega

/-- Depths only grow. -/
theorem le_foldl_below {rooms : List Room} (halign : ∀ r ∈ rooms, r.align = 8 ∨ r.align = 16)
    (n : Nat) : n ≤ rooms.foldl (fun n r => r.below n) n := by
  induction rooms generalizing n with
  | nil => exact Nat.le_refl n
  | cons r rooms ih =>
    have hstep := Room.le_below (halign r List.mem_cons_self) n
    have hrest := ih (fun s hs => halign s (List.mem_cons_of_mem _ hs)) (r.below n)
    rw [List.foldl_cons]
    omega

theorem Laid.foldl {count : Nat} {done rooms : List Room} (h : Laid fr n done)
    (hsize : Sized fr count) (hvalue : ∀ r ∈ rooms, r.value < count)
    (hkeys : ((done ++ rooms).map Room.key).Nodup)
    (halign : ∀ r ∈ rooms, r.align = 8 ∨ r.align = 16)
    (hfit : rooms.foldl (fun n r => r.below n) n < 2147483648) :
    Laid (rooms.foldl Frame.put fr) (rooms.foldl (fun n r => r.below n) n) (done ++ rooms) := by
  induction rooms generalizing fr n done with
  | nil => rwa [List.append_nil]
  | cons r rooms ih =>
    have hrest : ∀ s ∈ rooms, s.align = 8 ∨ s.align = 16 :=
      fun s hs => halign s (List.mem_cons_of_mem _ hs)
    have hfit' : r.below n < 2147483648 :=
      Nat.lt_of_le_of_lt (le_foldl_below hrest (r.below n)) hfit
    have hnew : ∀ s ∈ done, s.key ≠ r.key := by
      intro s hs heq
      rw [List.map_append, List.nodup_append] at hkeys
      exact hkeys.2.2 _ (List.mem_map_of_mem hs) _ (List.mem_map_of_mem List.mem_cons_self) heq
    have hput := h.put hsize (hvalue r List.mem_cons_self) hnew (halign r List.mem_cons_self) hfit'
    have hmore := ih hput (hsize.put r) (fun s hs => hvalue s (List.mem_cons_of_mem _ hs))
      (by rwa [List.append_assoc]) hrest hfit
    rwa [List.append_assoc] at hmore

/-- Different rooms do not meet. -/
theorem Laid.disjoint {rooms : List Room} {s : Room} (h : Laid fr n rooms) (hr : r ∈ rooms)
    (hs : s ∈ rooms) (hne : r.key ≠ s.key) :
    (fr.offset r.key).toInt + r.bytes ≤ (fr.offset s.key).toInt ∨
      (fr.offset s.key).toInt + s.bytes ≤ (fr.offset r.key).toInt := by
  have hall := List.Pairwise.forall_of_forall_of_flip (l := rooms)
    (R := fun r s : Room => r.key ≠ s.key →
      (fr.offset r.key).toInt + r.bytes ≤ (fr.offset s.key).toInt ∨
        (fr.offset s.key).toInt + s.bytes ≤ (fr.offset r.key).toInt)
    (fun _ _ hne => absurd rfl hne) (h.below.imp fun hst _ => .inr hst)
    (h.below.imp fun hst _ => .inl hst)
  exact hall hr hs hne

end Frame

/-! ## The frame of a function -/

variable {f : Func} {b : BlockId} {v : ValueId}

theorem mem_roomsIn {r : Room} : r ∈ roomsIn f ↔
    ∃ b ∈ f.layout, ∃ v ∈ (f.block b).values, r ∈ roomsOf v (f.value v) := by
  simp only [roomsIn, List.mem_flatMap, Func.valuesOf, List.mem_map, Prod.exists, Prod.mk.injEq]
  constructor
  · rintro ⟨v, x, ⟨b, hb, w, hw, rfl, rfl⟩, hr⟩
    exact ⟨b, hb, w, hw, hr⟩
  · rintro ⟨b, hb, v, hv, hr⟩
    exact ⟨v, _, ⟨b, hb, v, hv, rfl, rfl⟩, hr⟩

theorem value_of_mem_roomsOf {x : Value} {r : Room} (h : r ∈ roomsOf v x) : r.value = v := by
  unfold roomsOf at h
  split at h
  · cases h
  · rcases List.mem_cons.mp h with rfl | h
    · rfl
    · split at h
      · rw [List.mem_singleton.mp h]
      · rw [List.mem_singleton.mp h]
      · cases h

theorem align_of_mem_roomsOf {x : Value} {r : Room} (h : r ∈ roomsOf v x) :
    r.align = 8 ∨ r.align = 16 := by
  have hbytes : slotBytes x.type = 8 ∨ slotBytes x.type = 16 := by
    unfold slotBytes
    split
    · exact .inr rfl
    · exact .inl rfl
  unfold roomsOf at h
  split at h
  · cases h
  · rcases List.mem_cons.mp h with rfl | h
    · exact hbytes
    · split at h
      · rw [List.mem_singleton.mp h]
        exact hbytes
      · rw [List.mem_singleton.mp h]
        exact .inr rfl
      · cases h

theorem nodup_roomsOf (v : ValueId) (x : Value) : ((roomsOf v x).map Room.key).Nodup := by
  unfold roomsOf
  split
  · exact List.nodup_nil
  · split <;> simp [Room.key]

theorem nodup_keys (hf : f.Listing) (hl : f.layout.Nodup) : ((roomsIn f).map Room.key).Nodup := by
  have hkeys : (roomsIn f).map Room.key = f.layout.flatMap fun b =>
      (f.block b).values.flatMap fun v => (roomsOf v (f.value v)).map Room.key := by
    simp only [roomsIn, Func.valuesOf, List.map_flatMap, List.flatMap_assoc, List.flatMap_map]
  have hfst : ∀ {v k}, k ∈ (roomsOf v (f.value v)).map Room.key → k.1 = v := by
    intro v k hk
    obtain ⟨r, hr, rfl⟩ := List.mem_map.mp hk
    exact value_of_mem_roomsOf hr
  rw [hkeys, List.nodup_flatMap]
  refine ⟨fun b hb => List.nodup_flatMap.mpr ⟨fun v _ => nodup_roomsOf v _, ?_⟩, ?_⟩
  · refine (hf.nodup b hb).imp fun hne => ?_
    exact List.disjoint_left.mpr fun k hk hk' => hne ((hfst hk).symm.trans (hfst hk'))
  · refine List.Pairwise.imp_of_mem (fun hb hc hne => ?_) hl
    refine List.disjoint_left.mpr fun k hk hk' => ?_
    obtain ⟨v, hv, hk⟩ := List.mem_flatMap.mp hk
    obtain ⟨w, hw, hk'⟩ := List.mem_flatMap.mp hk'
    obtain rfl : v = w := (hfst hk).symm.trans (hfst hk')
    exact hne (hf.unique hb hc hv hw)

/-- A frame is made room by room. -/
theorem ofFunc_eq (h : ∀ b ∈ f.layout, ∀ v ∈ (f.block b).values, (f.value v).op = .alloca →
    0 ≤ (f.value v).aux.toInt) :
    Frame.ofFunc f = (roomsIn f).foldl Frame.put (.blank f.numValues) := by
  have hplaces : ∀ (l : List (ValueId × Value)) (fr : Frame),
      (∀ x ∈ l, x.2.op = .alloca → 0 ≤ x.2.aux.toInt) →
      l.foldl (fun fr x => fr.place x.1 x.2) fr =
        (l.flatMap fun x => roomsOf x.1 x.2).foldl Frame.put fr := by
    intro l
    induction l with
    | nil => intro fr _; rfl
    | cons x l ih =>
      intro fr hl
      rw [List.foldl_cons, List.flatMap_cons, List.foldl_append,
        Frame.place_eq (hl x List.mem_cons_self), ih _ fun y hy => hl y (List.mem_cons_of_mem _ hy)]
  refine hplaces _ _ fun x hx hop => ?_
  obtain ⟨b, hb, hx⟩ := List.mem_flatMap.mp hx
  obtain ⟨v, hv, rfl⟩ := List.mem_map.mp hx
  exact h b hb v hv hop

theorem region_pos {ts : List Ty} {home : Prop} {x : Value} (h : Func.WellTyped x ts home)
    (hop : x.op = .alloca) : 0 < x.aux.toInt := by
  rw [Func.WellTyped, hop] at h
  exact h.2.2

/-- The frame of a function has all its rooms, one below the other. -/
theorem laid_ofFunc (hf : f.Ssa) (hneed : frameNeed f < 2147483648) :
    (Frame.ofFunc f).Laid (frameNeed f) (roomsIn f) := by
  have hframe := ofFunc_eq (f := f) fun b hb v hv hop =>
    Int.le_of_lt (region_pos (hf.values b hb v hv (by rw [hop]; decide)).2 hop)
  rw [hframe]
  refine Frame.Laid.foldl ⟨rfl, fun _ h => absurd h List.not_mem_nil, .nil⟩ (Frame.sized_blank _) ?_
    (nodup_keys hf.listing hf.flow.layout_nodup) ?_ hneed
  · intro r hr
    obtain ⟨b, hb, v, hv, hr⟩ := mem_roomsIn.mp hr
    rw [value_of_mem_roomsOf hr]
    exact hf.listing.lt hb hv
  · intro r hr
    obtain ⟨b, hb, v, hv, hr⟩ := mem_roomsIn.mp hr
    exact align_of_mem_roomsOf hr

end SsaJit.Lower
