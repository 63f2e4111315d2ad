import SsaJit.Proofs.Edges.Accepted
import SsaJit.Proofs.Lower.Frame
import SsaJit.Proofs.Lower.Settled

/-! The frame of every function that the verifier accepts. Nobody checks that a value is listed only once;
where it is listed again its rooms are made again, and the last ones count. Rooms of different use or of
different values never meet, each starts at a multiple of its alignment, and all of them lie in the part
of the stack that the function takes. Its size is held against a limit. -/

namespace SsaJit.Lower

namespace Frame

variable {fr : Frame} {n count : Nat} {r s : Room} {done rooms : List Room}

/-- The bytes of one room end where those of the other begin, or before. -/
def Clear (fr : Frame) (r s : Room) : Prop :=
  (fr.offset r.key).toInt + r.bytes ≤ (fr.offset s.key).toInt ∨
    (fr.offset s.key).toInt + s.bytes ≤ (fr.offset r.key).toInt

/-- The rooms that have been made, down to depth `n`. -/
structure Parted (fr : Frame) (n : Nat) (rooms : List Room) : Prop where
  low : fr.low.toInt = -n
  inside : ∀ r ∈ rooms, -n ≤ (fr.offset r.key).toInt ∧ (fr.offset r.key).toInt + r.bytes ≤ 0
  aligned : ∀ r ∈ rooms, (r.align : Int) ∣ (fr.offset r.key).toInt
  clear : ∀ r ∈ rooms, ∀ s ∈ rooms, r.key ≠ s.key → fr.Clear r s

theorem Clear.symm (h : fr.Clear r s) : fr.Clear s r := Or.symm h

/-- A room that is made once more is the one with the old name at another place. -/
theorem Parted.put (h : Parted fr n done) (hsize : Sized fr count) (hr : r.value < count)
    (hsame : ∀ s ∈ done, s.key = r.key → s = r) (halign : r.align = 8 ∨ r.align = 16)
    (hfit : r.below n < 2147483648) : Parted (fr.put r) (r.below n) (done ++ [r]) := by
  have hle := Room.le_below halign n
  obtain ⟨hlow, hself⟩ := put_exact h.low hsize hr halign hfit
  have hmem : ∀ {s}, s ∈ done ++ [r] → s = r ∨ s ∈ done ∧ s.key ≠ r.key := fun {s} hs => by
    rcases List.mem_append.mp hs with hs | hs
    · by_cases hk : s.key = r.key
      · exact .inl (hsame s hs hk)
      · exact .inr ⟨hs, hk⟩
    · exact .inl (List.mem_singleton.mp hs)
  have hnew : ∀ s ∈ done, s.key ≠ r.key → (fr.put r).Clear r s := fun s hs hk => by
    have := h.inside s hs
    refine .inl ?_
    rw [hself, offset_put_ne hk]
    omega
  refine ⟨hlow, fun s hs => ?_, fun s hs => ?_, fun s hs t ht hne => ?_⟩
  · rcases hmem hs with rfl | ⟨hs, hk⟩
    · rw [hself]
      omega
    · have := h.inside s hs
      rw [offset_put_ne hk]
      omega
  · rcases hmem hs with rfl | ⟨hs, hk⟩
    · rw [hself, Room.below]
      exact Int.dvd_neg.mpr (Int.natCast_dvd_natCast.mpr (Nat.dvd_mul_left _ _))
    · rw [offset_put_ne hk]
      exact h.aligned s hs
  · rcases hmem hs with rfl | ⟨hs', hks⟩ <;> rcases hmem ht with rfl | ⟨ht', hkt⟩
    · exact absurd rfl hne
    · exact hnew t ht' hkt
    · exact (hnew s hs' hks).symm
    · unfold Clear
      rw [offset_put_ne hks, offset_put_ne hkt]
      exact h.clear s hs' t ht' hne

theorem Parted.foldl (h : Parted fr n done) (hsize : Sized fr count)
    (hvalue : ∀ r ∈ rooms, r.value < count)
    (hsame : ∀ r ∈ done ++ rooms, ∀ s ∈ done ++ rooms, r.key = s.key → r = s)
    (halign : ∀ r ∈ rooms, r.align = 8 ∨ r.align = 16)
    (hfit : rooms.foldl (fun n r => r.below n) n < 2147483648) :
    Parted (rooms.foldl Frame.put fr) (rooms.foldl (fun n r => r.below n) n) (done ++ rooms) := by
  induction rooms generalizing fr n done with
  | nil => rwa [List.append_nil]
  | cons r rooms ih =>
    have hrest : ∀ s ∈ rooms, s.align = 8 ∨ s.align = 16 :=
      fun s hs => halign s (List.mem_cons_of_mem _ hs)
    have hfit' : r.below n < 2147483648 :=
      Nat.lt_of_le_of_lt (le_foldl_below hrest (r.below n)) hfit
    have hput := h.put hsize (hvalue r List.mem_cons_self)
      (fun s hs => hsame s (List.mem_append_left _ hs) r (List.mem_append_right _ List.mem_cons_self))
      (halign r List.mem_cons_self) hfit'
    have hmore := ih hput (hsize.put r) (fun s hs => hvalue s (List.mem_cons_of_mem _ hs))
      (by rwa [List.append_assoc]) hrest hfit
    rwa [List.append_assoc] at hmore

/-- The size is the depth rounded up to sixteen. -/
theorem toInt_size (hlow : fr.low.toInt = -n) (hfit : (n + 15) / 16 * 16 < 2147483648) :
    fr.size.toInt = ((n + 15) / 16 * 16 : Nat) := by
  have hdepth : -fr.low.toInt64 + 15 = Int64.ofNat (n + 15) := by
    have hneg : -fr.low.toInt64 = Int64.ofNat n := by
      apply Int64.toInt.inj
      rw [Int64.toInt_neg, Int32.toInt_toInt64, hlow, Int.neg_neg,
        Int64.toInt_ofNat_of_lt (by omega)]
      exact Int.bmod_eq_of_le (by omega) (by omega)
    rw [hneg, Int64.ofNat_add]
    rfl
  have hround := toInt_ofNat_and_not (x := n + 15) (a := 16) (.inr rfl) (by omega)
  rw [size, hdepth, Int64.toInt_toInt32]
  exact (congrArg (Int.bmod · _) hround).trans (Int.bmod_eq_of_le (by omega) (by omega))

end Frame

/-! ## Functions -/

variable {f : Func}

/-- The bytes of stack that a function needs, counted exactly. -/
def frameBytes (f : Func) : Nat := (frameNeed f + 15) / 16 * 16

theorem value_lt_of_home (h : f.Accepted) {b : BlockId} {v : ValueId} (hb : b ∈ f.layout)
    (hv : v ∈ (f.block b).values) : v < f.numValues := by
  by_contra hge
  have hblock := h.home b hb v hv
  rw [Func.value_of_le (Nat.le_of_not_lt hge)] at hblock
  cases hblock

/-- Use and value tell which room it is. -/
theorem eq_of_key {v : ValueId} {x : Value} {r s : Room} (hr : r ∈ roomsOf v x)
    (hs : s ∈ roomsOf v x) (hk : r.key = s.key) : r = s :=
  List.inj_on_of_nodup_map (nodup_roomsOf v x) hr hs hk

theorem parted_ofFunc (hf : f.verify = .ok []) (hneed : frameNeed f < 2147483648) :
    (Frame.ofFunc f).Parted (frameNeed f) (roomsIn f) := by
  have hacc := Func.verify_accepted hf
  have hframe := ofFunc_eq (f := f) fun b hb v hv hop =>
    Int.le_of_lt (region_pos (Func.value_typed hf hb hv (by rw [hop]; decide)) hop)
  rw [hframe]
  have hblank : (Frame.blank f.numValues).Parted 0 [] :=
    ⟨rfl, fun _ h => absurd h List.not_mem_nil, fun _ h => absurd h List.not_mem_nil,
      fun _ h => absurd h List.not_mem_nil⟩
  refine hblank.foldl (Frame.sized_blank _) ?_ ?_ ?_ hneed
  · intro r hr
    obtain ⟨b, hb, v, hv, hr⟩ := mem_roomsIn.mp hr
    rw [value_of_mem_roomsOf hr]
    exact value_lt_of_home hacc hb hv
  · intro r hr s hs hk
    obtain ⟨b, hb, v, hv, hr⟩ := mem_roomsIn.mp hr
    obtain ⟨c, hc, w, hw, hs⟩ := mem_roomsIn.mp hs
    have hvw : r.value = s.value := congrArg Prod.fst hk
    rw [value_of_mem_roomsOf hr, value_of_mem_roomsOf hs] at hvw
    subst hvw
    exact eq_of_key hr hs hk
  · intro r hr
    obtain ⟨b, hb, v, hv, hr⟩ := mem_roomsIn.mp hr
    exact align_of_mem_roomsOf hr

/-- In the frame of a verified function whose stack an offset can reach, the slots, the second slots of
phis and the regions of allocations are aligned, inside the stack that is taken, and apart. -/
theorem frame_parted (hf : f.verify = .ok []) (hfit : frameBytes f < 2147483648) :
    (Frame.ofFunc f).size.toInt = frameBytes f ∧ 16 ∣ frameBytes f ∧
      (∀ r ∈ roomsIn f, -(frameBytes f : Int) ≤ ((Frame.ofFunc f).offset r.key).toInt ∧
        ((Frame.ofFunc f).offset r.key).toInt + r.bytes ≤ 0 ∧
        (r.align : Int) ∣ ((Frame.ofFunc f).offset r.key).toInt) ∧
      ∀ r ∈ roomsIn f, ∀ s ∈ roomsIn f, r.key ≠ s.key → (Frame.ofFunc f).Clear r s := by
  have hle : frameNeed f ≤ frameBytes f := by
    unfold frameBytes
    omega
  have hparted := parted_ofFunc hf (Nat.lt_of_le_of_lt hle hfit)
  refine ⟨Frame.toInt_size hparted.low hfit, Nat.dvd_mul_left _ _, fun r hr => ?_, hparted.clear⟩
  have := hparted.inside r hr
  exact ⟨by omega, this.2, hparted.aligned r hr⟩

/-- A loop with a counter, four lanes and three bytes of stack. -/
def roomy : Func where
  name := "roomy"
  ret := .i32
  params := [.i32, .v4i32]
  values := #[
    { op := .param, type := .i32, block := some 0 },
    { op := .param, type := .v4i32, block := some 0, aux := 1 },
    { op := .alloca, type := .ptr, block := some 0, aux := 3 },
    { op := .phi, type := .i32, block := some 1, args := [.value 0, .value 5] },
    { op := .phi, type := .v4i32, block := some 1, args := [.value 1, .value 4] },
    { op := .extract, type := .i32, block := some 1, args := [.value 4] },
    { op := .icmp, type := .i1, block := some 1, args := [.value 3, .value 5] }]
  blocks := #[
    { values := [0, 1, 2], kind := .jump, succs := [1] },
    { values := [3, 4, 5, 6], kind := .branch, control := .value 6, succs := [1, 2],
      preds := [0, 1] },
    { kind := .ret, control := .value 3, preds := [1] }]
  layout := [0, 1, 2]
  paramValues := [0, 1]

theorem frame_parted_roomy : roomy.verify = .ok [] ∧ frameBytes roomy = 112 ∧
    (Frame.ofFunc roomy).size.toInt = 112 ∧
    ((roomsIn roomy).map fun r => ((Frame.ofFunc roomy).offset r.key).toInt) =
      [-8, -32, -40, -48, -56, -64, -80, -96, -104, -112] ∧
    ∀ r ∈ roomsIn roomy, ∀ s ∈ roomsIn roomy, r.key ≠ s.key →
      (Frame.ofFunc roomy).Clear r s := by
  have hf : roomy.verify = .ok [] := Func.isVerified_iff.mp (by decide +kernel)
  have hbytes : frameBytes roomy = 112 := by decide +kernel
  have h := frame_parted hf (by rw [hbytes]; decide)
  exact ⟨hf, hbytes, by rw [h.1, hbytes]; rfl, by decide +kernel, h.2.2.2⟩

/-! ## The limit on the frame

Offsets are kept in 32 bits, so the size that is held against the limit is the exact size wrapped to 32
bits: the same number as long as the stack that the function needs stays below 2^31 bytes, and another one
beyond. -/

section limit

open Outcome

namespace Frame

variable {fr : Frame} {n : Nat} {r : Room} {rooms : List Room}

/-- Wrapping to more bits leaves the lower 32. -/
theorem bmod_congr {m : Nat} (hm : (4294967296 : Int) ∣ m) (x : Int) :
    Int.bmod x m % 4294967296 = x % 4294967296 := by
  rw [← Int.emod_emod_of_dvd _ hm, Int.bmod_emod, Int.emod_emod_of_dvd _ hm]

theorem toInt_neg_congr (low : Int32) : (-low).toInt % 4294967296 = -low.toInt % 4294967296 := by
  rw [Int32.toInt_neg]
  exact bmod_congr (by decide) _

theorem toInt_ofNat_congr (n : Nat) : (Int64.ofNat n).toInt % 4294967296 = n % 4294967296 := by
  rw [Int64.toInt_ofNat']
  exact bmod_congr (by decide) _

theorem toInt_add_congr (x y : Int64) :
    (x + y).toInt % 4294967296 = (x.toInt + y.toInt) % 4294967296 := by
  rw [Int64.toInt_add]
  exact bmod_congr (by decide) _

theorem toInt_sub_congr (x y : Int64) :
    (x - y).toInt % 4294967296 = (x.toInt - y.toInt) % 4294967296 := by
  rw [Int64.toInt_sub]
  exact bmod_congr (by decide) _

theorem toInt_toInt32_congr (x : Int64) : x.toInt32.toInt % 4294967296 = x.toInt % 4294967296 := by
  rw [Int64.toInt_toInt32]
  exact bmod_congr (by decide) _

/-- The lower 32 bits of a depth in use decide those of the next one. -/
theorem low_put_congr (hlow : fr.low.toInt % 4294967296 = -(n : Int) % 4294967296)
    (halign : r.align = 8 ∨ r.align = 16) :
    (fr.put r).low.toInt % 4294967296 = -(r.below n : Int) % 4294967296 := by
  have hsum := toInt_add_congr (-fr.low).toInt64 (Int64.ofNat r.bytes)
  have hmore := toInt_add_congr ((-fr.low).toInt64 + Int64.ofNat r.bytes) (Int64.ofNat r.align)
  have hdepth := toInt_sub_congr ((-fr.low).toInt64 + Int64.ofNat r.bytes + Int64.ofNat r.align) 1
  have hneg := toInt_neg_congr fr.low
  have hbytes := toInt_ofNat_congr r.bytes
  have halign' := toInt_ofNat_congr r.align
  rw [Int32.toInt_toInt64] at hsum
  rw [show (1 : Int64).toInt = 1 from rfl] at hdepth
  have hround := toInt_sub_congr 0 (((-fr.low).toInt64 + Int64.ofNat r.bytes + Int64.ofNat r.align - 1) &&&
    ~~~(Int64.ofNat r.align - 1))
  rw [Int64.zero_sub, toInt_and_not _ halign, show (0 : Int64).toInt = 0 from rfl] at hround
  rw [low_put, below, toInt_toInt32_congr, hround, Room.below]
  rcases halign with h | h
  · rw [h] at hdepth hmore halign' ⊢
    omega
  · rw [h] at hdepth hmore halign' ⊢
    omega

theorem low_foldl_congr (hlow : fr.low.toInt % 4294967296 = -(n : Int) % 4294967296)
    (halign : ∀ r ∈ rooms, r.align = 8 ∨ r.align = 16) :
    (rooms.foldl put fr).low.toInt % 4294967296 =
      -((rooms.foldl (fun n r => r.below n) n : Nat) : Int) % 4294967296 := by
  induction rooms generalizing fr n with
  | nil => exact hlow
  | cons r rooms ih =>
    exact ih (low_put_congr hlow (halign r List.mem_cons_self))
      fun s hs => halign s (List.mem_cons_of_mem _ hs)

/-- The size is the depth rounded up to sixteen, wrapped to 32 bits. -/
theorem toInt_size_wraps (hlow : fr.low.toInt % 4294967296 = -(n : Int) % 4294967296) :
    fr.size.toInt = Int.bmod ((n + 15) / 16 * 16 : Nat) 4294967296 := by
  have hround := toInt_and_not (-fr.low.toInt64 + 15) (.inr rfl)
  have hdepth : (-fr.low.toInt64 + 15).toInt % 4294967296 = (n + 15) % 4294967296 := by
    have hsum := toInt_add_congr (-fr.low.toInt64) 15
    have hneg := toInt_sub_congr 0 fr.low.toInt64
    rw [Int64.zero_sub, Int32.toInt_toInt64, show (0 : Int64).toInt = 0 from rfl] at hneg
    rw [show (15 : Int64).toInt = 15 from rfl] at hsum
    omega
  have hsize : fr.size.toInt = Int.bmod ((-fr.low.toInt64 + 15).toInt / 16 * 16) 4294967296 := by
    rw [size, Int64.toInt_toInt32]
    exact congrArg (Int.bmod · 4294967296) hround
  have hmod : (-fr.low.toInt64 + 15).toInt / 16 * 16 % (4294967296 : Nat) =
      ((n + 15) / 16 * 16 : Nat) % (4294967296 : Nat) := by
    omega
  rw [hsize, ← Int.emod_bmod, hmod, Int.emod_bmod]

end Frame

variable {cpu : Features} {limit : Int}

/-- The size of a verified function's frame is the exact one, wrapped to 32 bits. -/
theorem toInt_size_ofFunc (hf : f.verify = .ok []) :
    (Frame.ofFunc f).size.toInt = Int.bmod (frameBytes f) 4294967296 := by
  have hframe := ofFunc_eq (f := f) fun b hb v hv hop =>
    Int.le_of_lt (region_pos (Func.value_typed hf hb hv (by rw [hop]; decide)) hop)
  refine Frame.toInt_size_wraps (n := frameNeed f) ?_
  rw [hframe]
  refine Frame.low_foldl_congr rfl fun r hr => ?_
  obtain ⟨b, hb, v, hv, hr⟩ := mem_roomsIn.mp hr
  exact align_of_mem_roomsOf hr

/-- Code is made only for a frame within the limit, and its size is reported. -/
theorem generate_frame {out : Output} (h : generate f cpu limit = .ok out) :
    out.frameSize = (Frame.ofFunc f).size ∧
      ¬ (0 < limit ∧ limit < (Frame.ofFunc f).size.toInt) := by
  obtain ⟨⟨⟩, -, h⟩ := bind_eq_ok.mp h
  dsimp only at h
  split at h
  · obtain ⟨_, h, -⟩ := bind_eq_ok.mp h
    cases h
  · next hlimit =>
    obtain ⟨⟨code, ls⟩, -, h⟩ := bind_eq_ok.mp h
    obtain ⟨full, -, h⟩ := bind_eq_ok.mp h
    obtain ⟨bytes, -, h⟩ := bind_eq_ok.mp h
    obtain rfl := Except.ok.inj h
    exact ⟨rfl, hlimit⟩

/-- A function whose frame is beyond the limit is turned down. -/
theorem generate_over (hf : f.verify = .ok []) (hlimit : 0 < limit)
    (hover : limit < (Frame.ofFunc f).size.toInt) : (generate f cpu limit).TurnedDown := by
  have hcheck := settles_check (c := { func := f, frame := .ofFunc f, cpu }) hf
  unfold generate
  dsimp only
  rcases hcheck with ⟨⟨⟩, hok, -⟩ | hdown | ⟨_, hn, -⟩
  · rw [hok, ok_bind, if_pos ⟨hlimit, hover⟩]
    exact (turnedDown_fail _).bind _
  · exact hdown.bind _
  · exact hn.elim

/-- The limit is held against the exact size of the frame, wrapped to 32 bits. As long as the exact size
is below 2^31, code is made only for frames within the limit, the size reported is exact, and a function
that needs more is turned down. -/
theorem frame_limit_wrapped (cpu : Features) (hf : f.verify = .ok []) (hlimit : 0 < limit) :
    (∀ out, generate f cpu limit = .ok out →
      out.frameSize.toInt = Int.bmod (frameBytes f) 4294967296 ∧
        Int.bmod (frameBytes f) 4294967296 ≤ limit) ∧
    (limit < Int.bmod (frameBytes f) 4294967296 → (generate f cpu limit).TurnedDown) ∧
    (frameBytes f < 2147483648 →
      (∀ out, generate f cpu limit = .ok out →
        out.frameSize.toInt = frameBytes f ∧ frameBytes f ≤ limit) ∧
      (limit < frameBytes f → (generate f cpu limit).TurnedDown)) := by
  have hsize := toInt_size_ofFunc hf
  have hmade : ∀ out, generate f cpu limit = .ok out →
      out.frameSize.toInt = Int.bmod (frameBytes f) 4294967296 ∧
        Int.bmod (frameBytes f) 4294967296 ≤ limit := by
    intro out hout
    obtain ⟨hframe, hwithin⟩ := generate_frame hout
    rw [hframe, hsize]
    rw [hsize] at hwithin
    exact ⟨rfl, by omega⟩
  have hover : limit < Int.bmod (frameBytes f) 4294967296 → (generate f cpu limit).TurnedDown :=
    fun h => generate_over hf hlimit (by rwa [hsize])
  refine ⟨hmade, hover, fun hfit => ?_⟩
  rw [Int.bmod_eq_of_le (by omega) (by omega)] at hmade hover
  exact ⟨hmade, hover⟩

/-- Four gigabytes of stack. -/
def vast : Func where
  name := "vast"
  ret := .void
  params := []
  values := #[{ op := .alloca, type := .ptr, block := some 0, aux := 4294967296 }]
  blocks := #[{ values := [0], kind := .ret }]
  layout := [0]

theorem frame_limit_wrapped_vast : vast.verify = .ok [] ∧ frameBytes vast = 4294967312 ∧
    (∃ out, generate vast {} 4096 = .ok out ∧ out.frameSize.toInt = 16) ∧
    roomy.verify = .ok [] ∧ frameBytes roomy = 112 ∧ (generate roomy {} 64).TurnedDown := by
  have hvast : vast.verify = .ok [] := Func.isVerified_iff.mp (by decide +kernel)
  have hbytes : frameBytes vast = 4294967312 := by decide +kernel
  have hroomy : roomy.verify = .ok [] := Func.isVerified_iff.mp (by decide +kernel)
  have hbytes' : frameBytes roomy = 112 := by decide +kernel
  have hcode : (generate vast {} 4096).toOption.isSome = true := by decide +kernel
  obtain ⟨hmade, -⟩ := frame_limit_wrapped {} hvast (show (0 : Int) < 4096 by decide)
  obtain ⟨-, -, hexact⟩ := frame_limit_wrapped {} hroomy (show (0 : Int) < 64 by decide)
  refine ⟨hvast, hbytes, ?_, hroomy, hbytes', (hexact (by rw [hbytes']; decide)).2 (by rw [hbytes']; decide)⟩
  cases hout : generate vast {} 4096 with
  | error e =>
    rw [hout] at hcode
    cases hcode
  | ok out =>
    refine ⟨out, rfl, ?_⟩
    rw [(hmade out hout).1, hbytes]
    rfl

end limit

end SsaJit.Lower
