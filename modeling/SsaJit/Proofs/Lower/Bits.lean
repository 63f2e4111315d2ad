import SsaJit.Proofs.Lower.Confined
import SsaJit.Proofs.Lower.Phis
import SsaJit.Proofs.X86.Encoding

/-! One-bit values in the frame. The code of such a value ends with storing one byte to the value's slot,
and that byte is 0 or 1: it is cut to its lowest bit, or it is loaded from a slot that holds 0 or 1
already, or it is a constant. Until then the slot has what it had. -/

namespace SsaJit.Lower

open X86

/-! ## Cells that hold bits -/

section cells

variable {f : Func} {fr : Frame} {K K' : Set (ValueId × Use)} {k key : ValueId × Use}
  {m m' m'' : Machine} {d e : Int32} {n w : Nat} {r : Room} {i : Instr Label} {is : List (Instr Label)}
  {b : BlockId} {v : ValueId}

/-- The rooms that are to hold bits: the slots of one-bit values, and the second slots of such phis. -/
def bitRooms (f : Func) : Set (ValueId × Use) :=
  {k | ∃ r ∈ roomsIn f, r.key = k ∧ 0 < r.bytes ∧ r.use ≠ .region ∧ (f.value r.value).type = .i1}

/-- Where these rooms are. -/
def bitCells (f : Func) (fr : Frame) (d : Int32) : Prop := ∃ k ∈ bitRooms f, fr.offset k = d

theorem le_slotBytes (t : Ty) : 8 ≤ slotBytes t := by
  unfold slotBytes
  split <;> decide

theorem slot_mem_bitRooms (hb : b ∈ f.layout) (hv : v ∈ (f.block b).values)
    (ht : (f.value v).type = .i1) : (v, .slot) ∈ bitRooms f :=
  ⟨slotRoom f v, slotRoom_mem hb hv (by rw [ht]; rfl), rfl,
    Nat.lt_of_lt_of_le (by decide) (le_slotBytes _), by simp [slotRoom], ht⟩

theorem stage_mem_bitRooms (hb : b ∈ f.layout) (hv : v ∈ (f.block b).values)
    (ht : (f.value v).type = .i1) (hphi : (f.value v).op = .phi) : (v, .stage) ∈ bitRooms f :=
  ⟨stageRoom f v, stageRoom_mem hb hv (by rw [ht]; rfl) hphi, rfl,
    Nat.lt_of_lt_of_le (by decide) (le_slotBytes _), by simp [stageRoom], ht⟩

/-- The rooms hold 0 or 1, each in its lowest byte. -/
def Bits (fr : Frame) (K : Set (ValueId × Use)) (m : Machine) : Prop :=
  ∀ k ∈ K, (m.mem.get (cellAt m (fr.offset k))).toNat < 2

theorem Bits.mono (h : Bits fr K' m) (hK : K ⊆ K') : Bits fr K m := fun k hk => h k (hK hk)

/-- Bytes at the beginning of another room are away from a bit. -/
theorem misses_room (hlaid : fr.Laid n (roomsIn f)) (hr : r ∈ roomsIn f) (hw : w ≤ r.bytes)
    (hk : k ∈ bitRooms f) (hne : k ≠ r.key) : Misses (fr.offset r.key) w (fr.offset k) := by
  obtain ⟨s, hs, rfl, hpos, -⟩ := hk
  have hin := hlaid.inside _ hr
  have hin' := hlaid.inside _ hs
  have hclear := hlaid.disjoint hr hs hne.symm
  exact ⟨by omega, fun _ => ⟨by omega, by omega⟩⟩

theorem misses_nothing (hlaid : fr.Laid n (roomsIn f)) (hk : k ∈ bitRooms f) :
    Misses d 0 (fr.offset k) := by
  obtain ⟨s, hs, rfl, hpos, -⟩ := hk
  have hin := hlaid.inside _ hs
  exact ⟨by omega, fun h => absurd h (Nat.lt_irrefl 0)⟩

/-- What is confined to other bytes keeps the bits. -/
theorem Bits.keep (h : Bits fr K m) (hK : K ⊆ bitRooms f) (hi : Keeps d w i)
    (hc : Carries (bitCells f fr) i m m') (hmiss : ∀ k ∈ K, Misses d w (fr.offset k)) :
    Bits fr K m' := by
  intro k hk
  obtain ⟨hrbp, hmem⟩ := hi.spares hc ⟨k, hK hk, rfl⟩ (hmiss k hk)
  rw [cellAt, hrbp, hmem]
  exact h k hk

theorem Bits.carried (h : Bits fr K m) (hK : K ⊆ bitRooms f) (his : Confined d w (straight is))
    (hc : Carried (bitCells f fr) is m m') (hmiss : ∀ k ∈ K, Misses d w (fr.offset k)) :
    Bits fr K m' := by
  induction is generalizing m with
  | nil =>
    obtain rfl := hc
    exact h
  | cons i is ih =>
    obtain ⟨m₁, hi, hc⟩ := hc
    exact ih (h.keep hK (his.keeps i (mem_straight.mpr List.mem_cons_self)) hi hmiss)
      (his.subset (List.subset_cons_self ..)) hc

end cells

/-! ## Code that leaves a bit -/

section leaves

variable {f : Func} {fr : Frame} {K : Set (ValueId × Use)} {m m' : Machine} {d : Int32} {code pre : Code}
  {r : Reg} {p q : Place}

/-- Code that stores nothing to the frame until at last it stores the low byte of a register at an
offset, and that byte is 0 or 1 if the code began with bits in the rooms. -/
def LeavesBit (f : Func) (fr : Frame) (K : Set (ValueId × Use)) (d : Int32) (code : Code) : Prop :=
  ∃ is r, code = straight (is ++ [.store (inFrame d) r .b1]) ∧ Confined 0 0 (straight is) ∧
    ∀ m m', Bits fr K m → Carried (bitCells f fr) is m m' → (m'.reg r).toUInt8.toNat < 2

theorem toNat_and_one (w : UInt64) : (w &&& 1).toUInt8.toNat < 2 := by
  have hle : w.toNat &&& 1 ≤ 1 := Nat.and_le_right
  rw [UInt64.toNat_toUInt8, UInt64.toNat_and]
  change (w.toNat &&& 1) % 256 < 2
  omega

/-- Code without labels is a list of instructions. -/
theorem straight_of_unmarked (h : marks code = []) : ∃ is, code = straight is := by
  induction code with
  | nil => exact ⟨[], rfl⟩
  | cons item code ih =>
    cases item with
    | mark l => cases h
    | instr i =>
      obtain ⟨is, rfl⟩ := ih h
      exact ⟨i :: is, rfl⟩

/-- A bit that is stored from a register is cut to 0 or 1 first. -/
theorem leavesBit_storeInt (hpre : marks pre = []) (hc : Confined 0 0 pre) (hr : r ≠ .rbp)
    (h : storeInt (inFrame d) r .i1 = .ok code) : LeavesBit f fr K d (pre ++ code) := by
  obtain ⟨is, rfl⟩ := straight_of_unmarked hpre
  cases h
  refine ⟨is ++ [Instr.aluImm .and r 1], r, ?_, ?_, fun m m' _ hrun => ?_⟩
  · rw [List.append_assoc, straight_append is, if_pos rfl]
  · rw [straight_append]
    exact hc.append (.quiet (by
      simp [quiet, Instr.stores?, Instr.jump?, Instr.pushes, Instr.sets, hr.symm]))
  · obtain ⟨m₁, -, hand⟩ := carried_append.mp hrun
    obtain ⟨m₂, hrun₂, hset⟩ := and_one_spec m₁ r
    rw [execAll_one] at hrun₂
    rw [(carried_one.mp hand).unique hrun₂, hset.value]
    exact toNat_and_one _

theorem load_byte (m : Machine) (a : UInt64) : (m.load a .u8).toUInt8 = m.mem.get a := by
  have hbytes : leBytes (m.mem.read a 1).length (ofLeBytes (m.mem.read a 1)) = m.mem.read a 1 :=
    leBytes_ofLeBytes (by simp)
  rw [Memory.length_read] at hbytes
  simpa [leBytes, Memory.read, Machine.load, Memory.readWord] using hbytes

/-- What is loaded from a room that holds a bit. -/
theorem Bits.loaded (h : Bits fr K m) {key : ValueId × Use} (hk : key ∈ K)
    (hc : Carries (bitCells f fr) (.load r (inFrame (fr.offset key)) .u8) m m') :
    m' = m.setReg r (m'.reg r) ∧ (m'.reg r).toUInt8.toNat < 2 := by
  have hload : m.inline (.load r (inFrame (fr.offset key)) .u8) =
      .ok (m.setReg r (m.load (cellAt m (fr.offset key)) .u8)) := rfl
  rw [hc.unique hload, Machine.reg_setReg_self, load_byte]
  exact ⟨rfl, h key hk⟩

theorem leavesBit_copy {key : ValueId × Use} (hk : key ∈ K) :
    LeavesBit f fr K d (copy (inFrame d) (inFrame (fr.offset key)) 1) := by
  have hcode : copy (inFrame d) (inFrame (fr.offset key)) 1 = straight
      [.load .rcx (shift (inFrame (fr.offset key)) 0) .u8, .store (shift (inFrame d) 0) .rcx .b1] := rfl
  rw [hcode, shift_zero, shift_zero]
  exact ⟨[_], .rcx, rfl, .quiet rfl, fun m m' hbits hrun => (hbits.loaded hk (carried_one.mp hrun)).2⟩

theorem leavesBit_const {w : UInt64} (hw : Kind.i1.cut w = w) :
    LeavesBit f fr K d (straight [.movImm .rax w, .store (inFrame d) .rax .b1]) := by
  refine ⟨[.movImm .rax w], .rax, rfl, .quiet (by simp [quiet_movImm]), fun m m' _ hrun => ?_⟩
  have hmov : m.inline (.movImm .rax w) = .ok (m.setReg .rax w) := by
    have hin : (Instr.movImm .rax w : Instr Label).isInline = true := by
      unfold Instr.movImm
      split <;> rfl
    rw [Machine.inline, if_pos hin, Instr.map_movImm, exec_movImm]
  rw [(carried_one.mp hrun).unique hmov, Machine.reg_setReg_self, ← hw]
  exact toNat_and_one w

/-- One of two bits. -/
theorem leavesBit_choice {x y : ValueId × Use} (hx : x ∈ K) (hy : y ∈ K) (hK : K ⊆ bitRooms f)
    (hmiss : ∀ k ∈ K, Misses 0 0 (fr.offset k)) (hpre : marks pre = []) (hc : Confined 0 0 pre) :
    LeavesBit f fr K d (pre ++ straight (selectChunk (inFrame d) (inFrame (fr.offset x))
      (inFrame (fr.offset y)) 1)) := by
  obtain ⟨is, rfl⟩ := straight_of_unmarked hpre
  refine ⟨is ++ [Instr.load .rcx (inFrame (fr.offset x)) .u8, .load .rdx (inFrame (fr.offset y)) .u8,
    .cmov .e .rcx .rdx], .rcx, ?_, ?_, fun m m' hbits hrun => ?_⟩
  · rw [List.append_assoc, straight_append is]
    rfl
  · rw [straight_append]
    exact hc.append (.quiet rfl)
  · obtain ⟨m₁, his, m₂, hload, m₃, hload', hcmov⟩ := carried_append.mp hrun
    have hbits₁ := hbits.carried hK hc his hmiss
    have hquiet : Confined 0 0 (straight [.load .rcx (inFrame (fr.offset x)) .u8]) := .quiet rfl
    have hbits₂ := hbits₁.carried hK hquiet (carried_one.mpr hload) hmiss
    obtain ⟨-, hfirst⟩ := hbits₁.loaded hx hload
    obtain ⟨hset, hsecond⟩ := hbits₂.loaded hy hload'
    have hmoved : m₃.inline (.cmov .e .rcx .rdx) =
        .ok (if Cond.e.holds m₃.flags then m₃.setReg .rcx (m₃.reg .rdx) else m₃) := rfl
    rw [(carried_one.mp hcmov).unique hmoved]
    split
    · rwa [Machine.reg_setReg_self]
    · rw [hset, Machine.reg_setReg_ne _ _ (by decide)]
      exact hfirst

theorem stored_byte (mem : Memory) (a w : UInt64) : (mem.writeWord a 1 w).get a = w.toUInt8 := by
  change (mem.set a w.toUInt8).get a = w.toUInt8
  rw [Memory.get_set, if_pos rfl]

/-! ## One-bit values -/

variable {c : Context} {x : Value} {v : ValueId} {ts : List Ty} {home : Prop} {n : Nat}

theorem LeavesBit.congr {code' : Code} (h : LeavesBit f fr K d code) (heq : code' = code) :
    LeavesBit f fr K d code' := heq ▸ h

theorem eachLane_one {lane : Nat → Outcome Code} (h : eachLane 1 lane = .ok code) :
    lane 0 = .ok code := by
  obtain ⟨parts, hparts, h⟩ := Outcome.bind_eq_ok.mp h
  cases h
  obtain ⟨part, rest, hpart, hrest, rfl⟩ := List.forall₂_cons_left_iff.mp (Outcome.mapM_eq_ok.mp hparts)
  rw [List.forall₂_nil_left_iff.mp hrest, hpart]
  simp

theorem leavesBit_binary {op : Op} {y : Place} (hop : op.isFloatBinary = false)
    (h : scalarBinary op .i1 (inFrame d) p y = .ok code) : LeavesBit f fr K d code := by
  have hf : floatArith op = none := by cases op <;> first | rfl | cases hop
  rw [scalarBinary, hf] at h
  obtain ⟨a, ha, h⟩ := Outcome.bind_eq_ok.mp h
  obtain ⟨b, hb, h⟩ := Outcome.bind_eq_ok.mp h
  obtain ⟨s, hs, h⟩ := Outcome.bind_eq_ok.mp h
  cases h
  refine leavesBit_storeInt ?_ ?_ (by decide) hs
  · rw [marks_append, marks_append, unmarked_loadInt _ _ _ _ a ha, unmarked_loadInt _ _ _ _ b hb,
      marks_straight]
    rfl
  · exact ((confines_loadInt (by decide) _ _ _ a ha).append
      (confines_loadInt (by decide) _ _ _ b hb)).append (.quiet (quiet_intArith op))

theorem leavesBit_cast {op : Op} {s : Kind} {big done : Label} (hconv : Converts op s .i1)
    (h : cast op s .i1 (inFrame d) p big done = .ok code) : LeavesBit f fr K d code := by
  cases op with
  | trunc | zext | ptrtoint | inttoptr | sext =>
    obtain ⟨a, ha, h⟩ := Outcome.bind_eq_ok.mp h
    obtain ⟨b, hb, h⟩ := Outcome.bind_eq_ok.mp h
    cases h
    exact leavesBit_storeInt (unmarked_loadInt _ _ _ _ a ha) (confines_loadInt (by decide) _ _ _ a ha)
      (by decide) hb
  | fptosi | fptoui =>
    obtain ⟨b, hb, h⟩ := Outcome.bind_eq_ok.mp h
    cases h
    exact leavesBit_storeInt (marks_straight _) (.quiet rfl) (by decide) hb
  | sitofp | uitofp => cases hconv.2
  | _ => exact hconv.elim

theorem conversion_leavesBit {ls ls' : Labels} (hts : List.Forall₂ c.func.OfType x.args ts)
    (hty : Func.WellTyped x ts home) (htype : x.type = .i1) (hop : x.op.isCast = true)
    (hne : x.op ≠ .bitcast) (h : c.conversion v x ls = .ok (code, ls')) :
    LeavesBit f fr K (c.frame.offset (v, .slot)) code := by
  have helem : x.type.elemKind = .i1 := by rw [htype]; rfl
  have hlanes : x.type.numLanes = 1 := by rw [htype]; rfl
  rw [Func.WellTyped, Op.isBinary_of_isCast hop, if_neg Bool.false_ne_true, if_pos hop] at hty
  obtain ⟨s, rfl, hrule⟩ := hty
  obtain ⟨source, hsource, h⟩ := Outcome.bind_eq_ok.mp h
  obtain ⟨o, ho, h⟩ := Outcome.bind_eq_ok.mp h
  obtain rfl : s = source.type := by simpa using argType_of_argument hts hsource
  obtain ⟨-, hconv⟩ := converts_of_castRule hop hne hrule
  dsimp only at h
  split at h
  · next hvector =>
    rw [htype] at hvector
    simp [vectorCast, Ty.i1, Ty.v4f32, Ty.v4i32] at hvector
  · obtain ⟨lanes, heach, h⟩ := Outcome.bind_eq_ok.mp h
    cases h
    rw [hlanes] at heach
    have hlane := eachLane_one heach
    rw [helem] at hconv
    rw [helem, Nat.zero_mul, shift_zero] at hlane
    exact leavesBit_cast hconv hlane

/-- The place of an operand that is to be a bit. -/
theorem slot_of_bit {i : Nat} {o : Operand} (hts : List.Forall₂ c.func.OfType x.args ts)
    (hargs : ∀ o ∈ x.args, c.func.OfType o .i1 → ∃ w, o = .value w ∧ (w, .slot) ∈ K)
    (ho : Outcome.at? x.args i = .ok o) (hi : ts[i]? = some .i1) :
    ∃ w, c.slot o = inFrame (c.frame.offset (w, .slot)) ∧ (w, .slot) ∈ K := by
  obtain ⟨hlt, rfl⟩ := List.getElem?_eq_some_iff.mp (Outcome.at?_eq_ok.mp ho)
  obtain ⟨hlt', hi⟩ := List.getElem?_eq_some_iff.mp hi
  have htype := (List.forall₂_iff_get.mp hts).2 i hlt hlt'
  rw [List.get_eq_getElem, List.get_eq_getElem, hi] at htype
  obtain ⟨w, hw, hmem⟩ := hargs _ (List.getElem_mem hlt) htype
  exact ⟨w, by rw [hw]; rfl, hmem⟩

/-- Only scalars compare to one bit. -/
theorem isVector_of_maskType {s t : Ty} (h : s.maskType = .ok t) : t.isVector = s.isVector := by
  cases s with
  | scalar k =>
    obtain rfl : Ty.i1 = t := Except.ok.inj h
    rfl
  | vec e m =>
    obtain ⟨k, rfl, -⟩ := maskType_vec h
    rfl

theorem select_leavesBit (hts : List.Forall₂ c.func.OfType x.args ts)
    (hty : ∃ s, ts = [s, x.type, x.type] ∧
      (s = .i1 ∨ s.isVector = true ∧ s.isInt = true ∧ s.numLanes = x.type.numLanes))
    (hvalid : ∀ t ∈ ts, t.Valid) (htype : x.type = .i1) (hK : K ⊆ bitRooms c.func)
    (hlaid : c.frame.Laid n (roomsIn c.func))
    (hargs : ∀ o ∈ x.args, c.func.OfType o .i1 → ∃ w, o = .value w ∧ (w, .slot) ∈ K)
    (h : c.select x (inFrame d) = .ok code) : LeavesBit c.func c.frame K d code := by
  obtain ⟨s, rfl, hs⟩ := hty
  obtain ⟨cond, hcond, h⟩ := Outcome.bind_eq_ok.mp h
  obtain ⟨mask, -, h⟩ := Outcome.bind_eq_ok.mp h
  obtain ⟨y, hy, h⟩ := Outcome.bind_eq_ok.mp h
  obtain ⟨z, hz, h⟩ := Outcome.bind_eq_ok.mp h
  obtain rfl : s = cond.type := by simpa using argType_of_argument hts hcond
  -- a vector has at least two lanes
  have hscalar : cond.type.isVector = false := by
    cases hv : cond.type with
    | scalar k => rfl
    | vec e m =>
      have htwo : 2 ≤ m.toNat := (hv ▸ hvalid cond.type List.mem_cons_self : (Ty.vec e m).Valid).2.1
      rw [hv, htype] at hs
      rcases hs with hs | hs
      · cases hs
      · have hone : m.toNat = 1 := hs.2.2
        omega
  obtain ⟨v, hv, hvK⟩ := slot_of_bit hts hargs hy (by rw [htype]; rfl)
  obtain ⟨w, hw, hwK⟩ := slot_of_bit hts hargs hz (by rw [htype]; rfl)
  have hsize : x.type.size = 1 := by rw [htype]; rfl
  simp only [hscalar, Bool.not_false, if_true, hv, hw, hsize] at h
  obtain ⟨a, ha, h⟩ := Outcome.bind_eq_ok.mp h
  cases h
  have hmarks : marks (a ++ straight [.alu .test .rax .rax]) = [] := by
    rw [marks_append, unmarked_loadInt _ _ _ _ a ha]
    rfl
  have hquiet : Confined 0 0 (a ++ straight [.alu .test .rax .rax]) :=
    (confines_loadInt (by decide) _ _ _ a ha).append (.quiet rfl)
  have hchoice : LeavesBit c.func c.frame K d _ := leavesBit_choice hvK hwK hK
    (fun k hk => misses_nothing hlaid (hK hk)) hmarks hquiet
  refine hchoice.congr ?_
  have hpiece : (wordChunks 1).flatMap (fun y => selectChunk (shift (inFrame d) y.1)
      (shift (inFrame (c.frame.offset (v, .slot))) y.1) (shift (inFrame (c.frame.offset (w, .slot))) y.1)
      y.2) = selectChunk (inFrame d) (inFrame (c.frame.offset (v, .slot)))
        (inFrame (c.frame.offset (w, .slot))) 1 := by
    rw [show wordChunks 1 = [(0, 1)] from rfl, List.flatMap_singleton, shift_zero, shift_zero, shift_zero]
  rw [hpiece, List.append_assoc]
  rfl

theorem call_leavesBit (htype : x.type = .i1) (h : c.call x (inFrame d) = .ok code) :
    LeavesBit f fr K d code := by
  unfold Context.call at h
  split at h
  · cases h
  · obtain ⟨loaded, hloaded, h⟩ := Outcome.bind_eq_ok.mp h
    obtain ⟨target, htarget, h⟩ := Outcome.bind_eq_ok.mp h
    rw [htype] at h
    obtain ⟨stored, hstored, h⟩ := Outcome.bind_eq_ok.mp h
    cases h
    refine leavesBit_storeInt ?_ ?_ (by decide) hstored
    · rw [marks_append, marks_append, unmarked_passArgs _ _ _ _ _ hloaded,
        unmarked_loadInt _ _ _ _ _ htarget, marks_straight]
      rfl
    · exact ((confines_passArgs 0 (by decide) _ hloaded).append
        (confines_loadInt (by decide) _ _ _ _ htarget)).append (.straight fun i hi => by
          rw [List.mem_singleton.mp hi]
          exact Keeps.call)

theorem binary_leavesBit (hty : Func.WellTyped x ts home) (hop : x.op.isBinary = true)
    (htype : x.type = .i1) (h : c.binaryCode x (inFrame d) = .ok code) : LeavesBit f fr K d code := by
  have helem : x.type.elemKind = .i1 := by rw [htype]; rfl
  have hlanes : x.type.numLanes = 1 := by rw [htype]; rfl
  have hscalar : x.type.isVector = false := by rw [htype]; rfl
  have hfloat : x.type.isFloat = false := by rw [htype]; rfl
  rw [Func.WellTyped, if_pos hop] at hty
  have hint : x.op.isFloatBinary = false := by
    cases hf : x.op.isFloatBinary with
    | false => rfl
    | true =>
      rw [if_pos hf, hfloat] at hty
      cases hty.2
  unfold Context.binaryCode at h
  dsimp only at h
  rw [hlanes, if_neg Nat.one_ne_zero] at h
  obtain ⟨a, -, h⟩ := Outcome.bind_eq_ok.mp h
  obtain ⟨b, -, h⟩ := Outcome.bind_eq_ok.mp h
  split at h
  · next hcode =>
    rw [if_neg (by simp [hscalar])] at hcode
    cases hcode
  · rw [helem] at h
    have hlane := eachLane_one h
    rw [Nat.zero_mul, shift_zero] at hlane
    exact leavesBit_binary hint hlane

theorem compare_leavesBit {s : Ty} (hts : List.Forall₂ c.func.OfType x.args [s, s])
    (hmask : s.maskType = .ok x.type) (htype : x.type = .i1)
    (h : c.compareCode x (inFrame d) = .ok code) : LeavesBit f fr K d code := by
  obtain ⟨source, hsource, h⟩ := Outcome.bind_eq_ok.mp h
  obtain rfl : s = source := by simpa using argType_of_typeOf hts hsource
  have hvec : s.isVector = false := by
    rw [← isVector_of_maskType hmask, htype]
    rfl
  have hone : s.numLanes = 1 := by
    cases s with
    | scalar k => rfl
    | vec e m => cases hvec
  rw [hone, if_neg Nat.one_ne_zero] at h
  obtain ⟨a, -, h⟩ := Outcome.bind_eq_ok.mp h
  obtain ⟨b, -, h⟩ := Outcome.bind_eq_ok.mp h
  rw [hvec] at h
  obtain ⟨compared, hcompared, h⟩ := Outcome.bind_eq_ok.mp h
  obtain ⟨stored, hstored, h⟩ := Outcome.bind_eq_ok.mp h
  cases h
  exact leavesBit_storeInt (unmarked_compare _ _ _ _ _ hcompared) (confines_compare _ _ _ _ _ hcompared)
    (by decide) hstored

theorem load_leavesBit (htype : x.type = .i1) (h : c.loadCode x (inFrame d) = .ok code) :
    LeavesBit f fr K d code := by
  have hkind : x.type.kind = .i1 := by rw [htype]; rfl
  obtain ⟨a, -, h⟩ := Outcome.bind_eq_ok.mp h
  obtain ⟨address, haddress, h⟩ := Outcome.bind_eq_ok.mp h
  rw [if_pos hkind] at h
  obtain ⟨stored, hstored, h⟩ := Outcome.bind_eq_ok.mp h
  cases h
  refine leavesBit_storeInt ?_ ?_ (by decide) hstored
  · rw [marks_append, unmarked_loadInt _ _ _ _ _ haddress]
    rfl
  · exact (confines_loadInt (by decide) _ _ _ _ haddress).append (.quiet rfl)

/-- No vector has lanes of one bit. -/
theorem elemType_ne_bit {t : Ty} (hvalid : t.Valid) (hvec : t.isVector = true) : t.elemType ≠ .i1 := by
  cases t with
  | scalar k => cases hvec
  | vec e m =>
    intro hlane
    obtain rfl : e = .i1 := by cases e <;> first | rfl | cases hlane
    exact absurd hvalid.1 (by decide)

theorem plain_leavesBit (hts : List.Forall₂ c.func.OfType x.args ts)
    (hty : Func.WellTyped x ts home) (hvalid : ∀ t ∈ ts, t.Valid) (htype : x.type = .i1)
    (hbit : x.op = .bitcast → ts = [.i1]) (hintr : x.op ≠ .intrinsic)
    (hconst : ∀ lanes, x.constLanes = some lanes → ∀ w ∈ lanes, Kind.i1.cut w = w)
    (hK : K ⊆ bitRooms c.func) (hlaid : c.frame.Laid n (roomsIn c.func))
    (hargs : ∀ o ∈ x.args, c.func.OfType o .i1 → ∃ w, o = .value w ∧ (w, .slot) ∈ K)
    (h : c.plain v x = .ok code) :
    LeavesBit c.func c.frame K (c.frame.offset (v, .slot)) code := by
  have hsize : x.type.size = 1 := by rw [htype]; rfl
  have hscalar : x.type.isVector = false := by rw [htype]; rfl
  have hfloat : x.type.isFloat = false := by rw [htype]; rfl
  have hptr : x.type ≠ .ptr := by rw [htype]; decide
  rw [Context.plain_eq] at h
  -- an operand that is to be a bit is one
  have hcopied : ts = [.i1] → (do return copy (c.home v) (← c.arg x 0) x.type.size) = .ok code →
      LeavesBit c.func c.frame K (c.frame.offset (v, .slot)) code := fun hone h => by
    obtain ⟨a, ha, h⟩ := Outcome.bind_eq_ok.mp h
    obtain ⟨o, ho, ha⟩ := Outcome.bind_eq_ok.mp ha
    cases ha
    obtain ⟨w, hslot, hw⟩ := slot_of_bit hts hargs ho (by rw [hone]; rfl)
    cases h
    exact (leavesBit_copy hw).congr (by rw [hslot, hsize]; rfl)
  split at h
  · next hbin => exact binary_leavesBit hty hbin htype h
  next hbin =>
  have hbin : x.op.isBinary = false := by simpa using hbin
  rw [Func.WellTyped, hbin, if_neg Bool.false_ne_true] at hty
  split at h
  case h_1 hop =>
    have hone : x.constLanes = some [x.aux.toUInt64] := by
      simp [Value.constLanes, Value.isConst, hop, hscalar]
    rw [constant, hscalar, if_neg Bool.false_ne_true, hsize] at h
    cases h
    exact leavesBit_const (hconst _ hone _ List.mem_cons_self)
  case h_2 hop =>
    rw [hop] at hty
    exact absurd hty.2.1 hptr
  case h_3 hop | h_4 hop =>
    rw [hop] at hty
    rw [hty.1] at hfloat
    cases hfloat
  case h_5 hop | h_6 hop =>
    rw [hop] at hty
    obtain ⟨s, rfl, hmask, -⟩ := hty
    exact compare_leavesBit hts hmask htype h
  case h_7 hop => exact hcopied (hbit hop) h
  case h_8 hop =>
    rw [hop, htype] at hty
    exact hcopied hty h
  case h_9 => exact load_leavesBit htype h
  case h_10 hop =>
    rw [hop] at hty
    have hvoid : x.type = .void := hty.1
    rw [htype] at hvoid
    cases hvoid
  case h_11 hop =>
    rw [hop] at hty
    exact absurd hty.1 hptr
  case h_12 hop =>
    rw [hop] at hty
    obtain ⟨a, rfl, hvec, -, hlane⟩ := hty
    exact absurd (hlane.symm.trans htype) (elemType_ne_bit (hvalid a List.mem_cons_self) hvec)
  case h_13 hop =>
    rw [hop] at hty
    rw [hty.2.1] at hscalar
    cases hscalar
  case h_14 hop =>
    rw [hop] at hty
    obtain ⟨a, -, -, hvec, -⟩ := hty
    rw [hvec] at hscalar
    cases hscalar
  case h_15 hop =>
    rw [hop] at hty
    exact select_leavesBit hts hty hvalid htype hK hlaid hargs h
  case h_16 hop => exact call_leavesBit htype h
  case h_17 hop => exact absurd hop hintr
  case h_18 => cases h

/-- The code of a one-bit value, if it is no intrinsic and no reinterpretation of a whole byte. -/
theorem value_leavesBit {ls ls' : Labels} (hts : List.Forall₂ c.func.OfType x.args ts)
    (hty : Func.WellTyped x ts home) (hvalid : ∀ t ∈ ts, t.Valid) (htype : x.type = .i1)
    (hbit : x.op = .bitcast → ts = [.i1]) (hintr : x.op ≠ .intrinsic)
    (hconst : ∀ lanes, x.constLanes = some lanes → ∀ w ∈ lanes, Kind.i1.cut w = w)
    (hK : K ⊆ bitRooms c.func) (hlaid : c.frame.Laid n (roomsIn c.func))
    (hargs : ∀ o ∈ x.args, c.func.OfType o .i1 → ∃ w, o = .value w ∧ (w, .slot) ∈ K)
    (h : c.value v x ls = .ok (code, ls')) :
    LeavesBit c.func c.frame K (c.frame.offset (v, .slot)) code := by
  unfold Context.value at h
  split at h
  · next hop =>
    -- the address of a global is no bit
    rw [Func.WellTyped, hop] at hty
    have hptr : x.type = .ptr := hty.2
    rw [htype] at hptr
    cases hptr
  split at h
  · next hop => exact conversion_leavesBit hts hty htype hop.1 hop.2 h
  · obtain ⟨_, hplain, h⟩ := Outcome.bind_eq_ok.mp h
    cases h
    exact plain_leavesBit hts hty hvalid htype hbit hintr hconst hK hlaid hargs hplain

end leaves

end SsaJit.Lower
