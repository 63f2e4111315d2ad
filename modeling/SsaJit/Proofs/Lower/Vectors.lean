import SsaJit.Proofs.Lower.Layout
import SsaJit.Proofs.Lower.Packed

/-! Vector instructions for the values of a function. A binary operation, a comparison or a selection of
sixteen bytes has code with one instruction for all lanes, or else the code that goes lane by lane; which
of the two a value gets makes no difference to what is in its slot afterwards. The slots of a function lie
apart from each other, so its operands are as the code for lanes needs them. -/

namespace SsaJit.Lower

open X86

variable {c : Context} {f : Func} {b : BlockId} {v : ValueId} {x : Value} {code : Code}

namespace Context

/-! ## Which code a value gets -/

/-- A binary operation lane by lane. -/
def binaryLanes (c : Context) (v : ValueId) (x : Value) (a a' : ValueId) : Outcome Code :=
  let k := x.type.elemKind
  eachLane x.type.numLanes fun i => scalarBinary x.op k (shift (c.home v) (i * k.size))
    (shift (c.home a) (i * k.size)) (shift (c.home a') (i * k.size))

/-- A comparison of vectors lane by lane. -/
def compareLanes (c : Context) (v : ValueId) (x : Value) (a a' : ValueId) : Outcome Code :=
  let k := (c.func.value a).type.elemKind
  eachLane (c.func.value a).type.numLanes fun i => maskLane x.predicate k
    (shift (c.home v) (i * k.size)) (shift (c.home a) (i * k.size)) (shift (c.home a') (i * k.size))

/-- A selection by a mask with lanes of the same width, lane by lane. -/
def selectLanes (c : Context) (v : ValueId) (x : Value) (u a a' : ValueId) : Outcome Code :=
  let w := x.type.elemKind.size
  eachLane x.type.numLanes fun i => chosenLane w (shift (c.home v) (i * w))
    (shift (c.home u) (i * w)) (shift (c.home a) (i * w)) (shift (c.home a') (i * w))

theorem plain_binary {a a' : ValueId} (hop : x.op.isBinary = true) (hargs : x.args = [.value a, .value a'])
    (hvec : x.type.isVector = true) (hlanes : x.type.numLanes ≠ 0) :
    c.plain v x = match vectorBinary c.cpu x.op x.type (c.home v) (c.home a) (c.home a') with
      | some code => .ok code
      | none => c.binaryLanes v x a a' := by
  unfold plain
  rw [if_neg fun h => hlanes h.2, if_pos hop, hargs, hvec]
  rfl

theorem plain_compare {a a' : ValueId} (hop : x.op = .icmp ∨ x.op = .fcmp)
    (hargs : x.args = [.value a, .value a']) (hvec : (c.func.value a).type.isVector = true)
    (hlanes : (c.func.value a).type.numLanes ≠ 0) :
    c.plain v x = match vectorCompare x.op x.predicate (c.func.value a).type (c.home v) (c.home a)
        (c.home a') with
      | some code => .ok code
      | none => c.compareLanes v x a a' := by
  have hbinary : ¬ x.op.isBinary = true := by rcases hop with h | h <;> rw [h] <;> decide
  have hsource : c.func.argument x 0 = .ok (c.func.value a) := by rw [Func.argument, hargs]; rfl
  unfold plain
  rw [if_neg fun h => hbinary h.1, if_neg hbinary]
  rcases hop with h | h <;> rw [h] <;> dsimp only
  all_goals
    simp only [hsource, hargs, hvec, Outcome.ok_bind, Outcome.pure_eq_ok, if_neg hlanes]
    rfl

theorem plain_select {u a a' : ValueId} (hop : x.op = .select)
    (hargs : x.args = [.value u, .value a, .value a']) (hvec : (c.func.value u).type.isVector = true)
    (hwidth : (c.func.value u).type.elemKind.size = x.type.elemKind.size) :
    c.plain v x =
      if ((c.func.value u).op = .icmp ∨ (c.func.value u).op = .fcmp) ∧ x.type.size = 16 then
        .ok (blend (c.home v) (c.home u) (c.home a) (c.home a'))
      else c.selectLanes v x u a a' := by
  have hbinary : ¬ x.op.isBinary = true := by rw [hop]; decide
  have hcond : c.func.argument x 0 = .ok (c.func.value u) := by rw [Func.argument, hargs]; rfl
  unfold plain
  rw [if_neg fun h => hbinary h.1, if_neg hbinary, hop]
  simp only [select, hcond, hargs, hvec, hwidth, and_true, Outcome.ok_bind, Outcome.pure_eq_ok]
  rfl

end Context

/-! ## Values of sixteen bytes -/

theorem vector_of_size {t : Ty} (ht : t.Valid) (h : t.size = 16) :
    t.isVector = true ∧ Ty.laneKind t.elemKind = true ∧ t.numLanes = 16 / t.elemKind.size := by
  cases t with
  | scalar k =>
    have := Kind.size_le k
    rw [Ty.size] at h
    change 1 * k.size = 16 at h
    omega
  | vec e n =>
    have hlanes : n.toNat * e.size = 16 := h
    have hpos : 0 < e.size := Nat.pos_of_ne_zero (wide_of_laneKind ht.1).ne_zero
    exact ⟨rfl, ht.1, (Nat.div_eq_of_eq_mul_left hpos hlanes.symm).symm⟩

theorem numLanes_ne_zero {t : Ty} (h : t.size = 16) : t.numLanes ≠ 0 := by
  intro hzero
  rw [Ty.size, hzero, Nat.zero_mul] at h
  cases h

/-- The mask that a comparison of vectors makes has lanes of the same width. -/
theorem maskType_wide {s t : Ty} (hs : s.isVector = true) (h : s.maskType = .ok t) :
    t.isVector = true ∧ t.elemKind.size = s.elemKind.size := by
  cases s with
  | scalar k => cases hs
  | vec e n =>
    obtain ⟨k, rfl, hsize⟩ := maskType_vec h
    exact ⟨rfl, hsize⟩

theorem listed_arg {u : ValueId} (hf : f.Consistent) (hb : b ∈ f.layout) (hv : v ∈ (f.block b).values)
    (hu : .value u ∈ (f.value v).args) : ∃ d ∈ f.layout, u ∈ (f.block d).values := by
  obtain ⟨_, d, h, hblock⟩ := Func.args_listed hf.verified hb hv hu
  cases h
  exact ⟨d, (hf.listed u d).mp hblock⟩

/-- A slot for sixteen bytes. -/
def VectorSlot (f : Func) (v : ValueId) : Prop :=
  (∃ b ∈ f.layout, v ∈ (f.block b).values) ∧ (f.value v).type.isVector = true

theorem VectorSlot.room (h : VectorSlot f v) : (⟨v, .slot, 16, 16⟩ : Room) ∈ roomsIn f := by
  obtain ⟨⟨b, hb, hv⟩, hvec⟩ := h
  have hvoid : (f.value v).type.isVoid = false := by
    revert hvec
    cases (f.value v).type <;> intro hvec
    · cases hvec
    · rfl
  refine mem_roomsIn.mpr ⟨b, hb, v, hv, ?_⟩
  rw [roomsOf, if_neg (by rw [hvoid]; decide), slotBytes, hvec]
  exact List.mem_cons_self

/-- Slots of vectors lie below rbp, and two of them are apart or the same. -/
theorem VectorSlot.source {u : ValueId} (hf : f.Consistent) (hfit : frameBytes f < 2147483648)
    (hv : VectorSlot f v) (hu : VectorSlot f u) :
    Source ((Frame.ofFunc f).slots.getD v 0) ((Frame.ofFunc f).slots.getD u 0) := by
  have hparted := parted_ofFunc hf.verified (Nat.lt_of_le_of_lt (by unfold frameBytes; omega) hfit)
  refine ⟨(hparted.inside _ hu.room).2, ?_⟩
  by_cases h : v = u
  · exact .inl (by rw [h])
  · have hclear := hparted.clear _ hv.room _ hu.room fun hk => h (congrArg Prod.fst hk)
    simp only [Frame.Clear, Room.key, Frame.offset] at hclear
    exact hclear.imp_left (by omega)

/-! ## Both ways of a value -/

namespace Context

/-- A lane of a value's slot. -/
def lane (c : Context) (w : Nat) (m : Machine) (v : ValueId) (i : Nat) : UInt64 :=
  laneAt w m (c.frame.slots.getD v 0) i

/-- The code of a value and the code that goes lane by lane leave the same bytes in its slot. -/
def BothWays (c : Context) (v : ValueId) (code : Code) (lanes : Outcome Code)
    (P : Machine → Prop) (out : Machine → List UInt8) : Prop :=
  c.plain v (c.func.value v) = .ok code ∧
    ∃ code', lanes = .ok code' ∧ Agree (c.frame.slots.getD v 0) P out code code'

/-- A function as builders leave it, with a frame that offsets can reach. -/
structure Framed (c : Context) : Prop where
  consistent : c.func.Consistent
  types : c.func.TypesValid
  frame : c.frame = .ofFunc c.func
  fits : frameBytes c.func < 2147483648

variable {a a' u : ValueId}

theorem Framed.source (h : c.Framed) (hv : VectorSlot c.func v) (hu : VectorSlot c.func u) :
    Source (c.frame.slots.getD v 0) (c.frame.slots.getD u 0) := by
  rw [h.frame]
  exact hv.source h.consistent h.fits hu

theorem Framed.arg (h : c.Framed) (hb : b ∈ c.func.layout) (hv : v ∈ (c.func.block b).values)
    (hu : .value u ∈ (c.func.value v).args) : ∃ d ∈ c.func.layout, u ∈ (c.func.block d).values :=
  listed_arg h.consistent hb hv hu

theorem Framed.wide (h : c.Framed) (hv : ∃ b ∈ c.func.layout, v ∈ (c.func.block b).values)
    (hsize : (c.func.value v).type.size = 16) : VectorSlot c.func v ∧
      Ty.laneKind (c.func.value v).type.elemKind = true ∧
      (c.func.value v).type.numLanes = 16 / (c.func.value v).type.elemKind.size := by
  obtain ⟨b, hb, hmem⟩ := hv
  obtain ⟨hvec, hlane, hnum⟩ := vector_of_size (h.types b hb v hmem) hsize
  exact ⟨⟨⟨b, hb, hmem⟩, hvec⟩, hlane, hnum⟩

section value

variable (h : c.Framed) (hb : b ∈ c.func.layout) (hv : v ∈ (c.func.block b).values)

include h hb hv

theorem binary_ways (hop : (c.func.value v).op.isBinary = true)
    (hargs : (c.func.value v).args = [.value a, .value a'])
    (hcode : vectorBinary c.cpu (c.func.value v).op (c.func.value v).type (c.home v) (c.home a)
      (c.home a') = some code) :
    ∃ g : UInt64 → UInt64 → UInt64, (∀ p q, evalBinary (c.func.value v).op
        (c.func.value v).type.elemKind p q = .ok (some ((c.func.value v).type.elemKind.canon (g p q)))) ∧
      c.BothWays v code (c.binaryLanes v (c.func.value v) a a') (fun _ => True) fun m =>
        laid (c.func.value v).type.elemKind.size fun i =>
          g (c.lane (c.func.value v).type.elemKind.size m a i)
            (c.lane (c.func.value v).type.elemKind.size m a' i) := by
  have htyped := Func.value_typed h.consistent.verified hb hv
    (fun hphi => by rw [hphi] at hop; cases hop)
  rw [Func.WellTyped, if_pos hop, Func.argTypes, hargs] at htyped
  obtain ⟨htypes, hclass⟩ := htyped
  obtain ⟨hta, hta'⟩ : (c.func.value a).type = (c.func.value v).type ∧
      (c.func.value a').type = (c.func.value v).type := by
    simpa [Func.operandType] using htypes
  have hplain := plain_binary (c := c) (v := v) hop hargs
  rw [hcode] at hplain
  unfold vectorBinary at hcode
  split at hcode
  · cases hcode
  next hsize =>
  have hsize := Classical.not_not.mp hsize
  split at hcode
  · cases hcode
  next i hi =>
  split at hcode
  · obtain ⟨hslot, hlane, hnum⟩ := h.wide ⟨b, hb, hv⟩ hsize
    obtain ⟨hslota, -, -⟩ := h.wide (h.arg hb hv (u := a) (by simp [hargs])) (by rw [hta, hsize])
    obtain ⟨hslota', -, -⟩ := h.wide (h.arg hb hv (u := a') (by simp [hargs])) (by rw [hta', hsize])
    have hsuits : Suits (c.func.value v).op (c.func.value v).type.elemKind := by
      refine ⟨hlane, ?_⟩
      split at hclass <;> simp_all [Ty.isFloat, Ty.isInt]
    obtain ⟨code', g, hlanes, heval, hagree⟩ := binary_agree hop hsuits hi (h.source hslot hslot).below
      (h.source hslot hslota) (h.source hslot hslota')
    rw [← hnum] at hlanes
    cases hcode
    exact ⟨g, heval, hplain hslot.2 (numLanes_ne_zero hsize), code', hlanes, hagree⟩
  · cases hcode

theorem compared_types (hop : (c.func.value v).op = .icmp ∨ (c.func.value v).op = .fcmp)
    (hargs : (c.func.value v).args = [.value a, .value a']) :
    (c.func.value a').type = (c.func.value a).type ∧
      (c.func.value a).type.maskType = .ok (c.func.value v).type ∧
      ((c.func.value v).op = .fcmp → (c.func.value a).type.elemKind = .f32) := by
  have htyped := Func.value_typed h.consistent.verified hb hv
    (fun hphi => by rw [hphi] at hop; rcases hop with h | h <;> cases h)
  rw [Func.WellTyped, Func.argTypes, hargs] at htyped
  rcases hop with hop | hop <;> rw [hop] at htyped ⊢
  · obtain ⟨s, htypes, hmask, -⟩ := htyped
    simp only [List.map_cons, List.map_nil, Func.operandType, List.cons.injEq] at htypes
    rw [htypes.1]
    exact ⟨htypes.2.1, hmask, fun h => absurd h (by decide)⟩
  · obtain ⟨s, htypes, hmask, -, hfloat⟩ := htyped
    simp only [List.map_cons, List.map_nil, Func.operandType, List.cons.injEq] at htypes
    rw [htypes.1]
    exact ⟨htypes.2.1, hmask, fun _ => by simpa [Ty.isFloat] using hfloat⟩

theorem compare_ways (hop : (c.func.value v).op = .icmp ∨ (c.func.value v).op = .fcmp)
    (hargs : (c.func.value v).args = [.value a, .value a'])
    (hcode : vectorCompare (c.func.value v).op (c.func.value v).predicate (c.func.value a).type
      (c.home v) (c.home a) (c.home a') = some code) :
    c.BothWays v code (c.compareLanes v (c.func.value v) a a') (fun _ => True) fun m =>
      laid (c.func.value v).type.elemKind.size fun i =>
        maskOf (evalCompare (c.func.value v).predicate (c.func.value a).type.elemKind
          (c.lane (c.func.value a).type.elemKind.size m a i)
          (c.lane (c.func.value a).type.elemKind.size m a' i)) := by
  obtain ⟨hta', hmask, hfloat⟩ := compared_types h hb hv hop hargs
  have hvec : (c.func.value a).type.size = 16 := by
    unfold vectorCompare at hcode
    split at hcode
    · cases hcode
    · next hsize => exact Classical.not_not.mp hsize
  obtain ⟨hslota, -, hnum⟩ := h.wide (h.arg hb hv (u := a) (by simp [hargs])) hvec
  obtain ⟨hslota', -, -⟩ := h.wide (h.arg hb hv (u := a') (by simp [hargs])) (by rw [hta', hvec])
  obtain ⟨hmaskvec, hwidth⟩ := maskType_wide hslota.2 hmask
  have hslot : VectorSlot c.func v := ⟨⟨b, hb, hv⟩, hmaskvec⟩
  have hplain := plain_compare (c := c) (v := v) hop hargs hslota.2 (numLanes_ne_zero hvec)
  rw [hcode] at hplain
  obtain ⟨-, code', hlanes, hagree⟩ := compare_agree hfloat hcode (h.source hslot hslot).below
    (h.source hslot hslota) (h.source hslot hslota')
  rw [← hnum] at hlanes
  rw [hwidth]
  exact ⟨hplain, code', hlanes, hagree⟩

theorem select_ways (hop : (c.func.value v).op = .select)
    (hargs : (c.func.value v).args = [.value u, .value a, .value a'])
    (hcond : (c.func.value u).op = .icmp ∨ (c.func.value u).op = .fcmp)
    (hvec : (c.func.value u).type.isVector = true) (hsize : (c.func.value v).type.size = 16)
    (hwidth : (c.func.value u).type.elemKind.size = (c.func.value v).type.elemKind.size)
    (t : Nat → Bool) :
    c.BothWays v (blend (c.home v) (c.home u) (c.home a) (c.home a'))
      (c.selectLanes v (c.func.value v) u a a')
      (fun m => m.mem.read (addressOf m (c.home u)) 16 =
        laid (c.func.value u).type.elemKind.size fun i => maskOf (t i))
      fun m => laid (c.func.value v).type.elemKind.size fun i =>
        if t i then c.lane (c.func.value v).type.elemKind.size m a i
        else c.lane (c.func.value v).type.elemKind.size m a' i := by
  have htyped := Func.value_typed h.consistent.verified hb hv (by rw [hop]; decide)
  obtain ⟨hta, hta'⟩ : (c.func.value a).type = (c.func.value v).type ∧
      (c.func.value a').type = (c.func.value v).type := by
    rw [Func.WellTyped, Func.argTypes, hargs, hop] at htyped
    obtain ⟨s, htypes, -⟩ := htyped
    simp only [List.map_cons, List.map_nil, Func.operandType, List.cons.injEq] at htypes
    exact ⟨htypes.2.1, htypes.2.2.1⟩
  obtain ⟨hslot, hlane, hnum⟩ := h.wide ⟨b, hb, hv⟩ hsize
  obtain ⟨hslota, -, -⟩ := h.wide (h.arg hb hv (u := a) (by simp [hargs])) (by rw [hta, hsize])
  obtain ⟨hslota', -, -⟩ := h.wide (h.arg hb hv (u := a') (by simp [hargs])) (by rw [hta', hsize])
  have hslotu : VectorSlot c.func u := ⟨h.arg hb hv (by simp [hargs]), hvec⟩
  obtain ⟨code', hlanes, hagree⟩ := blend_agree (wide_of_laneKind hlane)
    (h.source hslot hslot).below (h.source hslot hslotu) (h.source hslot hslota)
    (h.source hslot hslota')
  rw [← hnum] at hlanes
  rw [hwidth]
  refine ⟨?_, code', hlanes, hagree t⟩
  rw [plain_select hop hargs hvec hwidth, if_pos ⟨hcond, hsize⟩]

/-- Where a value of sixteen bytes has an instruction for all lanes, its code and the code that goes lane
by lane leave the same bytes in its slot and change no other memory, whatever the operands hold and
whatever the processor offers. A binary operation leaves what is said of constants, a comparison leaves a
mask with all ones where the predicate holds, and a selection by such a mask takes the lanes it says. -/
theorem vector_code_agrees (hx : x = c.func.value v) :
    (∀ a a' code, x.op.isBinary = true → x.args = [.value a, .value a'] →
      vectorBinary c.cpu x.op x.type (c.home v) (c.home a) (c.home a') = some code →
      ∃ g : UInt64 → UInt64 → UInt64,
        (∀ p q, evalBinary x.op x.type.elemKind p q = .ok (some (x.type.elemKind.canon (g p q)))) ∧
        c.BothWays v code (c.binaryLanes v x a a') (fun _ => True) fun m =>
          laid x.type.elemKind.size fun i =>
            g (c.lane x.type.elemKind.size m a i) (c.lane x.type.elemKind.size m a' i)) ∧
    (∀ a a' code s, x.op = .icmp ∨ x.op = .fcmp → x.args = [.value a, .value a'] →
      s = (c.func.value a).type →
      vectorCompare x.op x.predicate s (c.home v) (c.home a) (c.home a') = some code →
      c.BothWays v code (c.compareLanes v x a a') (fun _ => True) fun m =>
        laid x.type.elemKind.size fun i => maskOf (evalCompare x.predicate s.elemKind
          (c.lane s.elemKind.size m a i) (c.lane s.elemKind.size m a' i))) ∧
    ∀ u a a' s (t : Nat → Bool), x.op = .select → x.args = [.value u, .value a, .value a'] →
      (c.func.value u).op = .icmp ∨ (c.func.value u).op = .fcmp → s = (c.func.value u).type →
      s.isVector = true → x.type.size = 16 → s.elemKind.size = x.type.elemKind.size →
      c.BothWays v (blend (c.home v) (c.home u) (c.home a) (c.home a')) (c.selectLanes v x u a a')
        (fun m => m.mem.read (addressOf m (c.home u)) 16 = laid s.elemKind.size fun i => maskOf (t i))
        fun m => laid x.type.elemKind.size fun i =>
          if t i then c.lane x.type.elemKind.size m a i else c.lane x.type.elemKind.size m a' i := by
  subst hx
  refine ⟨fun a a' code hop hargs hcode => binary_ways h hb hv hop hargs hcode, ?_, ?_⟩
  · rintro a a' code s hop hargs rfl hcode
    exact compare_ways h hb hv hop hargs hcode
  · rintro u a a' s t hop hargs hcond rfl hvec hsize hwidth
    exact select_ways h hb hv hop hargs hcond hvec hsize hwidth t

end value

end Context

/-- The lesser lanes of two vectors, added to the second. -/
def lesser : Func where
  name := "lesser"
  ret := .v4i32
  params := [.v4i32, .v4i32]
  values := #[
    { op := .param, type := .v4i32, block := some 0 },
    { op := .param, type := .v4i32, block := some 0, aux := 1 },
    { op := .icmp, type := .v4i32, block := some 0, args := [.value 0, .value 1], aux := 2 },
    { op := .select, type := .v4i32, block := some 0, args := [.value 2, .value 0, .value 1] },
    { op := .add, type := .v4i32, block := some 0, args := [.value 3, .value 1] }]
  blocks := #[{ values := [0, 1, 2, 3, 4], kind := .ret, control := .value 4 }]
  layout := [0]
  paramValues := [0, 1]

/-- Its code where the processor offers nothing beyond its baseline. -/
def lesserCode : Context := ⟨lesser, .ofFunc lesser, {}⟩

theorem vector_code_agrees_lesser : lesserCode.Framed ∧
    (∃ code, lesserCode.BothWays 2 code (lesserCode.compareLanes 2 (lesser.value 2) 0 1) (fun _ => True)
      fun m => laid 4 fun i =>
        maskOf (evalCompare .slt .i32 (lesserCode.lane 4 m 0 i) (lesserCode.lane 4 m 1 i))) ∧
    (∀ t : Nat → Bool, ∃ code, lesserCode.BothWays 3 code
      (lesserCode.selectLanes 3 (lesser.value 3) 2 0 1)
      (fun m => m.mem.read (addressOf m (lesserCode.home 2)) 16 = laid 4 fun i => maskOf (t i))
      fun m => laid 4 fun i => if t i then lesserCode.lane 4 m 0 i else lesserCode.lane 4 m 1 i) ∧
    ∃ code, ∃ g : UInt64 → UInt64 → UInt64, (∀ p q, evalBinary .add .i32 p q = .ok (some (Kind.i32.canon (g p q)))) ∧
      lesserCode.BothWays 4 code (lesserCode.binaryLanes 4 (lesser.value 4) 3 1) (fun _ => True)
        fun m => laid 4 fun i => g (lesserCode.lane 4 m 3 i) (lesserCode.lane 4 m 1 i) := by
  have hframed : lesserCode.Framed :=
    ⟨by decide +kernel, by decide +kernel, rfl, by decide +kernel⟩
  have hb : 0 ∈ lesserCode.func.layout := List.mem_singleton.mpr rfl
  refine ⟨hframed, ?_, fun t => ?_, ?_⟩
  · exact ⟨_, (Context.vector_code_agrees hframed (v := 2) hb (by decide) rfl).2.1 0 1 _ .v4i32 (.inl rfl)
      rfl rfl rfl⟩
  · exact ⟨_, (Context.vector_code_agrees hframed (v := 3) hb (by decide) rfl).2.2 2 0 1 .v4i32 t rfl rfl
      (.inl rfl) rfl rfl rfl rfl⟩
  · exact ⟨_, (Context.vector_code_agrees hframed (v := 4) hb (by decide) rfl).1 3 1 _ rfl rfl rfl⟩

end SsaJit.Lower
