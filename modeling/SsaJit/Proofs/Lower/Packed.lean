import SsaJit.Proofs.Lower.Pieces

/-! Comparisons in machine code, of one lane and of all at once. A float comparison is known by how the
two lanes are ordered, if they are at all, and so are the flags, the conditions that are read off them
and the selectors of the vector instruction. Of integers there are vector instructions for two relations
only; the other predicates exchange the operands or invert the mask. -/

namespace SsaJit

namespace Single

/-- How two numbers are ordered; nothing if one of them is none. -/
def ordering (x y : Single) : Option Ordering :=
  if unordered x y then none else some (compare x.rank y.rank)

theorem unordered_eq (x y : Single) : unordered x y = (ordering x y == none) := by
  unfold ordering
  cases unordered x y <;> rfl

theorem lt_eq (x y : Single) : lt x y = (ordering x y == some .lt) := by
  unfold ordering lt
  cases unordered x y with
  | true => rfl
  | false => rw [Bool.eq_iff_iff]; simp [compare_lt_iff_lt]

theorem eq_eq (x y : Single) : eq x y = (ordering x y == some .eq) := by
  unfold ordering eq
  cases unordered x y with
  | true => rfl
  | false => rw [Bool.eq_iff_iff]; simp

theorem le_eq (x y : Single) : le x y = (ordering x y == some .lt || ordering x y == some .eq) := by
  rw [← lt_eq, ← eq_eq]
  unfold le lt eq
  cases unordered x y with
  | true => rfl
  | false => rw [Bool.eq_iff_iff]; simp [Int.le_iff_lt_or_eq]

theorem ordering_swap (x y : Single) : ordering y x = (ordering x y).map Ordering.swap := by
  have hsame : unordered y x = unordered x y := Bool.or_comm ..
  unfold ordering
  rw [hsame]
  cases unordered x y with
  | true => rfl
  | false => exact congrArg some (Std.OrientedOrd.eq_swap)
end Single

namespace Lower

open X86

variable {k : Kind} {p : Predicate} {m m' : Machine}

/-! ## Float predicates -/

/-- Does a float predicate hold of lanes in this order? -/
def allows (p : Predicate) (o : Option Ordering) : Bool :=
  match p with
  | .oeq => o == some .eq
  | .one => o == some .lt || o == some .gt
  | .olt => o == some .lt
  | .ole => o == some .lt || o == some .eq
  | .ogt => o == some .gt
  | .oge => o == some .gt || o == some .eq
  | .ord => o != none
  | .uno => o == none
  | .ueq => o == none || o == some .eq
  | .une => o != some .eq
  | .fult => o == none || o == some .lt
  | .fule => o != some .gt
  | .fugt => o == none || o == some .gt
  | .fuge => o != some .lt
  | _ => false

theorem compareFloat_eq (p : Predicate) (x y : Single) :
    compareFloat p x y = allows p (x.ordering y) := by
  have hback := Single.ordering_swap x y
  cases p <;>
    simp only [compareFloat, allows, Single.unordered_eq, Single.lt_eq, Single.le_eq, Single.eq_eq,
      hback] <;>
    rcases x.ordering y with _ | _ | _ | _ <;> rfl

/-- The flags after comparing lanes in this order. -/
def flagsOf : Option Ordering → Flags
  | none => { zero := true, parity := true, carry := true }
  | some o => { zero := o == .eq, carry := o == .lt }

theorem ofCompare_eq (x y : Single) : Flags.ofCompare x y = flagsOf (x.ordering y) := by
  rw [Flags.ofCompare, Single.unordered_eq, Single.lt_eq, Single.eq_eq]
  rcases x.ordering y with _ | _ | _ | _ <;> rfl

/-- What a float test reads off the flags. -/
def FloatTest.answer (t : FloatTest) (fl : Flags) : Bool :=
  match t.joined with
  | some (.and, cc) => t.cond.holds fl && cc.holds fl
  | some (_, cc) => t.cond.holds fl || cc.holds fl
  | none => t.cond.holds fl

theorem floatTest_table : ∀ p ∈ Predicate.named, p.isFloat = true →
    ∀ o ∈ [none, some .lt, some .eq, some .gt],
      (floatTest p).answer (flagsOf (if (floatTest p).swap then o.map Ordering.swap else o)) =
        allows p o := by
  decide

theorem floatTest_answer (hp : p ∈ Predicate.named) (hf : p.isFloat = true) (x y : Single) :
    (floatTest p).answer (if (floatTest p).swap then .ofCompare y x else .ofCompare x y) =
      compareFloat p x y := by
  have hmem : x.ordering y ∈ [none, some .lt, some .eq, some .gt] := by
    rcases x.ordering y with _ | _ | _ | _ <;> decide
  rw [compareFloat_eq, ofCompare_eq, ofCompare_eq, Single.ordering_swap x y, ← apply_ite]
  exact floatTest_table p hp hf _ hmem

/-- The selector, with the operands in its order, names the predicate. -/
theorem floatSelector_spec {imm : UInt8} {swap : Bool} (h : floatSelector p = some (imm, swap))
    (x y : Single) :
    floatCompare imm (if swap then y else x) (if swap then x else y) = compareFloat p x y := by
  have hback := Single.ordering_swap x y
  rw [compareFloat_eq]
  cases p <;> cases h <;>
    simp [floatCompare, allows, Single.unordered_eq, Single.lt_eq, Single.le_eq, Single.eq_eq, hback] <;>
    rcases x.ordering y with _ | _ | _ | _ <;> rfl

/-! ## Flags -/

theorem setcc_keeps {cc : Cond} {r : Reg} (h : execAll [.setcc cc r, .movzx8 r r] m = .ok m') :
    m'.flags = m.flags := by
  cases h
  rfl

theorem joined_eq (p : Predicate) : (floatTest p).joined = none ∨
    ∃ cc, (floatTest p).joined = some (.and, cc) ∨ (floatTest p).joined = some (.or, cc) := by
  cases p <;> first
    | exact .inl rfl
    | exact .inr ⟨_, .inl rfl⟩
    | exact .inr ⟨_, .inr rfl⟩

theorem bits_and (a b : Bool) : ((if a then 1 else 0) &&& if b then 1 else 0 : UInt64) =
    if a && b then 1 else 0 := by
  cases a <;> cases b <;> rfl

theorem bits_or (a b : Bool) : ((if a then 1 else 0) ||| if b then 1 else 0 : UInt64) =
    if a || b then 1 else 0 := by
  cases a <;> cases b <;> rfl

/-- Two registers of bits are joined by an instruction on words. -/
theorem join_spec {op : Alu} {a b : Bool} (hop : op = .and ∨ op = .or)
    (ha : m.reg .rax = if a then 1 else 0) (hb : m.reg .rcx = if b then 1 else 0) :
    ∃ m', execAll [.alu op .rax .rcx] m = .ok m' ∧
      Sets m m' .rax (if (if op = .and then a && b else a || b) then 1 else 0) := by
  rcases hop with rfl | rfl
  · refine ⟨_, rfl, ?_, fun s hs => m.reg_setReg_ne _ hs.symm, fun _ => rfl, rfl⟩
    exact (m.reg_setReg_self .rax _).trans (by rw [ha, hb]; exact bits_and a b)
  · refine ⟨_, rfl, ?_, fun s hs => m.reg_setReg_ne _ hs.symm, fun _ => rfl, rfl⟩
    exact (m.reg_setReg_self .rax _).trans (by rw [ha, hb]; exact bits_or a b)

/-- The instructions of a test's second condition. -/
def FloatTest.second (t : FloatTest) : List (Instr Label) :=
  match t.joined with
  | some (op, cc) => [.setcc cc .rcx, .movzx8 .rcx .rcx, .alu op .rax .rcx]
  | none => []

theorem floatTest_spec (p : Predicate) (m : Machine) :
    ∃ m', execAll (.setcc (floatTest p).cond .rax :: .movzx8 .rax .rax :: (floatTest p).second) m =
      .ok m' ∧ Decides m m' ((floatTest p).answer m.flags) := by
  obtain ⟨m₁, hrun₁, hset₁⟩ := setcc_spec m (floatTest p).cond .rax
  have hflags := setcc_keeps hrun₁
  by_cases hjoined : (floatTest p).joined = none
  · refine ⟨m₁, ?_, ?_, fun s hs _ => hset₁.others s hs, hset₁.mem⟩
    · rw [FloatTest.second, hjoined]
      exact hrun₁
    · rw [hset₁.value, FloatTest.answer, hjoined]
  · obtain ⟨op, cc, hop, heq⟩ : ∃ op cc, (op = .and ∨ op = .or) ∧
        (floatTest p).joined = some (op, cc) := by
      rcases joined_eq p with h | ⟨cc, h | h⟩
      · exact absurd h hjoined
      · exact ⟨_, cc, .inl rfl, h⟩
      · exact ⟨_, cc, .inr rfl, h⟩
    obtain ⟨m₂, hrun₂, hset₂⟩ := setcc_spec m₁ cc .rcx
    rw [hflags] at hset₂
    obtain ⟨m₃, hrun₃, hset₃⟩ := join_spec hop ((hset₂.others .rax (by decide)).trans hset₁.value)
      hset₂.value
    refine ⟨m₃, ?_, ?_, fun s hax hcx => ?_, hset₃.mem.trans (hset₂.mem.trans hset₁.mem)⟩
    · rw [FloatTest.second, heq]
      exact (execAll_append hrun₁).trans ((execAll_append hrun₂).trans hrun₃)
    · rw [hset₃.value, FloatTest.answer, heq]
      rcases hop with rfl | rfl <;> rfl
    · exact (hset₃.others s hax).trans ((hset₂.others s hcx).trans (hset₁.others s hax))

/-! ## One lane -/

/-- A single in the frame. -/
def singleAt (m : Machine) (e : Int32) : Single := .ofWord (m.mem.readWord (addressOf m (inFrame e)) 4)

theorem loadSingles_spec (x y : Int32) (m : Machine) :
    ∃ m', execAll [.movssLoad 0 (inFrame x), .movssLoad 1 (inFrame y)] m = .ok m' ∧ Untouched m m' ∧
      (m'.xmm 0).low = singleAt m x ∧ (m'.xmm 1).low = singleAt m y := by
  obtain ⟨m₁, hrun₁, h₁, hlow₁⟩ : ∃ m₁, execAll [.movssLoad 0 (inFrame x)] m = .ok m₁ ∧
      Untouched m m₁ ∧ (m₁.xmm 0).low = singleAt m x := by
    refine ⟨_, rfl, (setXmm_sets m 0 _).toUntouched, ?_⟩
    rw [Machine.xmm_setXmm_self]
    rfl
  obtain ⟨m₂, hrun₂, h₂, hlow₂, hsame⟩ : ∃ m₂, execAll [.movssLoad 1 (inFrame y)] m₁ = .ok m₂ ∧
      Untouched m₁ m₂ ∧ (m₂.xmm 1).low = singleAt m₁ y ∧ m₂.xmm 0 = m₁.xmm 0 := by
    refine ⟨_, rfl, (setXmm_sets m₁ 1 _).toUntouched, ?_, m₁.xmm_setXmm_ne _ (by decide)⟩
    rw [Machine.xmm_setXmm_self]
    rfl
  refine ⟨m₂, (execAll_append hrun₁).trans hrun₂, h₁.trans h₂, by rw [hsame, hlow₁], ?_⟩
  rw [hlow₂, singleAt, addressOf_congr (h₁.regs .rbp), h₁.mem]
  rfl

theorem ucomiss_spec (x y : XReg) (m : Machine) :
    ∃ m', execAll [vector .ucomiss x y] m = .ok m' ∧ Untouched m m' ∧
      m'.flags = .ofCompare (m.xmm x).low (m.xmm y).low := by
  refine ⟨{ m with flags := .ofCompare (m.xmm x).low (m.xmm y).low }, execAll_one.trans ?_,
    ⟨fun _ => rfl, rfl⟩, rfl⟩
  change m.sse SseOp.ucomiss.code x y none = _
  rw [Machine.sse, SseOp.ofCode?_code]

theorem compareFloat_spec (hp : p ∈ Predicate.named) (hf : p.isFloat = true) (x y : Int32) :
    ∃ is, compare p k (inFrame x) (inFrame y) = .ok (straight is) ∧
      ∀ m, ∃ m', execAll is m = .ok m' ∧ Decides m m' (compareFloat p (singleAt m x) (singleAt m y)) := by
  refine ⟨.movssLoad 0 (inFrame x) :: .movssLoad 1 (inFrame y) ::
    (if (floatTest p).swap then vector .ucomiss 1 0 else vector .ucomiss 0 1) ::
    .setcc (floatTest p).cond .rax :: .movzx8 .rax .rax :: (floatTest p).second, ?_, fun m => ?_⟩
  · rw [compare, if_pos hf]
    rfl
  obtain ⟨m₁, hrun₁, hsame₁, hx, hy⟩ := loadSingles_spec x y m
  obtain ⟨m₂, hrun₂, hsame₂, hflags⟩ : ∃ m₂, execAll
      [if (floatTest p).swap then vector .ucomiss 1 0 else vector .ucomiss 0 1] m₁ = .ok m₂ ∧
      Untouched m₁ m₂ ∧ m₂.flags = if (floatTest p).swap then
        .ofCompare (singleAt m y) (singleAt m x) else .ofCompare (singleAt m x) (singleAt m y) := by
    rw [← hx, ← hy]
    split
    · exact ucomiss_spec 1 0 m₁
    · exact ucomiss_spec 0 1 m₁
  obtain ⟨m₃, hrun₃, hdecides⟩ := floatTest_spec p m₂
  have hsame := hsame₁.trans hsame₂
  rw [hflags, floatTest_answer hp hf] at hdecides
  exact ⟨m₃, (execAll_append hrun₁).trans ((execAll_append hrun₂).trans hrun₃), hdecides.value,
    fun s hax hcx => (hdecides.regs s hax hcx).trans (hsame.regs s), hdecides.mem.trans hsame.mem⟩

end Lower

end SsaJit

/-! ## In one go or lane by lane

Sixteen bytes in one go or lane by lane. What an instruction for all lanes does to each of them is what
the code for one lane does, by the tables of operations and of predicates on either side; and code that
goes from lane to lane reads what it needs of its operands before it writes over it, as long as an operand
is the destination itself, or lies apart from it. Then both leave the same sixteen bytes. -/

namespace SsaJit.Lower

open X86

variable {k : Kind} {op : Op} {p : Predicate} {w : Nat} {m m' m'' : Machine} {d e : Int32}

/-! ## Lanes in the frame -/

/-- A lane of an area of the frame. -/
def laneAt (w : Nat) (m : Machine) (e : Int32) (i : Nat) : UInt64 :=
  m.mem.readWord (addressOf m (shift (inFrame e) (i * w))) w

/-- An area of sixteen bytes in the frame that code may read lane after lane while it writes the lanes at
`d`: none of it is written before it is read. -/
structure Source (d e : Int32) : Prop where
  below : e.toInt + 16 ≤ 0
  ahead : d.toInt ≤ e.toInt ∨ e.toInt + 16 ≤ d.toInt

theorem laneAt_eq (hw : Wide w) (he : e.toInt + 16 ≤ 0) {i : Nat} (hi : i < 16 / w) (m : Machine) :
    ofLeBytes (piece w (m.mem.read (addressOf m (inFrame e)) 16) i) = laneAt w m e i := by
  have := hw.inside hi
  rw [piece_read hw hi, laneAt, addressOf_shift (by omega)]
  rfl

theorem read_eq_laid (hw : Wide w) (he : e.toInt + 16 ≤ 0) (m : Machine) :
    m.mem.read (addressOf m (inFrame e)) 16 = laid w (laneAt w m e) := by
  rw [← laid_pieces hw (Memory.length_read m.mem (addressOf m (inFrame e)) 16)]
  exact laid_congr fun i hi => by rw [laneAt_eq hw he hi]

theorem lanewise_read {x y : Int32} (hw : Wide w) (hx : x.toInt + 16 ≤ 0) (hy : y.toInt + 16 ≤ 0)
    (g : UInt64 → UInt64 → UInt64) (m : Machine) :
    lanewise w g (m.mem.read (addressOf m (inFrame x)) 16) (m.mem.read (addressOf m (inFrame y)) 16) =
      laid w fun i => g (laneAt w m x i) (laneAt w m y i) :=
  laid_congr fun i hi => by rw [laneAt_eq hw hx hi, laneAt_eq hw hy hi]

/-- A lane of bytes that are known lane by lane. -/
theorem laneAt_of_read {lane : Nat → UInt64} (hw : Wide w) (he : e.toInt + 16 ≤ 0)
    (h : m.mem.read (addressOf m (inFrame e)) 16 = laid w lane) {i : Nat} (hi : i < 16 / w) :
    laneAt w m e i = ofLeBytes (leBytes w (lane i)) := by
  have hin := hw.inside hi
  have hlanes : m.mem.read (addressOf m (inFrame e)) (((List.range (16 / w)).map lane).length * w) =
      ((List.range (16 / w)).map lane).flatMap (leBytes w) := by
    rw [List.length_map, List.length_range, hw.fills, h, laid, List.flatMap_map]
  have hlane : ((List.range (16 / w)).map lane)[i]? = some (lane i) := by simp [hi]
  rw [laneAt, addressOf_shift (by omega), Memory.readWord, read_lane hlanes hlane]

/-- Code that writes a lane, made out of what the machine holds. -/
def MakesLane (w : Nat) (d : Int32) (lane : Outcome Code) (value : Machine → UInt64) : Prop :=
  ∃ is, lane = .ok (straight is) ∧
    ∀ m, ∃ m', execAll is m = .ok m' ∧ Writes m m' d (leBytes w (value m))

theorem eachLane_straight {lane : Nat → Outcome Code} {step : Nat → List (Instr Label)}
    (h : ∀ i, lane i = .ok (straight (step i))) (n : Nat) :
    eachLane n lane = .ok (straight ((List.range n).flatMap step)) := by
  induction n with
  | zero => rfl
  | succ n ih =>
    rw [eachLane_succ ih (h n), ← straight_append, List.range_succ, List.flatMap_append,
      List.flatMap_cons, List.flatMap_nil, List.append_nil]

/-- Lane after lane is read while the lanes before it are already written. -/
theorem lanes_writes {step : Nat → List (Instr Label)} {value : Machine → Nat → UInt64}
    {es : List Int32} (hw : Wide w) (hd : d.toInt + 16 ≤ 0) (hes : ∀ e ∈ es, Source d e)
    (hlocal : ∀ i m m', (∀ e ∈ es, laneAt w m' e i = laneAt w m e i) → value m' i = value m i)
    (hstep : ∀ i m, ∃ m', execAll (step i) m = .ok m' ∧
      Writes m m' (d + (Int64.ofNat (i * w)).toInt32) (leBytes w (value m i)))
    {n : Nat} (hn : n ≤ 16 / w) (m : Machine) :
    ∃ m', execAll ((List.range n).flatMap step) m = .ok m' ∧
      Writes m m' d ((List.range n).flatMap fun i => leBytes w (value m i)) := by
  induction n with
  | zero => exact ⟨m, rfl, .nil m d⟩
  | succ n ih =>
    obtain ⟨m₁, hrun₁, hwrites⟩ := ih (Nat.le_of_succ_le hn)
    obtain ⟨m₂, hrun₂, hnext⟩ := hstep n m₁
    have hin := hw.inside hn
    have hbytes : ((List.range n).flatMap fun i => leBytes w (value m i)).length = n * w := by
      rw [← List.flatMap_map, length_bytes, List.length_map, List.length_range]
    -- what the lane is made of is still what it was
    have hkept : value m₁ n = value m n := by
      refine hlocal n m m₁ fun e he => ?_
      obtain ⟨hbelow, hahead⟩ := hes e he
      have hoff := toInt_add_ofNat (d := e) (n := n * w) (by omega)
      have hread := hwrites.read_apart (e := e + (Int64.ofNat (n * w)).toInt32) (n := w)
        (by omega) (by omega) (by rcases hahead with h | h <;> omega)
      rw [laneAt, laneAt, shift_inFrame, Memory.readWord, Memory.readWord, hread]
    rw [hkept, ← hbytes] at hnext
    refine ⟨m₂, ?_, ?_⟩
    · rw [List.range_succ, List.flatMap_append, List.flatMap_cons, List.flatMap_nil, List.append_nil]
      exact (execAll_append hrun₁).trans hrun₂
    · rw [List.range_succ, List.flatMap_append, List.flatMap_cons, List.flatMap_nil, List.append_nil]
      exact hwrites.append (by rw [hbytes, length_leBytes]; omega) hnext

/-- Code that makes every lane makes them all. -/
theorem eachLane_makes {lane : Nat → Outcome Code} (value : Machine → Nat → UInt64) (es : List Int32)
    (hw : Wide w) (hd : d.toInt + 16 ≤ 0) (hes : ∀ e ∈ es, Source d e)
    (hlocal : ∀ i m m', (∀ e ∈ es, laneAt w m' e i = laneAt w m e i) → value m' i = value m i)
    (hlane : ∀ i, MakesLane w (d + (Int64.ofNat (i * w)).toInt32) (lane i) fun m => value m i) :
    ∃ is, eachLane (16 / w) lane = .ok (straight is) ∧
      ∀ m, ∃ m', execAll is m = .ok m' ∧ Writes m m' d (laid w (value m)) := by
  choose step hcode hstep using hlane
  exact ⟨_, eachLane_straight hcode _, lanes_writes hw hd hes hlocal hstep (Nat.le_refl _)⟩

/-! ## Binary operations -/

theorem straight_inj {is js : List (Instr Label)} (h : straight is = straight js) : is = js :=
  List.map_injective_iff.mpr (fun _ _ h => Item.instr.inj h) h

theorem canon_readWord (hk : k.size ≠ 0) (h1 : k ≠ .i1) (mem : Memory) (a : UInt64) :
    k.canon (mem.readWord a k.size) = mem.readWord a k.size := by
  have hback := leBytes_ofLeBytes
    (show (mem.read a k.size).length ≤ 8 by rw [Memory.length_read]; exact Kind.size_le k)
  rw [Memory.length_read] at hback
  rw [Memory.readWord, ← ofLeBytes_lane hk h1, hback]

/-- The rules of operations for the lanes of vectors. -/
def Suits (op : Op) (k : Kind) : Prop :=
  Ty.laneKind k = true ∧ if op.isFloatBinary then k = .f32 else k.isInt = true

theorem evalBinary_floatArith {f : FloatArith} (h : floatArith op = some f) (a b : UInt64) :
    evalBinary op .f32 a b =
      .ok (some (Kind.f32.canon (f.apply (.ofWord a) (.ofWord b)).toWord)) := by
  have hcut : ∀ w, Kind.f32.canon (Single.ofWord w).toWord = Kind.f32.canon w := fun w => by
    rw [toWord_ofWord]
    exact Kind.canon_canon .f32 w
  cases op with
  | fadd | fsub | fmul | fdiv => cases h; rfl
  | fmin | fmax =>
    cases h
    simp only [evalBinary, FloatArith.apply, Single.min, Single.max]
    split <;> rw [hcut]
  | _ => cases h

theorem floatArith_of_isFloatBinary (h : op.isFloatBinary = true) : ∃ f, floatArith op = some f := by
  cases op <;> first | exact ⟨_, rfl⟩ | cases h

/-- The instruction for a binary operation does to every lane what is said of constants. -/
theorem vectorBinaryOp_spec {i : SseOp} (hi : vectorBinaryOp op k = some i) (hop : Suits op k) :
    ∃ g, (∀ a b, evalBinary op k a b = .ok (some (k.canon (g a b)))) ∧
      Combines i none (lanewise k.size g) := by
  have hw := wide_of_laneKind hop.1
  cases op with
  | and => cases hi; exact ⟨_, fun _ _ => rfl, combines_and.of_bytewise bytewise_and hw⟩
  | or => cases hi; exact ⟨_, fun _ _ => rfl, combines_or.of_bytewise bytewise_or hw⟩
  | xor => cases hi; exact ⟨_, fun _ _ => rfl, combines_xor.of_bytewise bytewise_xor hw⟩
  | add =>
    refine ⟨_, fun _ _ => rfl, ?_⟩
    cases k <;> cases hi <;> exact combines_zip hw (by decide) fun _ _ => rfl
  | sub =>
    refine ⟨_, fun _ _ => rfl, ?_⟩
    cases k <;> cases hi <;> exact combines_zip hw (by decide) fun _ _ => rfl
  | mul =>
    refine ⟨_, fun _ _ => rfl, ?_⟩
    cases k <;> cases hi <;> exact combines_zip hw (by decide) fun _ _ => rfl
  | fadd | fsub | fmul | fdiv | fmin | fmax =>
    obtain rfl : k = .f32 := hop.2
    cases hi
    exact ⟨_, evalBinary_floatArith rfl, combines_zip hw (by decide) fun _ _ => rfl⟩
  | _ => cases k <;> cases hi

/-- Bytes that are written after work in registers. -/
theorem Writes.behind {bs : List UInt8}
    (hregs : ∀ r, r ≠ .rax → r ≠ .rcx → r ≠ .rdx → m'.reg r = m.reg r) (hmem : m'.mem = m.mem)
    (h : Writes m' m'' d bs) : Writes m m'' d bs := by
  obtain ⟨hbytes, hothers, hregs'⟩ := h
  rw [addressOf_congr (hregs .rbp (by decide) (by decide) (by decide))] at hbytes hothers
  exact ⟨hbytes, fun x hx => (hothers x hx).trans (by rw [hmem]),
    fun r h₁ h₂ h₃ => (hregs' r h₁ h₂ h₃).trans (hregs r h₁ h₂ h₃)⟩

theorem floatLane_spec {f : FloatArith} (h : floatArith op = some f) (d x y : Int32) :
    MakesLane 4 d (scalarBinary op .f32 (inFrame d) (inFrame x) (inFrame y)) fun m =>
      (f.apply (singleAt m x) (singleAt m y)).toWord := by
  refine ⟨[.movssLoad 0 (inFrame x), .movssLoad 1 (inFrame y), vector (.scalar f) 0 1,
    .movssStore (inFrame d) 0], by rw [scalarBinary, h]; rfl, fun m => ?_⟩
  obtain ⟨m₁, hrun₁, hsame₁, hx, hy⟩ := loadSingles_spec x y m
  obtain ⟨m₂, hrun₂, hsame₂, hlow⟩ : ∃ m₂, execAll [vector (.scalar f) 0 1] m₁ = .ok m₂ ∧
      Untouched m₁ m₂ ∧ (m₂.xmm 0).low = f.apply (singleAt m x) (singleAt m y) := by
    have happly : m₁.sse (SseOp.scalar f).code 0 1 none =
        .ok (m₁.setXmm 0 ((m₁.xmm 0).setLow (f.apply (m₁.xmm 0).low (m₁.xmm 1).low))) :=
      Machine.sse_of_apply (by simp) rfl
    refine ⟨_, execAll_one.trans happly, (setXmm_sets m₁ 0 _).toUntouched, ?_⟩
    rw [Machine.xmm_setXmm_self, low_setLow, hx, hy]
  obtain ⟨m₃, hrun₃, hleaves⟩ := storeSingle_spec d m₂
  have hsame := hsame₁.trans hsame₂
  rw [hlow] at hleaves
  exact ⟨m₃, (execAll_append hrun₁).trans ((execAll_append hrun₂).trans hrun₃),
    (hleaves.writes (by decide)).behind (fun r _ _ _ => hsame.regs r) hsame.mem⟩

/-- One lane of an operation leaves what is said of constants. -/
theorem binaryLane_spec {g : UInt64 → UInt64 → UInt64} (hbinary : op.isBinary = true)
    (hop : Suits op k) (heval : ∀ a b, evalBinary op k a b = .ok (some (k.canon (g a b))))
    (d x y : Int32) :
    MakesLane k.size d (scalarBinary op k (inFrame d) (inFrame x) (inFrame y)) fun m =>
      g (m.mem.readWord (addressOf m (inFrame x)) k.size)
        (m.mem.readWord (addressOf m (inFrame y)) k.size) := by
  have hsize : k.size ≠ 0 := (wide_of_laneKind hop.1).ne_zero
  have h1 : k ≠ .i1 := fun h => by rw [h] at hop; exact absurd hop.1 (by decide)
  by_cases hf : op.isFloatBinary = true
  · obtain rfl : k = .f32 := by simpa [hf] using hop.2
    obtain ⟨f, hfloat⟩ := floatArith_of_isFloatBinary hf
    obtain ⟨is, hcode, hrun⟩ := floatLane_spec hfloat d x y
    refine ⟨is, hcode, fun m => ?_⟩
    obtain ⟨m', hexec, hwrites⟩ := hrun m
    -- the two results have the same four bytes
    have hsame : ∀ a b, leBytes Kind.f32.size (g a b) =
        leBytes Kind.f32.size (f.apply (.ofWord a) (.ofWord b)).toWord := by
      intro a b
      have heq := (heval a b).symm.trans (evalBinary_floatArith hfloat a b)
      rw [← leBytes_canon hsize h1, Option.some.inj (Except.ok.inj heq), leBytes_canon hsize h1]
    refine ⟨m', hexec, ?_⟩
    dsimp only
    rw [hsame]
    exact hwrites
  · have hf := eq_false_of_ne_true hf
    have hint : k.isInt = true := by simpa [hf] using hop.2
    obtain ⟨is, hcode, -, -⟩ :=
      scalarBinary_spec hbinary hf hint (Kind.canon_zero k) (Kind.canon_zero k) d x y
    refine ⟨is, hcode, fun m => ?_⟩
    obtain ⟨is', hcode', -, hrun⟩ := scalarBinary_spec hbinary hf hint
      (canon_readWord hsize h1 m.mem (addressOf m (inFrame x)))
      (canon_readWord hsize h1 m.mem (addressOf m (inFrame y))) d x y
    obtain rfl := straight_inj (Except.ok.inj (hcode.symm.trans hcode'))
    rcases hrun m rfl rfl with ⟨hnone, -⟩ | ⟨w, m', hval, hexec, hleaves⟩
    · rw [heval] at hnone
      cases hnone
    · rw [heval] at hval
      cases hval
      refine ⟨m', hexec, ?_⟩
      rw [← leBytes_canon hsize h1]
      exact hleaves.writes (Kind.size_le k)

/-! ## Comparisons -/

/-- The rules of predicates for the lanes of vectors. -/
def Compares (p : Predicate) (k : Kind) : Prop :=
  p ∈ Predicate.named ∧ Ty.laneKind k = true ∧ if p.isFloat then k = .f32 else k.isInt = true

theorem compare_answers (hp : Compares p k) (x y : Int32) :
    ∃ is, compare p k (inFrame x) (inFrame y) = .ok (straight is) ∧
      ∀ m, ∃ m', execAll is m = .ok m' ∧ Decides m m' (evalCompare p k
        (m.mem.readWord (addressOf m (inFrame x)) k.size)
        (m.mem.readWord (addressOf m (inFrame y)) k.size)) := by
  obtain ⟨hnamed, hlane, hkind⟩ := hp
  have hsize : k.size ≠ 0 := (wide_of_laneKind hlane).ne_zero
  have h1 : k ≠ .i1 := fun h => by rw [h] at hlane; exact absurd hlane (by decide)
  by_cases hf : p.isFloat = true
  · obtain rfl : k = .f32 := by simpa [hf] using hkind
    simp only [evalCompare, if_pos hf]
    exact compareFloat_spec hnamed hf x y
  · have hf := eq_false_of_ne_true hf
    have hint : InReg k := .inl (by simpa [hf] using hkind)
    obtain ⟨is, hcode, -⟩ :=
      compare_spec hnamed hf hint (Kind.canon_zero k) (Kind.canon_zero k) x y
    refine ⟨is, hcode, fun m => ?_⟩
    obtain ⟨is', hcode', hrun⟩ := compare_spec hnamed hf hint
      (canon_readWord hsize h1 m.mem (addressOf m (inFrame x)))
      (canon_readWord hsize h1 m.mem (addressOf m (inFrame y))) x y
    obtain rfl := straight_inj (Except.ok.inj (hcode.symm.trans hcode'))
    exact hrun m rfl rfl

theorem width_ofSize (hw : Wide w) : ∃ width, Width.ofSize w = .ok width ∧ width.bytes = w := by
  rcases hw with rfl | rfl | rfl | rfl <;> exact ⟨_, rfl, rfl⟩

/-- A word of a register is stored after work in registers. -/
theorem storeReg_spec (width : Width)
    (hregs : ∀ r, r ≠ .rax → r ≠ .rcx → r ≠ .rdx → m'.reg r = m.reg r) (hmem : m'.mem = m.mem)
    (d : Int32) (r : Reg) :
    ∃ m'', execAll [.store (inFrame d) r width] m' = .ok m'' ∧
      Writes m m'' d (leBytes width.bytes (m'.reg r)) := by
  have hsize : (leBytes width.bytes (m'.reg r)).length ≤ UInt64.size := by
    rw [length_leBytes]
    cases width <;> decide
  refine ⟨m'.store (addressOf m' (inFrame d)) width.bytes (m'.reg r), rfl,
    Writes.behind hregs hmem ⟨?_, fun x hx => ?_, fun _ _ _ _ => rfl⟩⟩
  · rw [Machine.mem_store]
    exact Memory.read_write hsize _ _
  · rw [Machine.mem_store]
    exact Memory.get_write_of_not_within hsize hx

theorem neg_bit (b : Bool) : (0 - if b then 1 else 0 : UInt64) = maskOf b := by
  cases b <;> rfl

/-- One lane of a comparison of vectors, made a mask. -/
def maskLane (p : Predicate) (k : Kind) (dst x y : Place) : Outcome Code := do
  return (← compare p k x y) ++
    straight [.unary .neg .rax, .store dst .rax (← Width.ofSize k.size)]

theorem maskLane_spec (hp : Compares p k) (d x y : Int32) :
    MakesLane k.size d (maskLane p k (inFrame d) (inFrame x) (inFrame y)) fun m =>
      maskOf (evalCompare p k (m.mem.readWord (addressOf m (inFrame x)) k.size)
        (m.mem.readWord (addressOf m (inFrame y)) k.size)) := by
  obtain ⟨is, hcode, hrun⟩ := compare_answers hp x y
  obtain ⟨width, hwidth, hbytes⟩ := width_ofSize (wide_of_laneKind hp.2.1)
  refine ⟨is ++ ([.unary .neg .rax, .store (inFrame d) .rax width] : List (Instr Label)), ?_,
    fun m => ?_⟩
  · rw [maskLane, hcode, hwidth, straight_append]
    rfl
  obtain ⟨m₁, hrun₁, hdecides⟩ := hrun m
  obtain ⟨m₂, hrun₂, hset⟩ := neg_spec m₁ .rax
  obtain ⟨m₃, hrun₃, hwrites⟩ := storeReg_spec width
    (fun r hax hcx _ => (hset.others r hax).trans (hdecides.regs r hax hcx))
    (hset.mem.trans hdecides.mem) d .rax
  rw [hset.value, hdecides.value, neg_bit, hbytes] at hwrites
  exact ⟨m₃, (execAll_append hrun₁).trans ((execAll_append hrun₂).trans hrun₃), hwrites⟩

/-- The vector instruction for a relation of integers, with the exchange and the inversion of a
predicate, decides the predicate. -/
theorem intTest_spec {equal greater i : SseOp} {swap invert : Bool}
    (hk : laneTests k = some (equal, greater))
    (hp : intTest equal greater p = some (i, swap, invert)) :
    (Compares p k ∧ p.isFloat = false) ∧ ∃ t : UInt64 → UInt64 → Bool,
      Combines i none (lanewise k.size fun a b => maskOf (t a b)) ∧
        ∀ a b, evalCompare p k a b = ((if swap then t b a else t a b) ^^ invert) := by
  have hequal : Combines equal none (lanewise k.size fun a b => maskOf (a == b)) := by
    cases k <;> cases hk <;>
      exact combines_zip (wide_of_laneKind rfl) (by decide) fun _ _ => rfl
  have hgreater : Combines greater none
      (lanewise k.size fun a b => maskOf (k.signExtend b < k.signExtend a)) := by
    cases k <;> cases hk <;>
      exact combines_zip (wide_of_laneKind rfl) (by decide) fun _ _ => rfl
  have hlane : Ty.laneKind k = true ∧ k.isInt = true := by
    cases k <;> cases hk <;> exact ⟨rfl, rfl⟩
  have hle : ∀ u v : Int64, decide (u ≤ v) = !decide (v < u) := fun u v => by
    rw [← decide_not, decide_eq_decide.mpr Int64.not_lt.symm]
  cases p <;> cases hp <;> refine ⟨⟨⟨by decide, hlane.1, hlane.2⟩, rfl⟩, ?_⟩
  case eq | ne =>
    exact ⟨_, hequal, fun a b => by simp [evalCompare, compareInt, Predicate.isFloat, Predicate.code, bne]⟩
  all_goals
    exact ⟨_, hgreater, fun a b => by
      simp [evalCompare, compareInt, Predicate.isFloat, Predicate.code, hle]⟩

section masks

variable {x y : Int32}

/-- The code of a comparison of sixteen bytes leaves the masks of the answers. -/
def LeavesMasks (p : Predicate) (k : Kind) (d x y : Int32) (code : Code) : Prop :=
  ∃ is, code = straight is ∧ ∀ m, ∃ m', execAll is m = .ok m' ∧ Writes m m' d
    (laid k.size fun i => maskOf (evalCompare p k (laneAt k.size m x i) (laneAt k.size m y i)))

theorem floatMasks_spec {imm : UInt8} {swap : Bool} (h : floatSelector p = some (imm, swap))
    (hx : x.toInt + 16 ≤ 0) (hy : y.toInt + 16 ≤ 0) (d : Int32) :
    LeavesMasks p .f32 d x y (straight [.movdquLoad 0 (inFrame (if swap then y else x)),
      .movdquLoad 1 (inFrame (if swap then x else y)), vector .cmpps 0 1 (some imm),
      .movdquStore (inFrame d) 0]) := by
  have hf : p.isFloat = true := by cases p <;> cases h <;> rfl
  have hw : Wide Kind.f32.size := wide_of_laneKind rfl
  have hcmp : Combines .cmpps (some imm)
      (lanewise Kind.f32.size fun a b => maskOf (floatCompare imm (.ofWord a) (.ofWord b))) :=
    combines_zip hw (by decide) fun _ _ => rfl
  refine ⟨_, rfl, fun m => ?_⟩
  obtain ⟨m', hrun, hwrites⟩ := hcmp.store d (if swap then y else x) (if swap then x else y) m
  refine ⟨m', hrun, ?_⟩
  rw [lanewise_read hw (by split <;> assumption) (by split <;> assumption)] at hwrites
  have hsame : ∀ i, floatCompare imm
      (.ofWord (laneAt Kind.f32.size m (if swap then y else x) i))
      (.ofWord (laneAt Kind.f32.size m (if swap then x else y) i)) =
      evalCompare p .f32 (laneAt Kind.f32.size m x i) (laneAt Kind.f32.size m y i) := by
    intro i
    rw [evalCompare, if_pos hf, ← floatSelector_spec h]
    cases swap <;> rfl
  simp only [hsame] at hwrites
  exact hwrites

theorem intMasks_spec {equal greater i : SseOp} {swap invert : Bool}
    (hk : laneTests k = some (equal, greater)) (hp : intTest equal greater p = some (i, swap, invert))
    (hx : x.toInt + 16 ≤ 0) (hy : y.toInt + 16 ≤ 0) (d : Int32) :
    LeavesMasks p k d x y (straight (.movdquLoad 0 (inFrame (if swap then y else x)) ::
      .movdquLoad 1 (inFrame (if swap then x else y)) :: vector i 0 1 ::
      ((if invert then [vector .pcmpeqd 1 1, vector .pxor 0 1] else [] : List (Instr Label)) ++
        ([.movdquStore (inFrame d) 0] : List (Instr Label))))) := by
  obtain ⟨⟨hcompares, -⟩, t, hcombines, hdecides⟩ := intTest_spec hk hp
  have hw := wide_of_laneKind hcompares.2.1
  refine ⟨_, rfl, fun m => ?_⟩
  obtain ⟨m₁, hrun₁, hsame₁, hmask⟩ :=
    hcombines.load (if swap then y else x) (if swap then x else y) m
  rw [lanewise_read hw (by split <;> assumption) (by split <;> assumption)] at hmask
  -- inverted or not, the mask is that of the predicate
  obtain ⟨m₂, hrun₂, hsame₂, hbytes⟩ : ∃ m₂,
      execAll (if invert then [vector .pcmpeqd 1 1, vector .pxor 0 1] else []) m₁ = .ok m₂ ∧
      Untouched m₁ m₂ ∧ (m₂.xmm 0).bytes =
        laid k.size fun i => maskOf (evalCompare p k (laneAt k.size m x i) (laneAt k.size m y i)) := by
    simp only [hdecides]
    cases invert with
    | false =>
      refine ⟨m₁, rfl, ⟨fun _ => rfl, rfl⟩, hmask.trans ?_⟩
      cases swap <;> simp
    | true =>
      obtain ⟨m₂, hrun₂, hsame₂, hbytes⟩ := invert_spec hw hmask
      refine ⟨m₂, hrun₂, hsame₂, hbytes.trans ?_⟩
      cases swap <;> simp
  obtain ⟨m₃, hrun₃, hwrites⟩ := storeVector_spec (hsame₁.trans hsame₂) d
  rw [hbytes] at hwrites
  exact ⟨m₃, (execAll_append hrun₁).trans ((execAll_append hrun₂).trans hrun₃), hwrites⟩

theorem vectorCompare_spec {t : Ty} {code : Code} (ht : op = .fcmp → t.elemKind = .f32)
    (hx : x.toInt + 16 ≤ 0) (hy : y.toInt + 16 ≤ 0)
    (h : vectorCompare op p t (inFrame d) (inFrame x) (inFrame y) = some code) :
    t.size = 16 ∧ Compares p t.elemKind ∧ LeavesMasks p t.elemKind d x y code := by
  unfold vectorCompare at h
  split at h
  · cases h
  next hsize =>
  refine ⟨Classical.not_not.mp hsize, ?_⟩
  split at h
  · next hop =>
    obtain ⟨⟨imm, swap⟩, hsel, h⟩ := Option.bind_eq_some_iff.mp h
    rw [ht hop]
    refine ⟨⟨?_, rfl, ?_⟩, ?_⟩
    · cases p <;> cases hsel <;> decide
    · cases p <;> cases hsel <;> rfl
    · cases swap <;> cases h <;> exact floatMasks_spec hsel hx hy d
  · obtain ⟨⟨equal, greater⟩, htests, h⟩ := Option.bind_eq_some_iff.mp h
    obtain ⟨⟨i, swap, invert⟩, hint, h⟩ := Option.bind_eq_some_iff.mp h
    refine ⟨(intTest_spec htests hint).1.1, ?_⟩
    cases swap <;> cases h <;> exact intMasks_spec htests hint hx hy d

end masks

/-! ## Selections -/

/-- One lane of a selection by the lanes of a mask of the same width. -/
def chosenLane (w : Nat) (dst mask x y : Place) : Outcome Code := do
  let test ← Access.ofSize w false
  let _ ← Access.ofSize w false
  return straight (.load .rax mask test :: .alu .test .rax .rax :: selectChunk dst x y w)

theorem access_ofSize (hw : Wide w) : Access.ofSize w false = .ok (chunkAccess w) := by
  rcases hw with rfl | rfl | rfl | rfl <;> rfl

theorem chunkWidth_bytes (hw : Wide w) : (chunkWidth w).bytes = w := by
  rcases hw with rfl | rfl | rfl | rfl <;> rfl

theorem loadChunk_spec (hw : Wide w) (r : Reg) (e : Int32) (m : Machine) :
    ∃ m', execAll [.load r (inFrame e) (chunkAccess w)] m = .ok m' ∧ m'.flags = m.flags ∧
      Sets m m' r (m.mem.readWord (addressOf m (inFrame e)) w) := by
  have hmem : w ∈ [1, 2, 4, 8] := by
    rcases hw with rfl | rfl | rfl | rfl <;> decide
  have hsets := Sets.of_setReg m r (m.load (addressOf m (inFrame e)) (chunkAccess w))
  rw [(load_chunkAccess hmem _).1] at hsets
  refine ⟨m.setReg r (m.load (addressOf m (inFrame e)) (chunkAccess w)), rfl, rfl, ?_⟩
  rw [(load_chunkAccess hmem _).1]
  exact hsets

theorem cmov_spec (m : Machine) : ∃ m', execAll [.cmov .e .rcx .rdx] m = .ok m' ∧
    Sets m m' .rcx (if m.flags.zero then m.reg .rdx else m.reg .rcx) := by
  refine ⟨if m.flags.zero then m.setReg .rcx (m.reg .rdx) else m, rfl, ?_⟩
  split
  · exact .of_setReg m .rcx _
  · exact ⟨rfl, fun _ _ => rfl, fun _ => rfl, rfl⟩

theorem chosenLane_spec (hw : Wide w) (d c x y : Int32) :
    MakesLane w d (chosenLane w (inFrame d) (inFrame c) (inFrame x) (inFrame y)) fun m =>
      if m.mem.readWord (addressOf m (inFrame c)) w = 0 then m.mem.readWord (addressOf m (inFrame y)) w
      else m.mem.readWord (addressOf m (inFrame x)) w := by
  refine ⟨[.load .rax (inFrame c) (chunkAccess w), .alu .test .rax .rax,
    .load .rcx (inFrame x) (chunkAccess w), .load .rdx (inFrame y) (chunkAccess w),
    .cmov .e .rcx .rdx, .store (inFrame d) .rcx (chunkWidth w)], ?_, fun m => ?_⟩
  · rw [chosenLane, access_ofSize hw]
    rfl
  obtain ⟨m₁, hrun₁, -, h₁⟩ := loadChunk_spec hw .rax c m
  obtain ⟨m₂, hrun₂, hzero, h₂⟩ : ∃ m₂, execAll [.alu .test .rax .rax] m₁ = .ok m₂ ∧
      m₂.flags.zero = (m₁.reg .rax &&& m₁.reg .rax == 0) ∧ Untouched m₁ m₂ :=
    ⟨_, rfl, rfl, fun _ => rfl, rfl⟩
  obtain ⟨m₃, hrun₃, hflags₃, h₃⟩ := loadChunk_spec hw .rcx x m₂
  obtain ⟨m₄, hrun₄, hflags₄, h₄⟩ := loadChunk_spec hw .rdx y m₃
  obtain ⟨m₅, hrun₅, h₅⟩ := cmov_spec m₄
  have hmem₂ := h₂.mem.trans h₁.mem
  have hregs₂ : ∀ r, r ≠ .rax → m₂.reg r = m.reg r := fun r hax =>
    (h₂.regs r).trans (h₁.others r hax)
  have hmem₄ := h₄.mem.trans (h₃.mem.trans hmem₂)
  have hregs₄ : ∀ r, r ≠ .rax → r ≠ .rcx → r ≠ .rdx → m₄.reg r = m.reg r := fun r hax hcx hdx =>
    (h₄.others r hdx).trans ((h₃.others r hcx).trans (hregs₂ r hax))
  obtain ⟨m₆, hrun₆, hwrites⟩ := storeReg_spec (chunkWidth w)
    (fun r hax hcx hdx => (h₅.others r hcx).trans (hregs₄ r hax hcx hdx)) (h₅.mem.trans hmem₄) d .rcx
  -- the operands were loaded from the frame as it is at the start
  have hrcx : m₄.reg .rcx = m.mem.readWord (addressOf m (inFrame x)) w := by
    rw [h₄.others .rcx (by decide), h₃.value, hmem₂, addressOf_congr (hregs₂ .rbp (by decide))]
  have hrdx : m₄.reg .rdx = m.mem.readWord (addressOf m (inFrame y)) w := by
    rw [h₄.value, h₃.mem, hmem₂, addressOf_congr
      ((h₃.others .rbp (by decide)).trans (hregs₂ .rbp (by decide)))]
  have htest : m₄.flags.zero = decide (m.mem.readWord (addressOf m (inFrame c)) w = 0) := by
    rw [hflags₄, hflags₃, hzero, h₁.value, UInt64.and_self]
    rfl
  rw [h₅.value, htest, hrcx, hrdx, chunkWidth_bytes hw] at hwrites
  simp only [decide_eq_true_eq] at hwrites
  exact ⟨m₆, (execAll_append hrun₁).trans ((execAll_append hrun₂).trans ((execAll_append hrun₃).trans
    ((execAll_append hrun₄).trans ((execAll_append hrun₅).trans hrun₆)))), hwrites⟩

theorem isZero_mask (hw : Wide w) (b : Bool) :
    ofLeBytes (leBytes w (maskOf b)) = 0 ↔ b = false := by
  rcases hw with rfl | rfl | rfl | rfl <;> cases b <;> decide

/-! ## Both ways -/

/-- From every machine in which `P` holds, two codes run to their ends and put the same bytes in the same
area of the frame, the rest of memory being as it was. -/
def Agree (d : Int32) (P : Machine → Prop) (out : Machine → List UInt8) (code code' : Code) : Prop :=
  ∀ prog rest m, P m → (∃ m', Runs prog (code ++ rest) m rest m' ∧ Writes m m' d (out m)) ∧
    ∃ m', Runs prog (code' ++ rest) m rest m' ∧ Writes m m' d (out m)

section agree

variable {c x y : Int32}

theorem agree_of_runs {P : Machine → Prop} {out : Machine → List UInt8} {is is' : List (Instr Label)}
    (h : ∀ m, P m → ∃ m', execAll is m = .ok m' ∧ Writes m m' d (out m))
    (h' : ∀ m, P m → ∃ m', execAll is' m = .ok m' ∧ Writes m m' d (out m)) :
    Agree d P out (straight is) (straight is') := by
  intro prog rest m hm
  obtain ⟨m₁, hrun₁, hwrites₁⟩ := h m hm
  obtain ⟨m₂, hrun₂, hwrites₂⟩ := h' m hm
  exact ⟨⟨m₁, runs_straight hrun₁, hwrites₁⟩, ⟨m₂, runs_straight hrun₂, hwrites₂⟩⟩

theorem binary_agree {i : SseOp} (hbinary : op.isBinary = true) (hop : Suits op k)
    (hi : vectorBinaryOp op k = some i) (hd : d.toInt + 16 ≤ 0) (hx : Source d x) (hy : Source d y) :
    ∃ code' : Code, ∃ g : UInt64 → UInt64 → UInt64,
      eachLane (16 / k.size) (fun i => scalarBinary op k (laneOf d k i) (laneOf x k i)
        (laneOf y k i)) = .ok code' ∧
      (∀ a b, evalBinary op k a b = .ok (some (k.canon (g a b)))) ∧
      Agree d (fun _ => True)
        (fun m => laid k.size fun i => g (laneAt k.size m x i) (laneAt k.size m y i))
        (straight [.movdquLoad 0 (inFrame x), .movdquLoad 1 (inFrame y), vector i 0 1,
          .movdquStore (inFrame d) 0]) code' := by
  have hw := wide_of_laneKind hop.1
  obtain ⟨g, heval, hcombines⟩ := vectorBinaryOp_spec hi hop
  obtain ⟨is, hcode, hrun⟩ := eachLane_makes
    (fun m i => g (laneAt k.size m x i) (laneAt k.size m y i)) [x, y] hw hd (by simp [hx, hy])
    (fun i m m' h => by rw [h x (by simp), h y (by simp)])
    fun i => binaryLane_spec hbinary hop heval _ _ _
  refine ⟨straight is, g, hcode, heval, agree_of_runs (fun m _ => ?_) fun m _ => hrun m⟩
  rw [← lanewise_read hw hx.below hy.below]
  exact hcombines.store d x y m

theorem compare_agree {t : Ty} {code : Code} (ht : op = .fcmp → t.elemKind = .f32)
    (h : vectorCompare op p t (inFrame d) (inFrame x) (inFrame y) = some code)
    (hd : d.toInt + 16 ≤ 0) (hx : Source d x) (hy : Source d y) :
    t.size = 16 ∧ ∃ code', eachLane (16 / t.elemKind.size) (fun i => maskLane p t.elemKind
        (laneOf d t.elemKind i) (laneOf x t.elemKind i) (laneOf y t.elemKind i)) = .ok code' ∧
      Agree d (fun _ => True) (fun m => laid t.elemKind.size fun i =>
        maskOf (evalCompare p t.elemKind (laneAt t.elemKind.size m x i) (laneAt t.elemKind.size m y i)))
        code code' := by
  obtain ⟨hsize, hp, is, rfl, hfast⟩ := vectorCompare_spec ht hx.below hy.below h
  obtain ⟨is', hcode, hrun⟩ := eachLane_makes
    (fun m i => maskOf (evalCompare p t.elemKind (laneAt t.elemKind.size m x i)
      (laneAt t.elemKind.size m y i))) [x, y] (wide_of_laneKind hp.2.1) hd (by simp [hx, hy])
    (fun i m m' h => by rw [h x (by simp), h y (by simp)])
    fun i => maskLane_spec hp _ _ _
  exact ⟨hsize, straight is', hcode, agree_of_runs (fun m _ => hfast m) fun m _ => hrun m⟩

theorem blend_agree (hw : Wide w) (hd : d.toInt + 16 ≤ 0) (hc : Source d c) (hx : Source d x)
    (hy : Source d y) :
    ∃ code', eachLane (16 / w) (fun i => chosenLane w (shift (inFrame d) (i * w))
        (shift (inFrame c) (i * w)) (shift (inFrame x) (i * w)) (shift (inFrame y) (i * w))) = .ok code' ∧
      ∀ t : Nat → Bool, Agree d
        (fun m => m.mem.read (addressOf m (inFrame c)) 16 = laid w fun i => maskOf (t i))
        (fun m => laid w fun i => if t i then laneAt w m x i else laneAt w m y i)
        (blend (inFrame d) (inFrame c) (inFrame x) (inFrame y)) code' := by
  obtain ⟨is', hcode, hrun⟩ := eachLane_makes
    (fun m i => if laneAt w m c i = 0 then laneAt w m y i else laneAt w m x i) [c, x, y] hw hd
    (by simp [hc, hx, hy])
    (fun i m m' h => by rw [h c (by simp), h x (by simp), h y (by simp)])
    fun i => chosenLane_spec hw _ _ _ _
  refine ⟨straight is', hcode, fun t => agree_of_runs (fun m hm => ?_) fun m hm => ?_⟩
  · obtain ⟨is, hblend, hfast⟩ :=
      blend_spec d hm (read_eq_laid hw hx.below m) (read_eq_laid hw hy.below m)
    obtain rfl := straight_inj hblend
    exact hfast
  · obtain ⟨m', hexec, hwrites⟩ := hrun m
    refine ⟨m', hexec, ?_⟩
    -- a lane of the mask is zero where the answer is no
    have hsame : laid w (fun i => if laneAt w m c i = 0 then laneAt w m y i else laneAt w m x i) =
        laid w fun i => if t i then laneAt w m x i else laneAt w m y i := by
      refine laid_congr fun i hi => ?_
      rw [laneAt_of_read hw hc.below hm hi]
      cases ht : t i with
      | true => rw [if_neg (by rw [isZero_mask hw]; decide), if_pos rfl]
      | false => rw [if_pos ((isZero_mask hw false).mpr rfl), if_neg (by decide)]
    rwa [← hsame]

end agree

end SsaJit.Lower
