import SsaJit.Graph.Basic
import SsaJit.Graph.Verify
import SsaJit.Proofs.Bytes
import SsaJit.Proofs.Lower.Integer
import SsaJit.Proofs.Lower.Marks
import SsaJit.Proofs.Single

/-! Conversions in machine code. Lane by lane, the code leaves what `evalCast` says wherever that has a
value; sixteen bytes of floats or of words are converted at once by an instruction that knows only 32
bits, and a reinterpretation copies bytes. So a folded conversion and its code agree except where
that instruction has no room for the number, or where bytes are read as bits that are not cut. -/

namespace SsaJit.Lower

open X86

variable {op : Op} {k s t : Kind} {a w : UInt64} {m m' m'' : Machine} {d e : Int32}

/-! ## Singles in registers -/

theorem toWord_ofWord (w : UInt64) : (Single.ofWord w).toWord = w &&& 0xFFFFFFFF := by
  apply UInt64.toNat.inj
  rw [Single.toWord, Single.ofWord, UInt32.toNat_toUInt64, UInt64.toNat_toUInt32, UInt64.toNat_and]
  exact (Nat.and_two_pow_sub_one_eq_mod w.toNat 32).symm

theorem low_setLow (x : Xmm) (y : Single) : (x.setLow y).low = y := by
  have hbits : ((x.lo &&& 0xFFFFFFFF00000000) ||| y.toWord).toUInt32 = y.bits := by
    apply UInt32.toNat.inj
    rw [UInt64.toNat_toUInt32, UInt64.toNat_or, UInt64.toNat_and, Nat.or_mod_two_pow,
      Nat.and_mod_two_pow]
    change (x.lo.toNat % 2 ^ 32 &&& 0) ||| y.bits.toUInt64.toNat % 2 ^ 32 = _
    rw [Nat.and_zero, Nat.zero_or, UInt32.toNat_toUInt64, Nat.mod_eq_of_lt y.bits.toNat_lt]
  exact congrArg Single.mk hbits

/-- The machine with a single in the first vector register. -/
structure SetsSingle (m m' : Machine) (x : Single) : Prop where
  low : (m'.xmm 0).low = x
  regs : ∀ r, r ≠ .rax → r ≠ .rcx → m'.reg r = m.reg r
  mem : m'.mem = m.mem

theorem loadSingle_spec (d : Int32) (m : Machine) (hm : Holds m (inFrame d) .f32 a) :
    ∃ m', execAll [.movssLoad 0 (inFrame d)] m = .ok m' ∧ SetsSingle m m' (.ofWord a) := by
  have hload : execAll [.movssLoad 0 (inFrame d)] m =
      .ok (m.setXmm 0 ⟨m.mem.readWord (addressOf m (inFrame d)) 4, 0⟩) := rfl
  refine ⟨_, hload, ?_, fun r _ _ => m.reg_setXmm 0 _ r, m.mem_setXmm 0 _⟩
  rw [Machine.xmm_setXmm_self, show m.mem.readWord (addressOf m (inFrame d)) 4 = a from hm]
  rfl

theorem storeSingle_spec (d : Int32) (m : Machine) :
    ∃ m', execAll [.movssStore (inFrame d) 0] m = .ok m' ∧
      Leaves m m' (inFrame d) .f32 (m.xmm 0).low.toWord := by
  have hstore : execAll [.movssStore (inFrame d) 0] m =
      .ok (m.store (addressOf m (inFrame d)) 4 (m.xmm 0).lo) := rfl
  generalize hm' : m.store (addressOf m (inFrame d)) 4 (m.xmm 0).lo = m' at hstore
  have hregs : ∀ r, m'.reg r = m.reg r := fun r => by rw [← hm', Machine.reg_store]
  have hmem : m'.mem = m.mem.writeWord (addressOf m (inFrame d)) 4 (m.xmm 0).lo := by
    rw [← hm', Machine.mem_store]
  refine ⟨m', hstore, ?_, fun x hx => ?_, fun r _ _ _ => hregs r⟩
  · rw [Holds, addressOf_congr (hregs .rbp), hmem, Xmm.low, toWord_ofWord, Kind.size,
      Memory.readWord_writeWord (by decide)]
    exact ofLeBytes_leBytes (by decide) (by decide)
  · rw [hmem]
    exact Memory.get_writeWord (by decide) hx

theorem signedToSingle_spec (r : Reg) (m : Machine) :
    ∃ m', execAll [.cvtsi2ss 0 r] m = .ok m' ∧
      SetsSingle m m' (.ofInt (m.reg r).toInt64.toInt) := by
  have hconvert : execAll [.cvtsi2ss 0 r] m =
      .ok (m.setXmm 0 ((m.xmm 0).setLow (.ofInt (m.reg r).toInt64.toInt))) := rfl
  refine ⟨_, hconvert, ?_, fun s _ _ => m.reg_setXmm 0 _ s, m.mem_setXmm 0 _⟩
  rw [Machine.xmm_setXmm_self, low_setLow]

theorem truncate_spec (m : Machine) :
    ∃ m', execAll [.cvttss2si .rax 0] m = .ok m' ∧ Sets m m' .rax (truncateTo 64 (m.xmm 0).low) :=
  ⟨_, rfl, .of_setReg m .rax _⟩

/-! ## Jumps -/

theorem runs_jump {prog rest code : Code} {l : Label} (h : behind l prog = some code) :
    Runs prog (.instr (.jmp l) :: rest) m code m := by
  refine .step ?_ .refl
  rw [advance, jumpTo, h]

theorem runs_branch {prog rest code : Code} {l : Label} {cc : Cond}
    (h : behind l prog = some code) : Runs prog (.instr (.jcc cc l) :: rest) m
      (if cc.holds m.flags then code else rest) m := by
  refine .step ?_ .refl
  rw [advance, jumpTo, h]
  split <;> rfl

theorem runs_mark {prog rest : Code} {l : Label} : Runs prog (.mark l :: rest) m rest m :=
  .step rfl .refl

/-- The labels that a piece of code binds stand nowhere before it. -/
def Resolved (prog code rest : Code) : Prop :=
  ∀ l ∈ marks code, behind l prog = behind l (code ++ rest)

/-! ## Unsigned words -/

/-- The second half of `unsignedToFloat`, for words with their top bit set. -/
def halveAndDouble : List (Instr Label) :=
  [.alu .mov .rcx .rax, .shrImm .rcx 1, .aluImm .and .rax 1, .alu .or .rcx .rax, .cvtsi2ss 0 .rcx,
    vector (.scalar .add) 0 0]

theorem toNat_halved (w : UInt64) : (w >>> 1 ||| w &&& 1).toNat = Single.jam w.toNat := by
  rw [UInt64.toNat_or, UInt64.toNat_shiftRight, UInt64.toNat_and, Nat.shiftRight_eq_div_pow]
  exact congrArg (w.toNat / 2 ||| ·) (Nat.and_two_pow_sub_one_eq_mod w.toNat 1)

theorem halve_spec (m : Machine) : ∃ m', execAll [.alu .mov .rcx .rax, .shrImm .rcx 1,
      .aluImm .and .rax 1, .alu .or .rcx .rax] m = .ok m' ∧
    m'.reg .rcx = (m.reg .rax >>> 1 ||| m.reg .rax &&& 1) ∧
    (∀ r, r ≠ .rax → r ≠ .rcx → m'.reg r = m.reg r) ∧ m'.mem = m.mem := by
  obtain ⟨m₁, hrun₁, hset₁⟩ : ∃ m₁, execAll [.alu .mov .rcx .rax, .shrImm .rcx 1] m = .ok m₁ ∧
      Sets m m₁ .rcx (m.reg .rax >>> 1) := by
    refine ⟨_, rfl, (Sets.of_setReg m .rcx (m.reg .rax)).trans ?_⟩
    have hval : Machine.shifted .shr ((m.setReg .rcx (m.reg .rax)).reg .rcx) (1 : UInt8).toUInt64 =
        m.reg .rax >>> 1 := by
      rw [Machine.reg_setReg_self]
      rfl
    rw [← hval]
    exact .of_setReg _ .rcx _
  obtain ⟨m₂, hrun₂, hset₂⟩ := and_one_spec m₁ .rax
  obtain ⟨m₃, hrun₃, hset₃⟩ : ∃ m₃, execAll [.alu .or .rcx .rax] m₂ = .ok m₃ ∧
      Sets m₂ m₃ .rcx (m₂.reg .rcx ||| m₂.reg .rax) :=
    ⟨_, rfl, m₂.reg_setReg_self .rcx _, fun _ hs => m₂.reg_setReg_ne _ hs.symm, fun _ => rfl, rfl⟩
  rw [hset₂.value, hset₂.others .rcx (by decide), hset₁.value,
    hset₁.others .rax (by decide)] at hset₃
  refine ⟨m₃, (execAll_append hrun₁).trans ((execAll_append hrun₂).trans hrun₃), hset₃.value,
    fun r hrax hrcx => ?_, hset₃.mem.trans (hset₂.mem.trans hset₁.mem)⟩
  exact (hset₃.others r hrcx).trans ((hset₂.others r hrax).trans (hset₁.others r hrcx))

theorem double_spec (m : Machine) : ∃ m', execAll [vector (.scalar .add) 0 0] m = .ok m' ∧
    SetsSingle m m' (.add (m.xmm 0).low (m.xmm 0).low) := by
  have hadd : m.sse (SseOp.scalar .add).code 0 0 none =
      .ok (m.setXmm 0 ((m.xmm 0).setLow (.add (m.xmm 0).low (m.xmm 0).low))) :=
    Machine.sse_of_apply (by decide) rfl
  refine ⟨_, execAll_one.trans hadd, ?_, fun r _ _ => m.reg_setXmm 0 _ r, m.mem_setXmm 0 _⟩
  rw [Machine.xmm_setXmm_self, low_setLow]

theorem halveAndDouble_spec (h : 9223372036854775808 ≤ (m.reg .rax).toNat) :
    ∃ m', execAll halveAndDouble m = .ok m' ∧ SetsSingle m m' (.ofInt (m.reg .rax).toNat) := by
  obtain ⟨m₁, hrun₁, hrcx, hregs, hmem⟩ := halve_spec m
  obtain ⟨m₂, hrun₂, hset₂⟩ := signedToSingle_spec .rcx m₁
  obtain ⟨m₃, hrun₃, hset₃⟩ := double_spec m₂
  have hlt := (m.reg .rax).toNat_lt
  have hhalf := Single.jam_eq (m.reg .rax).toNat
  have hint : (m₁.reg .rcx).toInt64.toInt = (Single.jam (m.reg .rax).toNat : Int) := by
    rw [toInt_toInt64, hrcx, toNat_halved, if_pos (by omega)]
  rw [hset₂.low, hint, Single.add_jam (by omega) hlt] at hset₃
  refine ⟨m₃, (execAll_append hrun₁).trans ((execAll_append hrun₂).trans hrun₃), hset₃.low,
    fun r hrax hrcx => ?_, hset₃.mem.trans (hset₂.mem.trans hmem)⟩
  exact (hset₃.regs r hrax hrcx).trans ((hset₂.regs r hrax hrcx).trans (hregs r hrax hrcx))

theorem unsignedToFloat_spec {prog rest : Code} {big done : Label} (m : Machine)
    (hbig : behind big prog = some (straight halveAndDouble ++ .mark done :: rest))
    (hdone : behind done prog = some rest) :
    ∃ m', Runs prog (unsignedToFloat big done ++ rest) m rest m' ∧
      SetsSingle m m' (.ofInt (m.reg .rax).toNat) := by
  have hcode : unsignedToFloat big done ++ rest = straight [.alu .test .rax .rax] ++
      .instr (.jcc .s big) :: (straight [.cvtsi2ss 0 .rax] ++ .instr (.jmp done) :: .mark big ::
        (straight halveAndDouble ++ .mark done :: rest)) := rfl
  have htest : execAll [.alu .test .rax .rax] m =
      .ok { m with flags := .ofLogic (m.reg .rax &&& m.reg .rax) } := rfl
  have hsign : Cond.holds (.ofLogic (m.reg .rax &&& m.reg .rax)) .s =
      decide (9223372036854775808 ≤ (m.reg .rax).toNat) := by
    rw [UInt64.and_self, ← topBit_eq]
    rfl
  rw [hcode]
  by_cases h : 9223372036854775808 ≤ (m.reg .rax).toNat
  · obtain ⟨m', hrun, hset⟩ := halveAndDouble_spec
      (m := { m with flags := .ofLogic (m.reg .rax &&& m.reg .rax) }) h
    refine ⟨m', (runs_straight htest).trans ((runs_branch hbig).trans ?_), hset.low, hset.regs, hset.mem⟩
    rw [if_pos (by rw [hsign]; exact decide_eq_true h)]
    exact (runs_straight hrun).trans runs_mark
  · obtain ⟨m', hrun, hset⟩ := signedToSingle_spec .rax
      { m with flags := .ofLogic (m.reg .rax &&& m.reg .rax) }
    have hint : (m.reg .rax).toInt64.toInt = ((m.reg .rax).toNat : Int) := by
      rw [toInt_toInt64, if_pos (Nat.lt_of_not_le h)]
    refine ⟨m', (runs_straight htest).trans ((runs_branch hbig).trans ?_),
      hset.low.trans (congrArg Single.ofInt hint), hset.regs, hset.mem⟩
    rw [if_neg (by rw [hsign]; simpa using h)]
    exact (runs_straight hrun).trans (runs_jump hdone)

/-! ## One lane -/

/-- Kinds between which an operation converts, as `castRule?` has them. -/
def Converts (op : Op) (s t : Kind) : Prop :=
  match op with
  | .trunc | .zext | .sext | .ptrtoint | .inttoptr => InReg s ∧ InReg t
  | .fptosi | .fptoui => s = .f32 ∧ InReg t
  | .sitofp | .uitofp => s.isInt = true ∧ t = .f32
  | _ => False

theorem Converts.size_ne_zero (h : Converts op s t) : s.size ≠ 0 := by
  cases op with
  | trunc | zext | sext | ptrtoint | inttoptr =>
    rcases h.1.size with hs | hs | hs | hs <;> omega
  | fptosi | fptoui =>
    obtain ⟨rfl, -⟩ := h
    decide
  | sitofp | uitofp => exact Kind.size_ne_zero_of_isInt h.1
  | _ => exact h.elim

theorem Sets.single {x : Single} (h : Sets m m' .rax w) (h' : SetsSingle m' m'' x) :
    SetsSingle m m'' x :=
  ⟨h'.low, fun r hrax hrcx => (h'.regs r hrax hrcx).trans (h.others r hrax), h'.mem.trans h.mem⟩

/-- A single that was computed is stored. -/
theorem SetsSingle.store {x : Single} (hset : SetsSingle m m' x) (d : Int32) :
    ∃ m'', execAll [.movssStore (inFrame d) 0] m' = .ok m'' ∧
      Leaves m m'' (inFrame d) .f32 x.toWord := by
  obtain ⟨m'', hrun, hleaves⟩ := storeSingle_spec d m'
  have haddr := addressOf_congr (hset.regs .rbp (by decide) (by decide)) d
  refine ⟨m'', hrun, ?_, fun y hy => ?_, fun r h₁ h₂ h₃ => ?_⟩
  · rw [← hset.low]
    exact hleaves.value
  · rw [← hset.mem]
    exact hleaves.others y (by rwa [haddr])
  · exact (hleaves.regs r h₁ h₂ h₃).trans (hset.regs r h₁ h₂)

/-- A word that was computed in rax is stored. -/
theorem storeRax_spec (hk : InReg k) (d : Int32) :
    ∃ is, storeInt (inFrame d) .rax k = .ok (straight is) ∧ ∀ m m' w, Sets m m' .rax w →
      ∃ m'', execAll is m' = .ok m'' ∧ Leaves m m'' (inFrame d) k (k.canon w) := by
  obtain ⟨is, hcode, -, hrun⟩ := storeInt_spec hk (r := .rax) (by decide) d
  refine ⟨is, hcode, fun m m' w h => ?_⟩
  obtain ⟨m'', hexec, hstores⟩ := hrun m'
  have hrbp : m''.reg .rbp = m'.reg .rbp := hstores.regs .rbp (by decide)
  rw [h.value] at hstores
  refine ⟨m'', hexec, ?_, fun x hx => ?_, fun r h₁ _ _ => ?_⟩
  · rw [Holds, addressOf_congr hrbp]
    exact hstores.value
  · rw [← h.mem]
    exact hstores.others x (by rwa [h.addressOf (by decide)])
  · exact (hstores.regs r h₁).trans (h.others r h₁)

/-- Code that takes a lane from one place and leaves another in a second place. -/
def Turns (lane : Outcome Code) (src : Place) (s : Kind) (a : UInt64) (dst : Place) (t : Kind)
    (w : UInt64) : Prop :=
  ∃ code, lane = .ok code ∧ ∀ prog rest m, Resolved prog code rest → Holds m src s a →
    ∃ m', Runs prog (code ++ rest) m rest m' ∧ Leaves m m' dst t w

/-- Loading in one kind and storing in another. -/
theorem turns_load_store (hs : InReg s) (ht : InReg t) (ha : s.canon a = a) (signed : Bool)
    (d e : Int32) : Turns (do return (← loadInt .rax (inFrame e) s signed) ++
        (← storeInt (inFrame d) .rax t)) (inFrame e) s a (inFrame d) t
      (t.canon (extended s signed a)) := by
  obtain ⟨ls, hload, -, hloads⟩ := loadInt_spec hs .rax e signed ha
  obtain ⟨ss, hstore, hstores⟩ := storeRax_spec ht d
  refine ⟨straight ls ++ straight ss, by rw [hload, hstore]; rfl, fun prog rest m _ hm => ?_⟩
  obtain ⟨m₁, hrun₁, hset⟩ := hloads m hm
  obtain ⟨m₂, hrun₂, hleaves⟩ := hstores m m₁ _ hset
  rw [List.append_assoc]
  exact ⟨m₂, (runs_straight hrun₁).trans (runs_straight hrun₂), hleaves⟩

theorem turns_truncate (ht : InReg t) (a : UInt64) (d e : Int32) :
    Turns (do return straight [.movssLoad 0 (inFrame e), .cvttss2si .rax 0] ++
        (← storeInt (inFrame d) .rax t)) (inFrame e) .f32 a (inFrame d) t
      (t.canon (truncateTo 64 (.ofWord a))) := by
  obtain ⟨ss, hstore, hstores⟩ := storeRax_spec ht d
  refine ⟨straight [.movssLoad 0 (inFrame e), .cvttss2si .rax 0] ++ straight ss, by rw [hstore]; rfl,
    fun prog rest m _ hm => ?_⟩
  obtain ⟨m₁, hrun₁, hset₁⟩ := loadSingle_spec e m hm
  obtain ⟨m₂, hrun₂, hset₂⟩ := truncate_spec m₁
  rw [hset₁.low] at hset₂
  obtain ⟨m₃, hrun₃, hleaves⟩ := hstores m₁ m₂ _ hset₂
  have haddr := addressOf_congr (hset₁.regs .rbp (by decide) (by decide)) d
  rw [List.append_assoc]
  refine ⟨m₃, (runs_straight ((execAll_append hrun₁).trans hrun₂)).trans (runs_straight hrun₃),
    hleaves.value, fun x hx => ?_, fun r h₁ h₂ h₃ => ?_⟩
  · rw [← hset₁.mem]
    exact hleaves.others x (by rwa [haddr])
  · exact (hleaves.regs r h₁ h₂ h₃).trans (hset₁.regs r h₁ h₂)

theorem turns_signed (hs : s.isInt = true) (ha : s.canon a = a) (d e : Int32) :
    Turns (do return (← loadInt .rax (inFrame e) s true) ++
        straight [.cvtsi2ss 0 .rax, .movssStore (inFrame d) 0]) (inFrame e) s a (inFrame d) .f32
      (Single.ofInt (s.signExtend a).toInt).toWord := by
  obtain ⟨ls, hload, -, hloads⟩ := loadInt_spec (.inl hs) .rax e true ha
  refine ⟨straight ls ++ straight [.cvtsi2ss 0 .rax, .movssStore (inFrame d) 0],
    by rw [hload]; rfl, fun prog rest m _ hm => ?_⟩
  obtain ⟨m₁, hrun₁, hset₁⟩ := hloads m hm
  obtain ⟨m₂, hrun₂, hset₂⟩ := signedToSingle_spec .rax m₁
  rw [hset₁.value] at hset₂
  obtain ⟨m₃, hrun₃, hleaves⟩ := (hset₁.single hset₂).store d
  rw [List.append_assoc]
  exact ⟨m₃, (runs_straight hrun₁).trans (runs_straight ((execAll_append hrun₂).trans hrun₃)), hleaves⟩

/-- Where the two labels of an unsigned conversion are found. -/
theorem behind_unsignedToFloat {prog rest : Code} {big done : Label} {ls : List (Instr Label)}
    (hne : done ≠ big) (h : Resolved prog (straight ls ++ unsignedToFloat big done) rest) :
    behind big prog = some (straight halveAndDouble ++ .mark done :: rest) ∧
      behind done prog = some rest := by
  have hmarks : ∀ l, l = big ∨ l = done → l ∈ marks (straight ls ++ unsignedToFloat big done) :=
    fun l hl => by simpa [unsignedToFloat] using hl
  have hcode : straight ls ++ unsignedToFloat big done ++ rest =
      straight (ls ++ [Instr.alu .test .rax .rax, .jcc .s big, .cvtsi2ss 0 .rax, .jmp done]) ++
        .mark big :: (straight halveAndDouble ++ .mark done :: rest) := by
    rw [straight_append, List.append_assoc, List.append_assoc]
    rfl
  have hcode' : straight ls ++ unsignedToFloat big done ++ rest =
      (straight (ls ++ [Instr.alu .test .rax .rax, .jcc .s big, .cvtsi2ss 0 .rax, .jmp done]) ++
        .mark big :: straight halveAndDouble) ++ .mark done :: rest := by
    rw [hcode, List.append_assoc]
    rfl
  constructor
  · rw [h big (hmarks big (.inl rfl)), hcode]
    exact behind_append _ (by simp)
  · rw [h done (hmarks done (.inr rfl)), hcode']
    exact behind_append _ (by simpa using hne)

/-- Narrow words are not negative. -/
theorem toInt_of_narrow (hs : s.isInt = true) (hne : s ≠ .i64) (ha : s.canon a = a) :
    a.toInt64.toInt = a.toNat := by
  have hlt : a.toNat < 2 ^ 32 := by
    cases s with
    | i1 => exact Nat.lt_trans (Kind.and_mask_toNat (n := 1) (by decide) ha) (by decide)
    | i8 => exact Nat.lt_trans (Kind.and_mask_toNat (n := 8) (by decide) ha) (by decide)
    | i16 => exact Nat.lt_trans (Kind.and_mask_toNat (n := 16) (by decide) ha) (by decide)
    | i32 => exact Kind.and_mask_toNat (n := 32) (by decide) ha
    | i64 => exact absurd rfl hne
    | void | f32 | ptr | vector | other => simp [Kind.isInt] at hs
  rw [toInt_toInt64, if_pos (Nat.lt_trans hlt (by decide))]

theorem turns_unsigned (hs : s.isInt = true) (ha : s.canon a = a) (d e : Int32) {big done : Label}
    (hne : done ≠ big) :
    Turns (cast .uitofp s .f32 (inFrame d) (inFrame e) big done) (inFrame e) s a (inFrame d) .f32
      (Single.ofInt a.toNat).toWord := by
  obtain ⟨ls, hload, -, hloads⟩ := loadInt_spec (.inl hs) .rax e false ha
  obtain ⟨convert, hcode, hconvert⟩ : ∃ convert, cast .uitofp s .f32 (inFrame d) (inFrame e) big done =
        .ok (straight ls ++ convert ++ straight [.movssStore (inFrame d) 0]) ∧
      ∀ prog rest m, Resolved prog (straight ls ++ convert) rest → m.reg .rax = a →
        ∃ m', Runs prog (convert ++ rest) m rest m' ∧ SetsSingle m m' (.ofInt a.toNat) := by
    by_cases h64 : s = .i64
    · refine ⟨unsignedToFloat big done, by simp only [cast, hload, if_pos h64]; rfl,
        fun prog rest m hres hm => ?_⟩
      obtain ⟨hbig, hdone⟩ := behind_unsignedToFloat hne hres
      have hspec := unsignedToFloat_spec m hbig hdone
      rwa [hm] at hspec
    · refine ⟨straight [.cvtsi2ss 0 .rax], by simp only [cast, hload, if_neg h64]; rfl,
        fun prog rest m _ hm => ?_⟩
      obtain ⟨m', hrun, hset⟩ := signedToSingle_spec .rax m
      rw [hm, toInt_of_narrow hs h64 ha] at hset
      exact ⟨m', runs_straight hrun, hset⟩
  refine ⟨_, hcode, fun prog rest m hres hm => ?_⟩
  obtain ⟨m₁, hrun₁, hset₁⟩ := hloads m hm
  have hres' : Resolved prog (straight ls ++ convert) (straight [.movssStore (inFrame d) 0] ++ rest) := by
    intro l hl
    rw [hres l (by rw [marks_append]; exact List.mem_append_left _ hl), List.append_assoc]
  obtain ⟨m₂, hrun₂, hset₂⟩ := hconvert prog _ m₁ hres' hset₁.value
  obtain ⟨m₃, hrun₃, hleaves⟩ := (hset₁.single hset₂).store d
  rw [List.append_assoc, List.append_assoc]
  exact ⟨m₃, (runs_straight hrun₁).trans (hrun₂.trans (runs_straight hrun₃)), hleaves⟩

/-- What folding says of a lane, its code leaves. -/
theorem cast_spec (hkinds : Converts op s t) (ha : s.canon a = a) (heval : evalCast op s t a = some w)
    (d e : Int32) {big done : Label} (hne : done ≠ big) :
    Turns (cast op s t (inFrame d) (inFrame e) big done) (inFrame e) s a (inFrame d) t w := by
  cases op with
  | trunc | zext | ptrtoint | inttoptr =>
    obtain rfl := Option.some.inj heval
    exact turns_load_store hkinds.1 hkinds.2 ha false d e
  | sext =>
    obtain rfl := Option.some.inj heval
    exact turns_load_store hkinds.1 hkinds.2 ha true d e
  | fptosi | fptoui =>
    obtain ⟨rfl, ht⟩ := hkinds
    simp only [evalCast] at heval
    split at heval
    · next hfits =>
      obtain rfl := Option.some.inj heval
      have hturns := turns_truncate ht a d e
      rw [truncateTo, if_pos hfits] at hturns
      exact hturns
    · cases heval
  | sitofp =>
    obtain ⟨hs, rfl⟩ := hkinds
    obtain rfl := Option.some.inj heval
    exact turns_signed hs ha d e
  | uitofp =>
    obtain ⟨hs, rfl⟩ := hkinds
    obtain rfl := Option.some.inj heval
    exact turns_unsigned hs ha d e hne
  | _ => exact hkinds.elim

/-! ## Bytes of lanes -/

/-- The machine with bytes put in the frame, by code that works in rax, rcx and rdx. -/
structure Writes (m m' : Machine) (d : Int32) (bs : List UInt8) : Prop where
  bytes : m'.mem.read (addressOf m (inFrame d)) bs.length = bs
  others : ∀ x, ¬ Memory.Within (addressOf m (inFrame d)) bs.length x → m'.mem.get x = m.mem.get x
  regs : ∀ r, r ≠ .rax → r ≠ .rcx → r ≠ .rdx → m'.reg r = m.reg r

theorem Writes.append {bs bs' : List UInt8} (hd : d.toInt + (bs.length + bs'.length) ≤ 0)
    (h : Writes m m' d bs) (h' : Writes m' m'' (d + (Int64.ofNat bs.length).toInt32) bs') :
    Writes m m'' d (bs ++ bs') := by
  have hlow := d.le_toInt
  have hstart := toInt_add_ofNat (d := d) (n := bs.length) (by omega)
  have hrbp : m'.reg .rbp = m.reg .rbp := h.regs .rbp (by decide) (by decide) (by decide)
  have haddr : addressOf m' (inFrame (d + (Int64.ofNat bs.length).toInt32)) =
      addressOf m (inFrame d) + UInt64.ofNat bs.length := by
    rw [addressOf_congr hrbp, ← shift_inFrame, addressOf_shift (by omega)]
  have hsize : bs.length + bs'.length < UInt64.size :=
    Nat.lt_of_le_of_lt (show _ ≤ 2147483648 by omega) (by decide)
  have hapart : Memory.Apart (addressOf m (inFrame d)) bs.length
      (addressOf m (inFrame d) + UInt64.ofNat bs.length) bs'.length := by
    rw [← addressOf_shift (by omega), shift_inFrame]
    exact apart_inFrame m (by omega) (by omega) (by omega)
  obtain ⟨hbytes', hothers', hregs'⟩ := h'
  rw [haddr] at hbytes' hothers'
  refine ⟨?_, fun x hx => ?_, fun r h₁ h₂ h₃ => (hregs' r h₁ h₂ h₃).trans (h.regs r h₁ h₂ h₃)⟩
  · have hkept : m''.mem.read (addressOf m (inFrame d)) bs.length = bs :=
      (Memory.read_congr fun i hi => hothers' _ (hapart _ (Memory.within_add hi (by omega)))).trans
        h.bytes
    rw [List.length_append, Memory.read_append, hkept, hbytes']
  · rw [List.length_append, Memory.within_split hsize, not_or] at hx
    exact (hothers' x hx.2).trans (h.others x hx.1)

theorem Writes.nil (m : Machine) (d : Int32) : Writes m m d [] :=
  ⟨rfl, fun _ _ => rfl, fun _ _ _ _ => rfl⟩

theorem Leaves.writes (hk : k.size ≤ 8) (h : Leaves m m' (inFrame d) k w) :
    Writes m m' d (leBytes k.size w) := by
  have hrbp : m'.reg .rbp = m.reg .rbp := h.regs .rbp (by decide) (by decide) (by decide)
  have hvalue : ofLeBytes (m'.mem.read (addressOf m (inFrame d)) k.size) = w := by
    rw [← addressOf_congr hrbp]
    exact h.value
  have hback := leBytes_ofLeBytes
    (show (m'.mem.read (addressOf m (inFrame d)) k.size).length ≤ 8 by rwa [Memory.length_read])
  rw [hvalue, Memory.length_read] at hback
  refine ⟨?_, ?_, h.regs⟩
  · rw [length_leBytes, hback]
  · rw [length_leBytes]
    exact h.others

/-- One lane among the bytes of all. -/
theorem read_lane {mem : Memory} {n i : Nat} {lanes : List UInt64} {x : UInt64}
    (h : mem.read x (lanes.length * n) = lanes.flatMap (leBytes n)) (hi : lanes[i]? = some w) :
    mem.read (x + UInt64.ofNat (i * n)) n = leBytes n w := by
  induction lanes generalizing x i with
  | nil => cases hi
  | cons a lanes ih =>
    rw [List.length_cons, Nat.succ_mul, Nat.add_comm, Memory.read_append, List.flatMap_cons] at h
    obtain ⟨hfirst, hrest⟩ := List.append_inj h (by rw [Memory.length_read, length_leBytes])
    cases i with
    | zero =>
      cases hi
      rwa [Nat.zero_mul, show UInt64.ofNat 0 = 0 from rfl, UInt64.add_zero]
    | succ i =>
      have hlane := ih hrest hi
      rwa [UInt64.add_assoc, ← UInt64.ofNat_add, Nat.add_comm n, ← Nat.succ_mul] at hlane

/-- Bytes of the frame away from those that were written. -/
theorem Writes.read_apart {bs : List UInt8} {n : Nat} (h : Writes m m' d bs)
    (hd : d.toInt + bs.length ≤ 0) (he : e.toInt + n ≤ 0)
    (hap : d.toInt + bs.length ≤ e.toInt ∨ e.toInt + n ≤ d.toInt) :
    m'.mem.read (addressOf m' (inFrame e)) n = m.mem.read (addressOf m (inFrame e)) n := by
  have hlow := e.le_toInt
  have hsize : n ≤ UInt64.size := Nat.le_trans (show n ≤ 2147483648 by omega) (by decide)
  rw [addressOf_congr (h.regs .rbp (by decide) (by decide) (by decide))]
  exact Memory.read_congr fun i hi => h.others _ fun hin =>
    apart_inFrame m hd he hap _ hin (Memory.within_add hi hsize)

/-! ## Lane by lane -/

theorem behind_skip {l : Label} {c : Code} (rest : Code) (h : l ∉ marks c) :
    behind l (c ++ rest) = behind l rest := by
  induction c with
  | nil => rfl
  | cons i c ih =>
    cases i with
    | instr i => exact ih h
    | mark k =>
      rw [marks_cons_mark, List.mem_cons, not_or] at h
      rw [List.cons_append, behind, if_neg (Ne.symm h.1), ih h.2]

theorem Resolved.split {prog c c' rest : Code} (h : Resolved prog (c ++ c') rest)
    (hnew : ∀ l ∈ marks c', l ∉ marks c) : Resolved prog c (c' ++ rest) ∧ Resolved prog c' rest := by
  constructor
  · intro l hl
    rw [h l (by rw [marks_append]; exact List.mem_append_left _ hl), List.append_assoc]
  · intro l hl
    rw [h l (by rw [marks_append]; exact List.mem_append_right _ hl), List.append_assoc,
      behind_skip _ (hnew l hl)]

theorem eachLane_succ {lane : Nat → Outcome Code} {n : Nat} {code code' : Code}
    (h : eachLane n lane = .ok code) (h' : lane n = .ok code') :
    eachLane (n + 1) lane = .ok (code ++ code') := by
  obtain ⟨parts, hparts, hflat⟩ := Outcome.bind_eq_ok.mp h
  obtain rfl := Except.ok.inj hflat
  rw [eachLane, List.range_succ, List.mapM_append, hparts, List.mapM_cons, h', List.mapM_nil]
  simp

/-- Lanes that follow each other, each from its own lane of the source. -/
theorem eachLane_spec {lane : Nat → Outcome Code} {lanes results : List UInt64} {base : Int}
    (hlen : lanes.length = results.length) (hs : s.size ≠ 0)
    (hcanon : ∀ a ∈ lanes, s.canon a = a)
    (hlane : ∀ i a w, lanes[i]? = some a → results[i]? = some w →
      Turns (lane i) (laneOf e s i) s a (laneOf d t i) t w)
    (hmarks : ∀ i code, lane i = .ok code → ∀ l : Int, l ∈ marks code →
      l = base + 2 * i ∨ l = base + 2 * i + 1)
    (hd : d.toInt + (results.length * t.size : Nat) ≤ 0)
    (he : e.toInt + (lanes.length * s.size : Nat) ≤ 0)
    (hap : d.toInt + (results.length * t.size : Nat) ≤ e.toInt ∨
      e.toInt + (lanes.length * s.size : Nat) ≤ d.toInt) {n : Nat} (hn : n ≤ results.length) :
    ∃ code, eachLane n lane = .ok code ∧ (∀ l : Int, l ∈ marks code → l < base + 2 * n) ∧
      ∀ prog rest m, Resolved prog code rest →
        m.mem.read (addressOf m (inFrame e)) (lanes.length * s.size) = lanes.flatMap (leBytes s.size) →
        ∃ m', Runs prog (code ++ rest) m rest m' ∧
          Writes m m' d ((results.take n).flatMap (leBytes t.size)) := by
  induction n with
  | zero =>
    exact ⟨[], rfl, ⟨fun l hl => (List.not_mem_nil hl).elim,
      fun prog rest m _ _ => ⟨m, .refl, .nil m d⟩⟩⟩
  | succ n ih =>
    obtain ⟨code, hcode, hbelow, hrun⟩ := ih (Nat.le_of_succ_le hn)
    obtain ⟨w, hw⟩ : ∃ w, results[n]? = some w := ⟨_, List.getElem?_eq_getElem hn⟩
    obtain ⟨a, ha⟩ : ∃ a, lanes[n]? = some a := ⟨_, List.getElem?_eq_getElem (hlen ▸ hn)⟩
    obtain ⟨code', hcode', hrun'⟩ := hlane n a w ha hw
    have hlabel : ∀ l : Int, l ∈ marks code' → base + 2 * n ≤ l ∧ l < base + 2 * (n + 1 : Nat) := by
      intro l hl
      have := hmarks n code' hcode' l hl
      omega
    refine ⟨code ++ code', eachLane_succ hcode hcode', fun (l : Int) hl => ?_,
      fun prog rest m hres hm => ?_⟩
    · rw [marks_append, List.mem_append] at hl
      rcases hl with hl | hl
      · have := hbelow l hl
        omega
      · exact (hlabel l hl).2
    · obtain ⟨hres₁, hres₂⟩ := hres.split fun (l : Int) hl hl' => by
        have := hbelow l hl'
        have := hlabel l hl
        omega
      obtain ⟨m₁, hrun₁, hwrites⟩ := hrun prog (code' ++ rest) m hres₁ hm
      have hbytes : ((results.take n).flatMap (leBytes t.size)).length = n * t.size := by
        rw [length_bytes, List.length_take, Nat.min_eq_left (Nat.le_of_succ_le hn)]
      have hpart : n * t.size + t.size ≤ results.length * t.size := by
        rw [← Nat.succ_mul]
        exact Nat.mul_le_mul_right _ hn
      have hpart' : n * s.size + s.size ≤ lanes.length * s.size := by
        rw [← Nat.succ_mul]
        exact Nat.mul_le_mul_right _ (hlen ▸ hn)
      -- the lane that is read next is still what it was
      have hsource : Holds m₁ (laneOf e s n) s a := by
        have hkept := hwrites.read_apart (e := e) (n := lanes.length * s.size)
          (by omega) he (by omega)
        have hread := read_lane (hkept.trans hm) ha
        rw [Holds, laneOf, addressOf_shift (by omega), Memory.readWord, hread]
        exact ofLeBytes_of_canon hs (hcanon a (List.mem_of_getElem? ha))
      obtain ⟨m₂, hrun₂, hleaves⟩ := hrun' prog rest m₁ hres₂ hsource
      rw [laneOf, shift_inFrame] at hleaves
      have hnext := hleaves.writes (Kind.size_le t)
      rw [← hbytes] at hnext
      refine ⟨m₂, ?_, ?_⟩
      · rw [List.append_assoc]
        exact hrun₁.trans hrun₂
      · rw [List.take_add_one, hw, Option.toList_some, List.flatMap_append, List.flatMap_cons,
          List.flatMap_nil, List.append_nil]
        exact hwrites.append (by rw [hbytes, length_leBytes]; omega) hnext

/-! ## Sixteen bytes at once -/

/-- Four lanes of 32 bits in a vector register. -/
theorem lanes_ofBytes {lanes : List UInt64} (hk : k.size = 4) (hlen : lanes.length = 4)
    (h : ∀ a ∈ lanes, ofLeBytes (leBytes 4 a) = a) :
    (Xmm.ofBytes (lanes.flatMap (leBytes 4))).lanes k = lanes := by
  rw [Xmm.lanes, bytes_ofBytes (by rw [length_bytes, hlen]), hk]
  obtain ⟨a₀, _, rfl⟩ := List.exists_cons_of_length_eq_add_one hlen
  obtain ⟨a₁, _, rfl⟩ := List.exists_cons_of_length_eq_add_one (Nat.succ.inj hlen)
  obtain ⟨a₂, _, rfl⟩ := List.exists_cons_of_length_eq_add_one (Nat.succ.inj (Nat.succ.inj hlen))
  obtain ⟨a₃, rfl⟩ := List.length_eq_one_iff.mp (Nat.succ.inj (Nat.succ.inj (Nat.succ.inj hlen)))
  change [a₀, a₁, a₂, a₃].map (fun a => ofLeBytes (leBytes 4 a)) = [a₀, a₁, a₂, a₃]
  exact (List.map_congr_left h).trans (List.map_id _)

/-- An instruction on all lanes of a vector register. -/
theorem packed_spec {i : SseOp} {g : UInt64 → UInt64} {lanes : List UInt64} (hk : k.size = 4)
    (hi : ∀ m : Machine, m.sse i.code 0 0 none = .ok (m.setXmm 0 ((m.xmm 0).map k g)))
    (hlen : lanes.length = 4) (hcanon : ∀ a ∈ lanes, k.canon a = a)
    (hm : m.mem.read (addressOf m (inFrame e)) 16 = lanes.flatMap (leBytes 4)) :
    ∃ m', execAll [.movdquLoad 0 (inFrame e), vector i 0 0, .movdquStore (inFrame d) 0] m = .ok m' ∧
      Writes m m' d ((lanes.map g).flatMap (leBytes 4)) := by
  have hfit : ∀ a ∈ lanes, ofLeBytes (leBytes 4 a) = a := fun a ha =>
    hk ▸ ofLeBytes_of_canon (hk ▸ by decide) (hcanon a ha)
  have hbytes : ((lanes.map g).flatMap (leBytes 4)).length = 16 := by
    rw [length_bytes, List.length_map, hlen]
  -- the register holds the lanes, and after the instruction their images
  obtain ⟨m₁, hrun₁, hxmm, hregs₁, hmem₁⟩ : ∃ m₁,
      execAll [.movdquLoad 0 (inFrame e), vector i 0 0] m = .ok m₁ ∧
      (m₁.xmm 0).bytes = (lanes.map g).flatMap (leBytes 4) ∧ m₁.regs = m.regs ∧ m₁.mem = m.mem := by
    have hload : execAll [.movdquLoad 0 (inFrame e)] m =
        .ok (m.setXmm 0 (m.loadX (addressOf m (inFrame e)))) := rfl
    have happly : ∀ m : Machine, execAll [vector i 0 0] m =
        .ok (m.setXmm 0 ((m.xmm 0).map k g)) := fun m => execAll_one.trans (hi m)
    refine ⟨_, (execAll_append hload).trans (happly _), ?_, rfl, rfl⟩
    rw [Machine.xmm_setXmm_self, Machine.xmm_setXmm_self, Machine.loadX, hm, Xmm.map, Xmm.ofLanes,
      lanes_ofBytes hk hlen hfit, hk, bytes_ofBytes hbytes]
  have hrbp : m₁.reg .rbp = m.reg .rbp := by rw [Machine.reg, Machine.reg, hregs₁]
  have hstore : execAll [.movdquStore (inFrame d) 0] m₁ =
      .ok (m₁.storeX (addressOf m₁ (inFrame d)) (m₁.xmm 0)) := rfl
  rw [addressOf_congr hrbp] at hstore
  have hsize : ((lanes.map g).flatMap (leBytes 4)).length ≤ UInt64.size := by
    rw [hbytes]
    decide
  refine ⟨_, (execAll_append hrun₁).trans hstore, ?_, fun x hx => ?_, fun r _ _ _ => ?_⟩
  · rw [Machine.mem_storeX, hxmm]
    exact Memory.read_write hsize _ _
  · rw [Machine.mem_storeX, hxmm, Memory.get_write_of_not_within hsize hx, hmem₁]
  · rw [Machine.reg_storeX, Machine.reg, Machine.reg, hregs₁]

/-- Does a single lose nothing in 32 bits but its fraction? -/
def InRange (x : Single) : Prop := -2147483648 ≤ x.truncate ∧ x.truncate < 2147483648

instance (x : Single) : Decidable (InRange x) := inferInstanceAs (Decidable (_ ∧ _))

theorem truncateTo_of_inRange {x : Single} (hfits : x.fits 63 = true) (h : InRange x) :
    Kind.i32.canon (truncateTo 32 x) = Kind.i32.canon (Int64.ofInt x.truncate).toUInt64 := by
  unfold truncateTo
  split
  · rfl
  · next hbig =>
    -- only the least number of 32 bits is in range and does not fit
    have hone : 0 < Single.one := by rw [Single.one_eq]; exact Nat.two_pow_pos 149
    have hunits : 2147483648 ≤ x.units / Single.one := by
      rw [Nat.le_div_iff_mul_le hone]
      simp only [Single.fits, Bool.and_eq_true, decide_eq_true_eq] at hfits hbig
      have hle := Nat.le_of_not_lt fun hlt => hbig ⟨hfits.1, hlt⟩
      rwa [Nat.shiftLeft_eq, Nat.mul_comm] at hle
    have hmin : x.truncate = -2147483648 := by
      obtain ⟨hlow, hhigh⟩ := h
      unfold Single.truncate at hlow hhigh ⊢
      dsimp only at hlow hhigh ⊢
      split at hlow
      · next hneg => rw [if_pos hneg]; omega
      · next hneg => rw [if_neg hneg] at hhigh; omega
    rw [hmin]
    rfl

/-! ## Conversions of values -/

theorem forall₂_perLane {g : Nat → Outcome (Option UInt64)} {l : List Nat} {rs : List UInt64}
    (h : Operation.perLane g l = .ok (some rs)) :
    List.Forall₂ (fun i r => g i = .ok (some r)) l rs := by
  induction l generalizing rs with
  | nil =>
    cases h
    exact .nil
  | cons i l ih =>
    obtain ⟨x, hx, h⟩ := Outcome.bind_eq_ok.mp h
    cases x with
    | none => cases h
    | some r =>
      obtain ⟨rest, hrest, h⟩ := Outcome.bind_eq_ok.mp h
      obtain ⟨rs', rfl, rfl⟩ := Option.map_eq_some_iff.mp (Except.ok.inj h)
      exact .cons hx (ih hrest)

/-- The kinds of the lanes that the verifier admits. -/
theorem converts_of_castRule {source target : Ty} (hop : op.isCast = true) (hne : op ≠ .bitcast)
    (h : Func.castRule? op source target = none) :
    source.numLanes = target.numLanes ∧ Converts op source.elemKind target.elemKind := by
  unfold Func.castRule? at h
  rw [if_neg hne] at h
  split at h
  · cases h
  · next hlanes =>
    refine ⟨Classical.not_not.mp hlanes, ?_⟩
    cases op <;> simp_all [Op.isCast, Converts, InReg]

theorem size_of_castRule {source target : Ty} (h : Func.castRule? .bitcast source target = none) :
    source.size = target.size := by
  by_contra hne
  simp [Func.castRule?, hne] at h

/-- Does the code of a conversion leave what folding says? Four floats are converted at once only to
32 bits, and bytes that are taken for bits are not cut. -/
def Exact (op : Op) (source target : Ty) (lanes : List UInt64) : Prop :=
  (op = .fptosi → source = .v4f32 → target = .v4i32 → ∀ a ∈ lanes, InRange (.ofWord a)) ∧
  (op = .bitcast → target.elemKind = .i1 →
    ∀ b ∈ lanes.flatMap (leBytes source.elemKind.size), b.toNat < 2)

section value

variable {c : Context} {v u : ValueId} {x : Value} {o : Operation} {ls : Labels}
  {lanes results : List UInt64}

theorem operation_eq (harg : x.args = [.value u]) (ho : c.func.operation x = .ok o) :
    o = ⟨x.op, x.type, x.aux, x.mask.getD [], [(c.func.value u).type]⟩ := by
  rw [Func.operation, harg] at ho
  exact (Except.ok.inj ho).symm

/-- Folding a conversion that is no reinterpretation, lane by lane. -/
theorem fold_conversion (hop : x.op.isCast = true) (hne : x.op ≠ .bitcast) (harg : x.args = [.value u])
    (ho : c.func.operation x = .ok o) (hfold : o.fold [lanes] = .ok (some results)) :
    results.length = x.type.numLanes ∧ ∀ (i : Nat) a w, lanes[i]? = some a → results[i]? = some w →
      evalCast x.op (c.func.value u).type.elemKind x.type.elemKind a = some w := by
  obtain rfl := operation_eq harg ho
  have hlanes : Operation.perLane (fun i => do
      return evalCast x.op (c.func.value u).type.elemKind x.type.elemKind (← .at? lanes i))
      (List.range x.type.numLanes) = .ok (some results) := by
    unfold Operation.fold at hfold
    revert hop hne hfold
    cases x.op <;> intro hop hne hfold <;> first
      | exact hfold
      | exact absurd hop Bool.false_ne_true
      | exact absurd rfl hne
  have hall := forall₂_perLane hlanes
  refine ⟨hall.length_eq.symm.trans List.length_range, fun i a w ha hw => ?_⟩
  have hi : i < x.type.numLanes := by
    rw [← List.length_range (n := x.type.numLanes), hall.length_eq]
    exact (List.getElem?_eq_some_iff.mp hw).1
  obtain ⟨hlt, rfl⟩ := List.getElem?_eq_some_iff.mp hw
  have hlane := hall.get (i := i) (by rwa [List.length_range]) hlt
  simp only [List.get_eq_getElem, List.getElem_range, Outcome.at?_eq_ok.mpr ha] at hlane
  exact Except.ok.inj hlane

/-- The slots of a value and of its operand lie in the frame and do not meet. -/
structure Separate (c : Context) (v u : ValueId) (n k : Nat) : Prop where
  target : (c.frame.slots.getD v 0).toInt + n ≤ 0
  source : (c.frame.slots.getD u 0).toInt + k ≤ 0
  apart : (c.frame.slots.getD v 0).toInt + n ≤ (c.frame.slots.getD u 0).toInt ∨
    (c.frame.slots.getD u 0).toInt + k ≤ (c.frame.slots.getD v 0).toInt

/-- The code of a value, as far as it concerns one operand: with the bytes of the operand's lanes in
its slot, other bytes come to be in the value's. -/
def Computed (c : Context) (v u : ValueId) (lanes : List UInt64) (bs : List UInt8) (code : Code) :
    Prop :=
  ∀ prog rest m, Resolved prog code rest →
    m.mem.read (addressOf m (c.home u)) (c.func.value u).type.size =
      lanes.flatMap (leBytes (c.func.value u).type.elemKind.size) →
    ∃ m', Runs prog (code ++ rest) m rest m' ∧ Writes m m' (c.frame.slots.getD v 0) bs

theorem computed_bitcast (ls : Labels) (hbitcast : x.op = .bitcast) (harg : x.args = [.value u])
    (hrule : Func.castRule? x.op (c.func.value u).type x.type = none)
    (hlen : lanes.length = (c.func.value u).type.numLanes) (ho : c.func.operation x = .ok o)
    (hfold : o.fold [lanes] = .ok (some results))
    (hexact : Exact x.op (c.func.value u).type x.type lanes)
    (hslots : Separate c v u x.type.size (c.func.value u).type.size) :
    results.length = x.type.numLanes ∧ ∃ code, c.value v x ls = .ok (code, ls) ∧
      Computed c v u lanes (results.flatMap (leBytes x.type.elemKind.size)) code := by
  obtain rfl := operation_eq harg ho
  have hsize := size_of_castRule (hbitcast ▸ hrule)
  have hbuf : (lanes.flatMap (leBytes (c.func.value u).type.elemKind.size)).length = x.type.size := by
    rw [length_bytes, hlen, ← hsize, Ty.size]
  -- the lanes are read from the operand's bytes, so they have the same
  have hread : readLanes x.type.elemKind x.type.elemKind.size x.type.numLanes
      (lanes.flatMap (leBytes (c.func.value u).type.elemKind.size)) = .ok results := by
    have hbytes := bytesOfLanes_eq hlen
    rw [hbitcast] at hfold
    obtain ⟨r, hr, heq⟩ := Outcome.map_eq_ok.mp hfold
    have hr : (bytesOfLanes (c.func.value u).type lanes >>= lanesOfBytes x.type) = .ok r := hr
    rw [hbytes] at hr
    rw [← Option.some.inj heq]
    exact hr
  obtain ⟨hn, hsame⟩ := bytes_of_readLanes (hexact.2 hbitcast) hbuf hread
  refine ⟨hn, copy (c.home v) (c.home u) x.type.size, ?_, fun prog rest m _ hm => ?_⟩
  · simp only [Context.value, Context.plain, hbitcast, harg]
    rfl
  · rw [hsame]
    obtain ⟨is, hcode, m', hrun, hcopies⟩ := copy_spec hslots.target (hsize ▸ hslots.source)
      (hsize ▸ hslots.apart) m
    have hlow := (c.frame.slots.getD v 0).le_toInt
    have hfits : x.type.size ≤ UInt64.size :=
      Nat.le_trans (show _ ≤ 2147483648 by have := hslots.target; omega) (by decide)
    refine ⟨m', ?_, ?_, ?_, fun r _ hr _ => hcopies.regs r hr⟩
    · rw [Context.home, Context.home, hcode]
      exact runs_straight hrun
    · rw [hbuf, hcopies.read hfits, ← hsize]
      exact hm
    · rw [hbuf]
      exact fun y hy => hcopies.get hfits hy

/-- Lanes that have the same bytes one by one have the same bytes. -/
theorem bytes_congr {n : Nat} {g : UInt64 → UInt64} (hlen : lanes.length = results.length)
    (h : ∀ (i : Nat) a w, lanes[i]? = some a → results[i]? = some w → leBytes n (g a) = leBytes n w) :
    (lanes.map g).flatMap (leBytes n) = results.flatMap (leBytes n) := by
  rw [List.flatMap_map]
  have hmap : lanes.map (fun a => leBytes n (g a)) = results.map (leBytes n) := by
    refine List.ext_getElem (by rw [List.length_map, List.length_map, hlen]) fun i hi hi' => ?_
    rw [List.getElem_map, List.getElem_map]
    exact h i _ _ (List.getElem?_eq_getElem _) (List.getElem?_eq_getElem _)
  rw [List.flatMap_def, List.flatMap_def, hmap]

/-- The conversions that take sixteen bytes at once. -/
theorem computed_packed {i : SseOp} {g : UInt64 → UInt64} {r t : Ty}
    (hsource : (c.func.value u).type = r) (htarget : x.type = t) (hk : r.elemKind.size = 4)
    (hsize : r.size = 16) (hk' : t.elemKind.size = 4)
    (hi : ∀ m : Machine, m.sse i.code 0 0 none = .ok (m.setXmm 0 ((m.xmm 0).map r.elemKind g)))
    (hlen : lanes.length = 4) (hlen' : lanes.length = results.length)
    (hcanon : ∀ a ∈ lanes, r.elemKind.canon a = a)
    (hlane : ∀ (j : Nat) a w, lanes[j]? = some a → results[j]? = some w → leBytes 4 (g a) = leBytes 4 w) :
    Computed c v u lanes (results.flatMap (leBytes x.type.elemKind.size))
      (straight [.movdquLoad 0 (c.home u), vector i 0 0, .movdquStore (c.home v) 0]) := by
  intro prog rest m _ hm
  rw [hsource, hk, hsize] at hm
  obtain ⟨m', hrun, hwrites⟩ := packed_spec (d := c.frame.slots.getD v 0) hk hi hlen hcanon hm
  rw [bytes_congr hlen' hlane] at hwrites
  rw [htarget, hk']
  exact ⟨m', runs_straight hrun, hwrites⟩

theorem conversion_packed {code : Code} (harg : x.args = [.value u])
    (h : vectorCast x.op (c.func.value u).type x.type (c.home v) (c.home u) = some code) :
    c.conversion v x ls = .ok (code, ls) := by
  have harg0 : c.func.argument x 0 = .ok (c.func.value u) := by rw [Func.argument, harg]; rfl
  have hplace : Outcome.at? x.args 0 = .ok (.value u) := by rw [harg]; rfl
  simp only [Context.conversion, harg0, hplace, Outcome.ok_bind]
  rw [Context.slot, h]
  rfl

theorem conversion_lanes {code : Code} (harg : x.args = [.value u])
    (h : vectorCast x.op (c.func.value u).type x.type (c.home v) (c.home u) = none)
    (hcode : eachLane x.type.numLanes (fun i =>
      cast x.op (c.func.value u).type.elemKind x.type.elemKind
        (shift (c.home v) (i * x.type.elemKind.size))
        (shift (c.home u) (i * (c.func.value u).type.elemKind.size))
        (ls.next + 2 * i) (ls.next + 2 * i + 1)) = .ok code) :
    c.conversion v x ls = .ok (code, { ls with next := ls.next + 2 * x.type.numLanes }) := by
  have harg0 : c.func.argument x 0 = .ok (c.func.value u) := by rw [Func.argument, harg]; rfl
  have hplace : Outcome.at? x.args 0 = .ok (.value u) := by rw [harg]; rfl
  simp only [Context.conversion, harg0, hplace, Outcome.ok_bind]
  rw [Context.slot, h]
  exact Outcome.bind_eq_ok.mpr ⟨code, hcode, rfl⟩

theorem computed_conversion (ls : Labels) (hop : x.op.isCast = true) (hne : x.op ≠ .bitcast)
    (harg : x.args = [.value u]) (hrule : Func.castRule? x.op (c.func.value u).type x.type = none)
    (hlen : lanes.length = (c.func.value u).type.numLanes)
    (hcanon : ∀ a ∈ lanes, (c.func.value u).type.elemKind.canon a = a)
    (ho : c.func.operation x = .ok o) (hfold : o.fold [lanes] = .ok (some results))
    (hexact : Exact x.op (c.func.value u).type x.type lanes)
    (hslots : Separate c v u x.type.size (c.func.value u).type.size) :
    results.length = x.type.numLanes ∧ ∃ code ls', c.conversion v x ls = .ok (code, ls') ∧
      Computed c v u lanes (results.flatMap (leBytes x.type.elemKind.size)) code := by
  obtain ⟨hlanes, hkinds⟩ := converts_of_castRule hop hne hrule
  obtain ⟨hlen', heval⟩ := fold_conversion hop hne harg ho hfold
  refine ⟨hlen', ?_⟩
  by_cases hfloat : x.op = .sitofp ∧ (c.func.value u).type = .v4i32 ∧ x.type = .v4f32
  · obtain ⟨hsitofp, hsource, htarget⟩ := hfloat
    refine ⟨_, ls, conversion_packed harg (if_pos ⟨hsitofp, hsource, htarget⟩),
      computed_packed hsource htarget rfl rfl rfl (fun m => Machine.sse_of_apply (by decide) rfl)
        (by rw [hlen, hsource]; rfl) (by rw [hlen', hlen, hlanes])
        (fun a ha => hsource ▸ hcanon a ha) fun j a w ha hw => ?_⟩
    have hval := heval j a w ha hw
    rw [hsitofp, hsource] at hval
    exact congrArg (leBytes 4) (Option.some.inj hval)
  by_cases hint : x.op = .fptosi ∧ (c.func.value u).type = .v4f32 ∧ x.type = .v4i32
  · obtain ⟨hfptosi, hsource, htarget⟩ := hint
    refine ⟨_, ls, conversion_packed harg ((if_neg hfloat).trans (if_pos ⟨hfptosi, hsource, htarget⟩)),
      computed_packed hsource htarget rfl rfl rfl (fun m => Machine.sse_of_apply (by decide) rfl)
        (by rw [hlen, hsource]; rfl) (by rw [hlen', hlen, hlanes])
        (fun a ha => hsource ▸ hcanon a ha) fun j a w ha hw => ?_⟩
    have hval := heval j a w ha hw
    have hrange := hexact.1 hfptosi hsource htarget a (List.mem_of_getElem? ha)
    rw [hfptosi, htarget] at hval
    simp only [evalCast] at hval
    split at hval
    · next hfits =>
      rw [← Option.some.inj hval, show Ty.v4i32.elemKind = .i32 from rfl,
        ← truncateTo_of_inRange hfits hrange]
      exact (leBytes_canon (k := .i32) (by decide) (by decide) _).symm
    · cases hval
  obtain ⟨code, hlanes', -, hrun⟩ := eachLane_spec (n := x.type.numLanes)
    (d := c.frame.slots.getD v 0) (e := c.frame.slots.getD u 0)
    (hlen.trans (hlanes.trans hlen'.symm)) hkinds.size_ne_zero hcanon
    (fun i a w ha hw => cast_spec hkinds (hcanon a (List.mem_of_getElem? ha)) (heval i a w ha hw) _ _
      (Int.ne_of_gt (Int.lt_succ _)))
    (fun i code hcode l hl => marks_cast hcode l hl)
    (by rw [hlen']; exact hslots.target) (by rw [hlen]; exact hslots.source)
    (by rw [hlen', hlen]; exact hslots.apart) (Nat.le_of_eq hlen'.symm)
  refine ⟨code, _, conversion_lanes harg ((if_neg hfloat).trans (if_neg hint)) hlanes',
    fun prog rest m hres hm => ?_⟩
  obtain ⟨m', hruns, hwrites⟩ := hrun prog rest m hres (by rw [hlen]; exact hm)
  refine ⟨m', hruns, ?_⟩
  rwa [← hlen', List.take_length] at hwrites

/-- The code of a conversion leaves the bytes of the folded lanes in the value's slot, and changes
nothing else in memory, wherever the two are exact. -/
theorem cast_code_agrees (hop : x.op.isCast = true) (harg : x.args = [.value u])
    (hrule : Func.castRule? x.op (c.func.value u).type x.type = none)
    (hlen : lanes.length = (c.func.value u).type.numLanes)
    (hcanon : ∀ a ∈ lanes, (c.func.value u).type.elemKind.canon a = a)
    (ho : c.func.operation x = .ok o) (hfold : o.fold [lanes] = .ok (some results))
    (hexact : Exact x.op (c.func.value u).type x.type lanes)
    (hslots : Separate c v u x.type.size (c.func.value u).type.size) :
    ∃ code ls' bs, c.value v x ls = .ok (code, ls') ∧ bytesOfLanes x.type results = .ok bs ∧
      ∀ pre rest m, (∀ l ∈ marks pre, l < ls.next) →
        bytesOfLanes (c.func.value u).type lanes =
          .ok (m.mem.read (addressOf m (c.home u)) (c.func.value u).type.size) →
        ∃ m', Runs (pre ++ (code ++ rest)) (code ++ rest) m rest m' ∧
          Writes m m' (c.frame.slots.getD v 0) bs := by
  have hcode : results.length = x.type.numLanes ∧ ∃ code ls', c.value v x ls = .ok (code, ls') ∧
      Computed c v u lanes (results.flatMap (leBytes x.type.elemKind.size)) code := by
    by_cases hbitcast : x.op = .bitcast
    · obtain ⟨hn, code, hcode, hrun⟩ :=
        computed_bitcast ls hbitcast harg hrule hlen ho hfold hexact hslots
      exact ⟨hn, code, ls, hcode, hrun⟩
    · obtain ⟨hn, code, ls', hcode, hrun⟩ := computed_conversion ls hop hbitcast harg hrule
        hlen hcanon ho hfold hexact hslots
      refine ⟨hn, code, ls', ?_, hrun⟩
      have hglobal : x.op ≠ .globalAddr := fun h => by rw [h] at hop; cases hop
      rw [Context.value, if_neg hglobal, if_pos ⟨hop, hbitcast⟩, hcode]
  obtain ⟨hn, code, ls', hcode, hrun⟩ := hcode
  refine ⟨code, ls', _, hcode, ?_, fun pre rest m hpre hm => hrun _ rest m (fun l hl => ?_) ?_⟩
  · rw [bytesOfLanes, if_neg (by omega), ← hn, List.take_length]
  · -- labels of this code are not among those that were bound before
    have hfresh := (fresh_value c v x ls code ls' hcode).2 l hl
    exact behind_skip _ fun hl' => absurd (hpre l hl') (Int.not_lt.mpr hfresh)
  · rw [bytesOfLanes, if_neg (by omega), ← hlen, List.take_length] at hm
    rw [← Except.ok.inj hm]

end value

/-- A byte made into a word. -/
def widening : Func where
  name := "widen"
  ret := .i64
  params := [.i8]
  values := #[
    { op := .param, type := .i8, block := some 0 },
    { op := .sext, type := .i64, block := some 0, args := [.value 0] }]
  blocks := #[{ values := [0, 1], kind := .ret, control := .value 1 }]
  layout := [0]
  paramValues := [0]

/-- A frame at 4096 with the least signed byte in its first slot. -/
def byteAt : Machine :=
  ({ mem := ({} : Memory).write 4088 [0x80] } : Machine).setReg .rbp 4096

/-- The sign of the byte fills the word. -/
theorem cast_code_agrees_widening : ∃ code ls' m',
    Context.value ⟨widening, .ofFunc widening, {}⟩ 1 (widening.value 1) ⟨0, []⟩ = .ok (code, ls') ∧
    Runs code code byteAt [] m' ∧ Writes byteAt m' (-16) (leBytes 8 0xFFFFFFFFFFFFFF80) := by
  obtain ⟨code, ls', bs, hcode, hbs, hrun⟩ := @cast_code_agrees ⟨widening, .ofFunc widening, {}⟩ 1 0
    (widening.value 1) _ ⟨0, []⟩ [0x80] [0xFFFFFFFFFFFFFF80] rfl rfl rfl rfl
    (List.forall_mem_singleton.mpr rfl) rfl rfl ⟨fun h => (nomatch h), fun h => (nomatch h)⟩
    ⟨by decide, by decide, by decide⟩
  have hrbp : byteAt.reg .rbp = 4096 := Machine.reg_setReg_self _ _ _
  have haddr : addressOf byteAt (Context.home ⟨widening, .ofFunc widening, {}⟩ 0) = 4088 := by
    rw [Context.home, addressOf_inFrame, hrbp]
    rfl
  have hread : byteAt.mem.read 4088 1 = [0x80] := Memory.read_write (by decide) {} 4088
  obtain ⟨m', hruns, hwrites⟩ := hrun [] [] byteAt (fun l hl => by cases hl) (by
    rw [haddr, show (widening.value 0).type.size = 1 from rfl, hread]
    rfl)
  cases hbs
  rw [List.nil_append, List.append_nil] at hruns
  exact ⟨code, ls', m', hcode, hruns, hwrites⟩

end SsaJit.Lower
