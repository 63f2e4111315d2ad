import SsaJit.Proofs.Bytes
import SsaJit.Proofs.Lower.Copy

/-! Integer arithmetic and comparison in machine code. The code of a lane loads its operands, extended
to 64 bits as the operation asks for, computes, and stores the result in the lane's own width. What it
stores is what `evalBinary` and `compareInt` say, it stops at a division exactly where these have no
value, and it touches no memory but the lane. -/

namespace SsaJit.Lower

open X86

variable {k : Kind} {a b w : UInt64} {m m' m'' : Machine} {r : Reg} {d : Int32}

/-! ## Places -/

/-- The lane of kind `k` at a place holds a pattern. -/
def Holds (m : Machine) (p : Place) (k : Kind) (w : UInt64) : Prop :=
  m.mem.readWord (addressOf m p) k.size = w

/-- Kinds that general registers hold. -/
def InReg (k : Kind) : Prop := k.isInt = true ∨ k = .ptr

theorem InReg.size (h : InReg k) : k.size = 1 ∨ k.size = 2 ∨ k.size = 4 ∨ k.size = 8 := by
  rcases h with h | rfl
  · cases k <;> simp_all [Kind.isInt, Kind.size]
  · simp [Kind.size]

/-! ## Loading -/

/-- The machine with another word in one register, and perhaps other flags. -/
structure Sets (m m' : Machine) (r : Reg) (w : UInt64) : Prop where
  value : m'.reg r = w
  others : ∀ s, s ≠ r → m'.reg s = m.reg s
  xmm : ∀ x, m'.xmm x = m.xmm x
  mem : m'.mem = m.mem

theorem Sets.of_setReg (m : Machine) (r : Reg) (w : UInt64) : Sets m (m.setReg r w) r w :=
  ⟨m.reg_setReg_self r w, fun _ h => m.reg_setReg_ne w h.symm, fun _ => rfl, rfl⟩

theorem Sets.trans {w' : UInt64} (h : Sets m m' r w) (h' : Sets m' m'' r w') : Sets m m'' r w' :=
  ⟨h'.value, fun s hs => (h'.others s hs).trans (h.others s hs), fun x => (h'.xmm x).trans (h.xmm x),
    h'.mem.trans h.mem⟩

theorem Sets.addressOf (h : Sets m m' r w) (hr : r ≠ .rbp) :
    addressOf m' (inFrame d) = addressOf m (inFrame d) := by
  rw [addressOf_inFrame, addressOf_inFrame, h.others .rbp hr.symm]

theorem Sets.holds (h : Sets m m' r w) (hr : r ≠ .rbp) (hm : Holds m (inFrame d) k a) :
    Holds m' (inFrame d) k a := by
  rw [Holds, h.addressOf hr, h.mem]
  exact hm

/-- What a register holds after loading a lane. -/
def extended (k : Kind) (signed : Bool) (w : UInt64) : UInt64 :=
  if signed then (k.signExtend w).toUInt64 else w

/-- The instruction that loads a lane, but for the sign of a bit. -/
theorem Machine.load_extended {acc : Access} {signed : Bool} (hk : InReg k)
    (hacc : Access.ofSize k.size signed = .ok acc) (h1 : k ≠ .i1) (x : UInt64)
    (hx : m.mem.readWord x k.size = a) : m.load x acc = extended k signed a := by
  subst hx
  cases k with
  | i1 => exact absurd rfl h1
  | i8 | i16 | i32 =>
    cases signed <;> cases hacc <;> rfl
  | i64 | ptr =>
    cases signed <;> cases hacc <;> simp [Machine.load, extended, Kind.signExtend, Kind.size]
  | void | f32 | vector | other => simp [InReg, Kind.isInt] at hk

theorem signExtend_bit (ha : Kind.i1.canon a = a) :
    0 - (Kind.i8.signExtend a).toUInt64 = (Kind.i1.signExtend a).toUInt64 := by
  have hlt : a.toNat < 2 := Kind.and_mask_toNat (n := 1) (by decide) ha
  have hcase : a = 0 ∨ a = 1 := by
    rcases Nat.lt_or_ge a.toNat 1 with h | h
    · exact .inl (UInt64.toNat.inj (by simpa using h))
    · exact .inr (UInt64.toNat.inj (show a.toNat = 1 by omega))
  rcases hcase with rfl | rfl <;> decide

theorem neg_spec (m : Machine) (r : Reg) :
    ∃ m', execAll [.unary .neg r] m = .ok m' ∧ Sets m m' r (0 - m.reg r) :=
  ⟨{ m.setReg r (0 - m.reg r) with flags := .ofSub 0 (m.reg r) }, rfl,
    m.reg_setReg_self r _, fun _ hs => m.reg_setReg_ne _ hs.symm, fun _ => rfl, rfl⟩

theorem loadInt_spec (hk : InReg k) (r : Reg) (d : Int32) (signed : Bool) (ha : k.canon a = a) :
    ∃ is, loadInt r (inFrame d) k signed = .ok (straight is) ∧ (∀ i ∈ is, i.isInline = true) ∧
      ∀ m, Holds m (inFrame d) k a →
        ∃ m', execAll is m = .ok m' ∧ Sets m m' r (extended k signed a) := by
  obtain ⟨acc, hacc⟩ : ∃ acc, Access.ofSize k.size signed = .ok acc := by
    rcases hk.size with h | h | h | h <;> rw [h] <;> exact ⟨_, rfl⟩
  refine ⟨.load r (inFrame d) acc :: if k = .i1 ∧ signed then [.unary .neg r] else [], ?_, ?_, ?_⟩
  · rw [loadInt, hacc]
    rfl
  · intro i hi
    rcases List.mem_cons.mp hi with rfl | hi
    · rfl
    · split at hi
      · obtain rfl := List.mem_singleton.mp hi
        rfl
      · cases hi
  · intro m hm
    have hstep : m.inline (.load r (inFrame d) acc) =
        .ok (m.setReg r (m.load (addressOf m (inFrame d)) acc)) := rfl
    by_cases h1 : k = .i1
    · subst h1
      cases signed with
      | false =>
        obtain rfl : Access.u8 = acc := by cases hacc; rfl
        have hval : m.load (addressOf m (inFrame d)) .u8 = a := hm
        exact ⟨m.setReg r a, by rw [execAll_cons, hstep, hval]; rfl, .of_setReg m r a⟩
      | true =>
        -- the byte is read as signed, which leaves 0 or 1, and then negated
        obtain rfl : Access.s8 = acc := by cases hacc; rfl
        have hval : m.load (addressOf m (inFrame d)) .s8 = (Kind.i8.signExtend a).toUInt64 := by
          rw [← show _ = a from hm]
          rfl
        obtain ⟨m', hrun, hneg⟩ := neg_spec (m.setReg r (Kind.i8.signExtend a).toUInt64) r
        refine ⟨m', by rw [execAll_cons, hstep, hval]; exact hrun, ?_⟩
        rw [Machine.reg_setReg_self, signExtend_bit ha] at hneg
        exact (Sets.of_setReg m r _).trans hneg
    · have hval := Machine.load_extended hk hacc h1 (addressOf m (inFrame d)) hm
      refine ⟨m.setReg r (extended k signed a), ?_, .of_setReg m r _⟩
      rw [execAll_cons, hstep, hval, if_neg (by simp [h1])]
      rfl

/-! ## Storing -/

/-- The machine with a lane of memory changed, and perhaps one register. -/
structure Stores (m m' : Machine) (r : Reg) (p : Place) (k : Kind) (w : UInt64) : Prop where
  value : m'.mem.readWord (addressOf m p) k.size = w
  others : ∀ x, ¬ Memory.Within (addressOf m p) k.size x → m'.mem.get x = m.mem.get x
  regs : ∀ s, s ≠ r → m'.reg s = m.reg s

theorem and_one_spec (m : Machine) (r : Reg) :
    ∃ m', execAll [.aluImm .and r 1] m = .ok m' ∧ Sets m m' r (m.reg r &&& 1) :=
  ⟨{ m.setReg r (m.reg r &&& 1) with flags := .ofLogic (m.reg r &&& 1) }, rfl,
    m.reg_setReg_self r _, fun _ hs => m.reg_setReg_ne _ hs.symm, fun _ => rfl, rfl⟩

theorem storeInt_spec (hk : InReg k) {r : Reg} (hr : r ≠ .rbp) (d : Int32) :
    ∃ is, storeInt (inFrame d) r k = .ok (straight is) ∧ (∀ i ∈ is, i.isInline = true) ∧
      ∀ m, ∃ m', execAll is m = .ok m' ∧ Stores m m' r (inFrame d) k (k.canon (m.reg r)) := by
  obtain ⟨hsome, hsize⟩ : k.size ≠ 0 ∧ k.size ≤ 8 := by rcases hk.size with h | h | h | h <;> omega
  obtain ⟨width, hwidth, hbytes⟩ : ∃ width, Width.ofSize k.size = .ok width ∧
      width.bytes = k.size := by
    rcases hk.size with h | h | h | h <;> rw [h] <;> exact ⟨_, rfl, rfl⟩
  refine ⟨(if k = .i1 then [.aluImm .and r 1] else []) ++ [.store (inFrame d) r width], ?_, ?_, ?_⟩
  · rw [storeInt, hwidth]
    rfl
  · intro i hi
    rcases List.mem_append.mp hi with hi | hi
    · split at hi
      · obtain rfl := List.mem_singleton.mp hi
        rfl
      · cases hi
    · obtain rfl := List.mem_singleton.mp hi
      rfl
  · intro m
    have hstore : ∀ m : Machine, execAll [.store (inFrame d) r width] m =
        .ok (m.store (addressOf m (inFrame d)) k.size (m.reg r)) := fun m => hbytes ▸ rfl
    by_cases h1 : k = .i1
    · subst h1
      -- the register is cut to a bit before its low byte is stored
      obtain ⟨m₁, hand, hset⟩ := and_one_spec m r
      refine ⟨m₁.store (addressOf m₁ (inFrame d)) Kind.i1.size (m₁.reg r), ?_, ?_⟩
      · rw [if_pos rfl, execAll_append hand, hstore]
      · rw [hset.addressOf hr, hset.value]
        refine ⟨(Memory.readWord_writeWord hsize _ _).trans ?_, fun x hx => ?_, hset.others⟩
        · rw [ofLeBytes_leBytes (m := 0xFF) (by decide) (by decide), UInt64.and_assoc]
          rfl
        · exact (Memory.get_writeWord hsize hx).trans (by rw [hset.mem])
    · refine ⟨m.store (addressOf m (inFrame d)) k.size (m.reg r), ?_, ?_⟩
      · rw [if_neg h1, List.nil_append, hstore]
      · exact ⟨(Memory.readWord_writeWord hsize _ _).trans (ofLeBytes_lane hsome h1 _),
          fun x hx => Memory.get_writeWord hsize hx, fun _ _ => rfl⟩

/-! ## Arithmetic -/

/-- The machine after a computation: the result in rax, the rest of it or nothing new in rdx. -/
structure Computes (m m' : Machine) (w : UInt64) : Prop where
  value : m'.reg .rax = w
  others : ∀ s, s ≠ .rax → s ≠ .rdx → m'.reg s = m.reg s
  mem : m'.mem = m.mem

/-- The machine with a word in rax and other flags. -/
theorem Computes.of_rax (m : Machine) (w : UInt64) (fl : Flags) :
    Computes m { m.setReg .rax w with flags := fl } w :=
  ⟨m.reg_setReg_self .rax w, fun _ hs _ => m.reg_setReg_ne w hs.symm, rfl⟩

/-- With nothing in rdx a division divides rax. -/
theorem divide_eq (h : m.reg .rdx = 0) (d : UInt64) : m.divide d =
    if d = 0 then .error .divide
    else .ok ((m.setReg .rax (m.reg .rax / d)).setReg .rdx (m.reg .rax % d)) := by
  have hlt := (m.reg .rax).toNat_lt
  have hn : (m.reg .rdx).toNat * UInt64.size + (m.reg .rax).toNat = (m.reg .rax).toNat := by
    rw [h]
    simp
  have hfit : ¬ UInt64.size ≤ (m.reg .rax).toNat / d.toNat :=
    Nat.not_le_of_lt (Nat.lt_of_le_of_lt (Nat.div_le_self _ _) hlt)
  have hdiv : UInt64.ofNat ((m.reg .rax).toNat / d.toNat) = m.reg .rax / d :=
    UInt64.toNat.inj (by simp [Nat.mod_eq_of_lt (Nat.lt_of_not_le hfit)])
  have hmod : UInt64.ofNat ((m.reg .rax).toNat % d.toNat) = m.reg .rax % d :=
    UInt64.toNat.inj (by
      simp only [UInt64.toNat_ofNat', UInt64.toNat_mod]
      exact Nat.mod_eq_of_lt (Nat.lt_of_le_of_lt (Nat.mod_le _ _) hlt))
  simp only [Machine.divide, hn, hfit, or_false, hdiv, hmod]

theorem topBit_eq (w : UInt64) : topBit w = decide (9223372036854775808 ≤ w.toNat) := by
  unfold topBit
  exact decide_eq_decide.mpr UInt64.le_iff_toNat_le

/-- With the sign of rax throughout rdx a signed division divides rax. It stops where the quotient
needs a bit more than there is. -/
theorem divideSigned_eq (h : m.reg .rdx = if topBit (m.reg .rax) then -1 else 0) (d : UInt64) :
    m.divideSigned d = if d = 0 ∨ (m.reg .rax).toInt64 = .minValue ∧ d.toInt64 = -1
      then .error .divide
      else .ok ((m.setReg .rax ((m.reg .rax).toInt64 / d.toInt64).toUInt64).setReg .rdx
        ((m.reg .rax).toInt64 % d.toInt64).toUInt64) := by
  have hn : (m.reg .rdx).toInt64.toInt * UInt64.size + (m.reg .rax).toNat =
      (m.reg .rax).toInt64.toInt := by
    rw [h, toInt_toInt64 (m.reg .rax), topBit_eq]
    by_cases hlt : (m.reg .rax).toNat < 9223372036854775808
    · rw [if_neg (by simpa using hlt), if_pos hlt]
      simp
    · rw [if_pos (by simpa using hlt), if_neg hlt]
      have : ((-1 : UInt64).toInt64.toInt * (UInt64.size : Int)) = -18446744073709551616 := by decide
      omega
  have hzero : d.toInt64.toInt = 0 ↔ d = 0 :=
    ⟨fun h0 => UInt64.toBitVec_inj.mp (BitVec.eq_of_toInt_eq h0), fun h0 => by rw [h0]; rfl⟩
  have hquot : Int64.ofInt ((m.reg .rax).toInt64.toInt.tdiv d.toInt64.toInt) =
      (m.reg .rax).toInt64 / d.toInt64 :=
    Int64.toInt.inj (by rw [Int64.toInt_ofInt, Int64.toInt_div])
  have hrem : Int64.ofInt ((m.reg .rax).toInt64.toInt.tmod d.toInt64.toInt) =
      (m.reg .rax).toInt64 % d.toInt64 := by
    rw [← Int64.toInt_mod, Int64.ofInt_toInt]
  have hrange : (((m.reg .rax).toInt64.toInt.tdiv d.toInt64.toInt < Int64.minValue.toInt ∨
      Int64.maxValue.toInt < (m.reg .rax).toInt64.toInt.tdiv d.toInt64.toInt) ↔
        (m.reg .rax).toInt64 = .minValue ∧ d.toInt64 = -1) := by
    constructor
    · intro hout
      by_contra hne
      have hin : ((m.reg .rax).toInt64 / d.toInt64).toInt =
          (m.reg .rax).toInt64.toInt.tdiv d.toInt64.toInt := by
        rcases not_and_or.mp hne with hne | hne
        · exact Int64.toInt_div_of_ne_left _ _ hne
        · exact Int64.toInt_div_of_ne_right _ _ hne
      have hlow := Int64.minValue_le_toInt ((m.reg .rax).toInt64 / d.toInt64)
      have hhigh := Int64.toInt_le ((m.reg .rax).toInt64 / d.toInt64)
      omega
    · rintro ⟨hmin, hneg⟩
      rw [hmin, hneg]
      decide
  simp only [Machine.divideSigned, hn, hzero, hrange, hquot, hrem]

/-- Narrow numbers are above the least of 64 bits. -/
theorem signExtend_ne_min (hk : k.isInt = true) (h : k ≠ .i64) (w : UInt64) :
    k.signExtend w ≠ .minValue := by
  intro hmin
  have hmin := congrArg Int64.toInt hmin
  have hval : Int64.minValue.toInt = -9223372036854775808 := rfl
  rw [hval] at hmin
  cases k with
  | i1 =>
    simp only [Kind.signExtend] at hmin
    split at hmin
    · exact absurd hmin (by decide)
    · exact absurd hmin (by decide)
  | i8 =>
    simp only [Kind.signExtend, Int8.toInt_toInt64] at hmin
    have := Int8.le_toInt w.toUInt8.toInt8
    omega
  | i16 =>
    simp only [Kind.signExtend, Int16.toInt_toInt64] at hmin
    have := Int16.le_toInt w.toUInt16.toInt16
    omega
  | i32 =>
    simp only [Kind.signExtend, Int32.toInt_toInt64] at hmin
    have := Int32.le_toInt w.toUInt32.toInt32
    omega
  | i64 => exact h rfl
  | void | f32 | ptr | vector | other => simp [Kind.isInt] at hk

/-- Where a signed division has no value, the machine stops. -/
theorem divides_iff (hk : k.isInt = true) (ha : k.canon a = a) (hb : k.canon b = b) :
    (b = 0 ∨ k = .i64 ∧ a = Kind.minSigned .i64 ∧ k.canon b = k.canon (-1)) ↔
      (k.signExtend b).toUInt64 = 0 ∨
        (k.signExtend a).toUInt64.toInt64 = .minValue ∧ (k.signExtend b).toUInt64.toInt64 = -1 := by
  have hcut : k.cut b = b := by rw [Kind.cut, if_neg (Kind.size_ne_zero_of_isInt hk), hb]
  refine or_congr ⟨fun h => ?_, fun h => ?_⟩ ⟨?_, ?_⟩
  · subst h
    cases k <;> rfl
  · exact Kind.eq_zero_of_signExtend hk hcut (by simpa using congrArg UInt64.toInt64 h)
  · rintro ⟨rfl, rfl, hneg⟩
    refine ⟨rfl, ?_⟩
    have hneg : b = -1 := hneg
    rw [hneg]
    rfl
  · rintro ⟨hmin, hneg⟩
    by_cases h64 : k = .i64
    · subst h64
      refine ⟨rfl, ?_, ?_⟩
      · have hmin : a = Int64.minValue.toUInt64 := congrArg Int64.toUInt64 hmin
        exact hmin.trans (by decide)
      · have hneg : b = (-1 : Int64).toUInt64 := congrArg Int64.toUInt64 hneg
        exact hneg.trans (by decide)
    · exact absurd (by simpa using hmin) (signExtend_ne_min hk h64 a)

/-- The machine after a division: the quotient in rax and the remainder in rdx. -/
structure Divides (m m' : Machine) (quot rem : UInt64) : Prop where
  quot : Computes m m' quot
  rem : m'.reg .rdx = rem

theorem Sets.divides {x : UInt64} (h : Sets m m' .rdx x) (quot rem : UInt64) :
    Divides m ((m'.setReg .rax quot).setReg .rdx rem) quot rem := by
  refine ⟨⟨?_, fun s hs hs' => ?_, h.mem⟩, Machine.reg_setReg_self ..⟩
  · rw [Machine.reg_setReg_ne _ _ (by decide), Machine.reg_setReg_self]
  · rw [Machine.reg_setReg_ne _ _ hs'.symm, Machine.reg_setReg_ne _ _ hs.symm, h.others s hs']

theorem udiv_spec (hrax : m.reg .rax = a) (hrcx : m.reg .rcx = b) :
    if b = 0 then execAll [.alu .xor .rdx .rdx, .unary .div .rcx] m = .error .divide
    else ∃ m', execAll [.alu .xor .rdx .rdx, .unary .div .rcx] m = .ok m' ∧
      Divides m m' (a / b) (a % b) := by
  obtain ⟨m₁, hxor, hset⟩ : ∃ m₁, execAll [.alu .xor .rdx .rdx] m = .ok m₁ ∧ Sets m m₁ .rdx 0 :=
    ⟨{ m.setReg .rdx (m.reg .rdx ^^^ m.reg .rdx) with
        flags := .ofLogic (m.reg .rdx ^^^ m.reg .rdx) }, rfl,
      (m.reg_setReg_self .rdx _).trans UInt64.xor_self, fun _ hs => m.reg_setReg_ne _ hs.symm,
      fun _ => rfl, rfl⟩
  have hdiv : execAll [.unary .div .rcx] m₁ = m₁.divide (m₁.reg .rcx) := execAll_one
  rw [hset.others .rcx (by decide), hrcx, divide_eq hset.value, hset.others .rax (by decide), hrax]
    at hdiv
  have hrun := (execAll_append hxor).trans hdiv
  rw [List.singleton_append] at hrun
  split
  · next h0 => rw [hrun, if_pos h0]
  · next h0 => exact ⟨_, by rw [hrun, if_neg h0], hset.divides _ _⟩

theorem sdiv_spec {x y : Int64} (hrax : m.reg .rax = x.toUInt64) (hrcx : m.reg .rcx = y.toUInt64) :
    if y.toUInt64 = 0 ∨ x.toUInt64.toInt64 = .minValue ∧ y.toUInt64.toInt64 = -1 then
      execAll [.cqo, .unary .idiv .rcx] m = .error .divide
    else ∃ m', execAll [.cqo, .unary .idiv .rcx] m = .ok m' ∧
      Divides m m' (x / y).toUInt64 (x % y).toUInt64 := by
  have hcqo : execAll [.cqo] m = .ok (m.setReg .rdx (if topBit (m.reg .rax) then -1 else 0)) := rfl
  have hset := Sets.of_setReg m .rdx (if topBit (m.reg .rax) then -1 else 0)
  generalize m.setReg .rdx (if topBit (m.reg .rax) then -1 else 0) = m₁ at hcqo hset
  have hsign := hset.value
  rw [← hset.others .rax (by decide)] at hsign
  have hdiv : execAll [.unary .idiv .rcx] m₁ = m₁.divideSigned (m₁.reg .rcx) := execAll_one
  rw [hset.others .rcx (by decide), hrcx, divideSigned_eq hsign, hset.others .rax (by decide), hrax]
    at hdiv
  have hrun := (execAll_append hcqo).trans hdiv
  rw [List.singleton_append] at hrun
  split
  · next h0 => rw [hrun, if_pos h0]
  · next h0 => exact ⟨_, by rw [hrun, if_neg h0]; rfl, hset.divides _ _⟩

/-- Taking the remainder for the result. -/
theorem Divides.remainder {quot rem : UInt64} (h : Divides m m' quot rem) :
    ∃ m'', execAll [.alu .mov .rax .rdx] m' = .ok m'' ∧ Computes m m'' rem := by
  refine ⟨m'.setReg .rax (m'.reg .rdx), rfl, ?_, fun s hs hs' => ?_, h.quot.mem⟩
  · rw [Machine.reg_setReg_self, h.rem]
  · rw [Machine.reg_setReg_ne _ _ hs.symm, h.quot.others s hs hs']

/-- The first operand is read as a signed number. -/
def signedLeft (op : Op) : Bool := op = .ashr ∨ op = .sdiv ∨ op = .srem

/-- The second operand is read as a signed number. -/
def signedRight (op : Op) : Bool := op = .sdiv ∨ op = .srem

/-- The computation in registers gives what the operation evaluates to, before it is cut to the width,
or stops where it has no value. -/
def ArithRight (m : Machine) (k : Kind) (op : Op) (a b : UInt64) : Prop :=
  evalBinary op k a b = .ok none ∧ execAll (intArith op) m = .error .divide ∨
    ∃ w m', evalBinary op k a b = .ok (some (k.canon w)) ∧ execAll (intArith op) m = .ok m' ∧
      Computes m m' w

/-- One instruction that leaves a number in rax. -/
theorem ArithRight.one {op : Op} (w : UInt64) (fl : Flags)
    (heval : evalBinary op k a b = .ok (some (k.canon w)))
    (hrun : execAll (intArith op) m = .ok { m.setReg .rax w with flags := fl }) :
    ArithRight m k op a b := .inr ⟨w, _, heval, hrun, .of_rax m w fl⟩

theorem udiv_right (hrax : m.reg .rax = a) (hrcx : m.reg .rcx = b) : ArithRight m k .udiv a b := by
  have hdiv := udiv_spec hrax hrcx
  split at hdiv
  · next h0 => exact .inl ⟨if_pos h0, hdiv⟩
  · next h0 =>
    obtain ⟨m', hrun, hm'⟩ := hdiv
    exact .inr ⟨a / b, m', if_neg h0, hrun, hm'.quot⟩

theorem urem_right (hrax : m.reg .rax = a) (hrcx : m.reg .rcx = b) : ArithRight m k .urem a b := by
  have hdiv := udiv_spec hrax hrcx
  split at hdiv
  · next h0 => exact .inl ⟨if_pos h0, execAll_append_error hdiv⟩
  · next h0 =>
    obtain ⟨m', hrun, hm'⟩ := hdiv
    obtain ⟨m'', hmov, hm''⟩ := hm'.remainder
    exact .inr ⟨a % b, m'', if_neg h0, (execAll_append hrun).trans hmov, hm''⟩

/-- A divisor that is not zero in the width is not zero in 64 bits. -/
theorem signExtend_ne_zero (hk : k.isInt = true) (hb : k.canon b = b) (hne : b ≠ 0) :
    k.signExtend b ≠ 0 := fun h0 =>
  hne (Kind.eq_zero_of_signExtend hk
    (by rw [Kind.cut, if_neg (Kind.size_ne_zero_of_isInt hk), hb]) h0)

section signed

variable (hk : k.isInt = true) (ha : k.canon a = a) (hb : k.canon b = b)
  (hrax : m.reg .rax = (k.signExtend a).toUInt64) (hrcx : m.reg .rcx = (k.signExtend b).toUInt64)

include hk ha hb hrax hrcx

theorem sdiv_right : ArithRight m k .sdiv a b := by
  have hdivides := divides_iff hk ha hb
  have hdiv := sdiv_spec hrax hrcx
  split at hdiv
  · next h0 => exact .inl ⟨if_pos (hdivides.mpr h0), hdiv⟩
  · next h0 =>
    have h0 := mt hdivides.mp h0
    obtain ⟨m', hrun, hm'⟩ := hdiv
    exact .inr ⟨_, m', (if_neg h0).trans (if_neg (signExtend_ne_zero hk hb (not_or.mp h0).1)), hrun,
      hm'.quot⟩

theorem srem_right : ArithRight m k .srem a b := by
  have hdivides := divides_iff hk ha hb
  have hdiv := sdiv_spec hrax hrcx
  split at hdiv
  · next h0 => exact .inl ⟨if_pos (hdivides.mpr h0), execAll_append_error hdiv⟩
  · next h0 =>
    have h0 := mt hdivides.mp h0
    obtain ⟨m', hrun, hm'⟩ := hdiv
    obtain ⟨m'', hmov, hm''⟩ := hm'.remainder
    exact .inr ⟨_, m'', (if_neg h0).trans (if_neg (signExtend_ne_zero hk hb (not_or.mp h0).1)),
      (execAll_append hrun).trans hmov, hm''⟩

end signed

theorem intArith_spec {op : Op} (hop : op.isBinary = true) (hf : op.isFloatBinary = false)
    (hk : k.isInt = true) (ha : k.canon a = a) (hb : k.canon b = b)
    (hrax : m.reg .rax = extended k (signedLeft op) a)
    (hrcx : m.reg .rcx = extended k (signedRight op) b) : ArithRight m k op a b := by
  cases op with
  | add =>
    refine .one (a + b) (.ofAdd a b) rfl ?_
    rw [← show m.reg .rax = a from hrax, ← show m.reg .rcx = b from hrcx]
    rfl
  | sub =>
    refine .one (a - b) (.ofSub a b) rfl ?_
    rw [← show m.reg .rax = a from hrax, ← show m.reg .rcx = b from hrcx]
    rfl
  | mul =>
    refine .one (a * b) m.flags rfl ?_
    rw [← show m.reg .rax = a from hrax, ← show m.reg .rcx = b from hrcx]
    rfl
  | and =>
    refine .one (a &&& b) (.ofLogic (a &&& b)) rfl ?_
    rw [← show m.reg .rax = a from hrax, ← show m.reg .rcx = b from hrcx]
    rfl
  | or =>
    refine .one (a ||| b) (.ofLogic (a ||| b)) rfl ?_
    rw [← show m.reg .rax = a from hrax, ← show m.reg .rcx = b from hrcx]
    rfl
  | xor =>
    refine .one (a ^^^ b) (.ofLogic (a ^^^ b)) rfl ?_
    rw [← show m.reg .rax = a from hrax, ← show m.reg .rcx = b from hrcx]
    rfl
  | shl =>
    refine .one (a <<< (b &&& 63)) m.flags rfl ?_
    rw [← show m.reg .rax = a from hrax, ← show m.reg .rcx = b from hrcx]
    rfl
  | lshr =>
    refine .one (a >>> (b &&& 63)) m.flags rfl ?_
    rw [← show m.reg .rax = a from hrax, ← show m.reg .rcx = b from hrcx]
    rfl
  | ashr =>
    have hrax : m.reg .rax = (k.signExtend a).toUInt64 := hrax
    refine .one (k.signExtend a >>> (b &&& 63).toInt64).toUInt64 m.flags rfl ?_
    rw [show k.signExtend a = (m.reg .rax).toInt64 by rw [hrax]; rfl,
      ← show m.reg .rcx = b from hrcx]
    rfl
  | udiv => exact udiv_right hrax hrcx
  | urem => exact urem_right hrax hrcx
  | sdiv => exact sdiv_right hk ha hb hrax hrcx
  | srem => exact srem_right hk ha hb hrax hrcx
  | fadd | fsub | fmul | fdiv | fmin | fmax => exact absurd hf (by decide)
  | _ => exact absurd hop Bool.false_ne_true

/-! ## One lane -/

/-- The machine with one lane of memory changed, by code that works in rax, rcx and rdx. -/
structure Leaves (m m' : Machine) (p : Place) (k : Kind) (w : UInt64) : Prop where
  value : Holds m' p k w
  others : ∀ x, ¬ Memory.Within (addressOf m p) k.size x → m'.mem.get x = m.mem.get x
  regs : ∀ s, s ≠ .rax → s ≠ .rcx → s ≠ .rdx → m'.reg s = m.reg s

theorem scalarBinary_eq {op : Op} (hop : op.isBinary = true) (hf : op.isFloatBinary = false)
    (dst x y : Place) : scalarBinary op k dst x y = do
      return (← loadInt .rax x k (signedLeft op)) ++ (← loadInt .rcx y k (signedRight op)) ++
        straight (intArith op) ++ (← storeInt dst .rax k) := by
  cases op with
  | fadd | fsub | fmul | fdiv | fmin | fmax => exact absurd hf (by decide)
  | add | sub | mul | sdiv | udiv | srem | urem | and | or | xor | shl | lshr | ashr => rfl
  | _ => exact absurd hop Bool.false_ne_true

theorem isInline_intArith (op : Op) : ∀ i ∈ intArith op, i.isInline = true :=
  List.all_eq_true.mp (by cases op <;> rfl)

theorem scalarBinary_spec {op : Op} (hop : op.isBinary = true) (hf : op.isFloatBinary = false)
    (hk : k.isInt = true) (ha : k.canon a = a) (hb : k.canon b = b) (dst x y : Int32) :
    ∃ is, scalarBinary op k (inFrame dst) (inFrame x) (inFrame y) = .ok (straight is) ∧
      (∀ i ∈ is, i.isInline = true) ∧
      ∀ m, Holds m (inFrame x) k a → Holds m (inFrame y) k b →
        evalBinary op k a b = .ok none ∧ execAll is m = .error .divide ∨
          ∃ w m', evalBinary op k a b = .ok (some w) ∧ execAll is m = .ok m' ∧
            Leaves m m' (inFrame dst) k w := by
  obtain ⟨ls, hls, hlin, hleft⟩ := loadInt_spec (.inl hk) .rax x (signedLeft op) ha
  obtain ⟨rs, hrs, hrin, hright⟩ := loadInt_spec (.inl hk) .rcx y (signedRight op) hb
  obtain ⟨ss, hss, hsin, hstore⟩ := storeInt_spec (.inl hk) (show Reg.rax ≠ .rbp by decide) dst
  refine ⟨ls ++ (rs ++ (intArith op ++ ss)), ?_, ?_, fun m hx hy => ?_⟩
  · rw [scalarBinary_eq hop hf, hls, hrs, hss]
    simp only [straight_append, ← List.append_assoc]
    rfl
  · intro i hi
    simp only [List.mem_append] at hi
    rcases hi with hi | hi | hi | hi
    · exact hlin i hi
    · exact hrin i hi
    · exact isInline_intArith op i hi
    · exact hsin i hi
  · obtain ⟨m₁, hrun₁, hset₁⟩ := hleft m hx
    obtain ⟨m₂, hrun₂, hset₂⟩ := hright m₁ (hset₁.holds (by decide) hy)
    have hrax : m₂.reg .rax = extended k (signedLeft op) a :=
      (hset₂.others .rax (by decide)).trans hset₁.value
    rw [execAll_append hrun₁, execAll_append hrun₂]
    rcases intArith_spec hop hf hk ha hb hrax hset₂.value with ⟨heval, htrap⟩ | ⟨w, m₃, heval, hrun₃, hm₃⟩
    · exact .inl ⟨heval, execAll_append_error htrap⟩
    · obtain ⟨m₄, hrun₄, hm₄⟩ := hstore m₃
      rw [hm₃.value] at hm₄
      have hmem : m₃.mem = m.mem := hm₃.mem.trans (hset₂.mem.trans hset₁.mem)
      have hregs : ∀ s, s ≠ .rax → s ≠ .rcx → s ≠ .rdx → m₃.reg s = m.reg s := by
        intro s h₁ h₂ h₃
        rw [hm₃.others s h₁ h₃, hset₂.others s h₂, hset₁.others s h₁]
      have haddr : ∀ m' : Machine, m'.reg .rbp = m.reg .rbp →
          addressOf m' (inFrame dst) = addressOf m (inFrame dst) := fun m' h => by
        rw [addressOf_inFrame, addressOf_inFrame, h]
      have hrbp := hregs .rbp (by decide) (by decide) (by decide)
      have hrbp' := (hm₄.regs .rbp (by decide)).trans hrbp
      have hvalue := hm₄.value
      have hothers := hm₄.others
      rw [haddr m₃ hrbp] at hvalue hothers
      rw [hmem] at hothers
      refine .inr ⟨k.canon w, m₄, heval, (execAll_append hrun₃).trans hrun₄, ?_, hothers,
        fun s h₁ h₂ h₃ => (hm₄.regs s h₁).trans (hregs s h₁ h₂ h₃)⟩
      rw [Holds, haddr m₄ hrbp']
      exact hvalue

/-! ## Comparison -/

theorem topBit_eq_msb (w : UInt64) : topBit w = w.toBitVec.msb := by
  rw [topBit_eq, BitVec.msb_eq_decide]
  rfl

theorem topBit_and (a b : UInt64) : topBit (a &&& b) = (topBit a && topBit b) := by
  simp only [topBit_eq_msb, UInt64.toBitVec_and, BitVec.msb_and]

theorem topBit_xor (a b : UInt64) : topBit (a ^^^ b) = (topBit a ^^ topBit b) := by
  simp only [topBit_eq_msb, UInt64.toBitVec_xor, BitVec.msb_xor]

theorem sub_eq_zero_iff (a b : UInt64) : a - b = 0 ↔ a = b :=
  ⟨fun h => by grind, fun h => by rw [h, UInt64.sub_self]⟩

/-- After a subtraction sign and overflow differ where the first number is the lesser one. -/
theorem sign_ne_overflow (a b : UInt64) :
    ((Flags.ofSub a b).sign != (Flags.ofSub a b).overflow) = decide (a.toInt64 < b.toInt64) := by
  have ha := a.toNat_lt
  have hb := b.toNat_lt
  have hdiff : (a - b).toNat = (18446744073709551616 - b.toNat + a.toNat) % 18446744073709551616 :=
    UInt64.toNat_sub a b
  have hlt : decide (a.toInt64 < b.toInt64) = decide (
      (if a.toNat < 9223372036854775808 then (a.toNat : Int) else a.toNat - 18446744073709551616) <
      if b.toNat < 9223372036854775808 then (b.toNat : Int) else b.toNat - 18446744073709551616) := by
    rw [← toInt_toInt64, ← toInt_toInt64]
    exact decide_eq_decide.mpr Int64.lt_iff_toInt_lt
  change (topBit (a - b) != topBit ((a ^^^ b) &&& (a ^^^ (a - b)))) = _
  rw [topBit_and, topBit_xor, topBit_xor, hlt, topBit_eq, topBit_eq, topBit_eq, hdiff]
  -- the signs of the two numbers and of their difference decide all of it
  by_cases h₁ : 9223372036854775808 ≤ a.toNat <;> by_cases h₂ : 9223372036854775808 ≤ b.toNat <;>
    by_cases h₃ : 9223372036854775808 ≤
      (18446744073709551616 - b.toNat + a.toNat) % 18446744073709551616 <;>
    simp [h₁, h₂, h₃, Nat.not_lt.mpr, Nat.lt_of_not_le] <;> omega

theorem zero_ofSub (a b : UInt64) : (Flags.ofSub a b).zero = decide (a = b) := by
  rw [← decide_eq_decide.mpr (sub_eq_zero_iff a b)]
  rfl

theorem carry_ofSub (a b : UInt64) : (Flags.ofSub a b).carry = decide (a < b) := rfl

/-- The condition after comparing two loaded lanes is the predicate on the lanes. -/
theorem intCond_holds {p : Predicate} (hp : p ∈ Predicate.named) (hf : p.isFloat = false) :
    (intCond p).holds (.ofSub (extended k p.isSigned a) (extended k p.isSigned b)) =
      compareInt p k a b := by
  have hword : ∀ x y : Int64, x.toUInt64 = y.toUInt64 ↔ x.toInt = y.toInt := fun x y =>
    ⟨fun h => congrArg Int64.toInt (congrArg UInt64.toInt64 h),
      fun h => congrArg Int64.toUInt64 (Int64.toInt.inj h)⟩
  have hless := sign_ne_overflow (k.signExtend a).toUInt64 (k.signExtend b).toUInt64
  rw [Int64.toInt64_toUInt64, Int64.toInt64_toUInt64, decide_eq_decide.mpr Int64.lt_iff_toInt_lt]
    at hless
  rw [Bool.eq_iff_iff]
  cases p with
  | eq | ne | ult | uge =>
    simp [intCond, Predicate.isSigned, extended, Cond.holds, compareInt, zero_ofSub, carry_ofSub]
  | ule | ugt =>
    simp [intCond, Predicate.isSigned, extended, Cond.holds, compareInt, zero_ofSub, carry_ofSub,
      UInt64.lt_iff_toNat_lt, UInt64.le_iff_toNat_le, ← UInt64.toNat_inj]
    omega
  | slt =>
    simp [intCond, Predicate.isSigned, extended, Cond.holds, compareInt, hless,
      Int64.lt_iff_toInt_lt]
  | sle | sgt =>
    simp [intCond, Predicate.isSigned, extended, Cond.holds, compareInt, zero_ofSub, hless, hword,
      Int64.lt_iff_toInt_lt, Int64.le_iff_toInt_le]
    omega
  | sge =>
    have hge : (Cond.ge).holds (.ofSub (k.signExtend a).toUInt64 (k.signExtend b).toUInt64) =
        !decide ((k.signExtend a).toInt < (k.signExtend b).toInt) := by
      rw [← hless]
      simp [Cond.holds, bne]
    simp [intCond, Predicate.isSigned, extended, compareInt, hge, Int64.le_iff_toInt_le]
  | oeq | one | olt | ole | ogt | oge | ord | uno | ueq | une | fult | fule | fugt | fuge =>
    exact absurd hf (by decide)
  | other c => simp [Predicate.named] at hp

/-- Setting a register to a condition. -/
theorem setcc_spec (m : Machine) (cc : Cond) (r : Reg) :
    ∃ m', execAll [.setcc cc r, .movzx8 r r] m = .ok m' ∧
      Sets m m' r (if cc.holds m.flags then 1 else 0) := by
  have hcut : ∀ w : UInt64, (w &&& ~~~0xFF ||| if cc.holds m.flags then 1 else 0) &&& 0xFF =
      if cc.holds m.flags then 1 else 0 := by
    intro w
    apply UInt64.toBitVec_inj.mp
    have hlow : w.toBitVec &&& 18446744073709551360#64 &&& 255#64 = 0#64 := by
      rw [BitVec.and_assoc]
      simp
    split <;> simp [BitVec.and_or_distrib_right, hlow]
  obtain ⟨m₁, hrun, hset⟩ : ∃ m₁, execAll [.setcc cc r] m = .ok m₁ ∧
      Sets m m₁ r (m.reg r &&& ~~~0xFF ||| if cc.holds m.flags then 1 else 0) :=
    ⟨_, rfl, .of_setReg m r _⟩
  refine ⟨_, (execAll_append hrun).trans rfl, hset.trans ?_⟩
  rw [← hcut (m.reg r), ← hset.value]
  exact .of_setReg m₁ r _

/-- The machine after a comparison: its answer in rax, the second operand in rcx. -/
structure Decides (m m' : Machine) (answer : Bool) : Prop where
  value : m'.reg .rax = if answer then 1 else 0
  regs : ∀ s, s ≠ .rax → s ≠ .rcx → m'.reg s = m.reg s
  mem : m'.mem = m.mem

theorem compare_spec {p : Predicate} (hp : p ∈ Predicate.named) (hf : p.isFloat = false)
    (hk : InReg k) (ha : k.canon a = a) (hb : k.canon b = b) (x y : Int32) :
    ∃ is, compare p k (inFrame x) (inFrame y) = .ok (straight is) ∧
      ∀ m, Holds m (inFrame x) k a → Holds m (inFrame y) k b →
        ∃ m', execAll is m = .ok m' ∧ Decides m m' (evalCompare p k a b) := by
  obtain ⟨ls, hls, -, hleft⟩ := loadInt_spec hk .rax x p.isSigned ha
  obtain ⟨rs, hrs, -, hright⟩ := loadInt_spec hk .rcx y p.isSigned hb
  refine ⟨ls ++ (rs ++ [Instr.alu .cmp .rax .rcx, .setcc (intCond p) .rax, .movzx8 .rax .rax]), ?_,
    fun m hx hy => ?_⟩
  · rw [compare, if_neg (by simp [hf]), hls, hrs]
    simp only [straight_append, ← List.append_assoc]
    rfl
  · obtain ⟨m₁, hrun₁, hset₁⟩ := hleft m hx
    obtain ⟨m₂, hrun₂, hset₂⟩ := hright m₁ (hset₁.holds (by decide) hy)
    have hrax : m₂.reg .rax = extended k p.isSigned a :=
      (hset₂.others .rax (by decide)).trans hset₁.value
    have hcmp : execAll [.alu .cmp .rax .rcx] m₂ =
        .ok { m₂ with flags := .ofSub (m₂.reg .rax) (m₂.reg .rcx) } := rfl
    obtain ⟨m₃, hrun₃, hset₃⟩ := setcc_spec
      { m₂ with flags := .ofSub (m₂.reg .rax) (m₂.reg .rcx) } (intCond p) .rax
    rw [hrax, hset₂.value, intCond_holds hp hf] at hset₃
    refine ⟨m₃, ?_, ?_, fun s h₁ h₂ => ?_, hset₃.mem.trans (hset₂.mem.trans hset₁.mem)⟩
    · rw [execAll_append hrun₁, execAll_append hrun₂]
      exact (execAll_append hcmp).trans hrun₃
    · rw [hset₃.value, evalCompare, if_neg (show ¬ p.isFloat = true by simp [hf])]
    · exact (hset₃.others s h₁).trans ((hset₂.others s h₂).trans (hset₁.others s h₁))

/-! ## Lanes in the frame -/

/-- The place of a lane of a value that is kept in the frame. -/
def laneOf (d : Int32) (k : Kind) (i : Nat) : Place := shift (inFrame d) (i * k.size)

theorem laneOf_zero (d : Int32) (k : Kind) : laneOf d k 0 = inFrame d := by
  rw [laneOf, shift_inFrame]
  simp

/-- Code for integer lanes does what is said of constants. It stops at a division exactly where the
operation has no value, and elsewhere leaves the value in the lane and all other memory as it was;
a comparison answers in rax. -/
theorem integer_code_agrees (ha : k.canon a = a) (hb : k.canon b = b) (dst x y : Int32) (i : Nat)
    (m : Machine) (hx : Holds m (laneOf x k i) k a) (hy : Holds m (laneOf y k i) k b)
    (prog rest : Code) :
    (∀ op : Op, op.isBinary = true → op.isFloatBinary = false → k.isInt = true →
      ∃ code result, scalarBinary op k (laneOf dst k i) (laneOf x k i) (laneOf y k i) = .ok code ∧
        evalBinary op k a b = .ok result ∧ (Traps prog code m .divide ↔ result = none) ∧
        ∀ w, result = some w → k.canon w = w ∧
          ∃ m', Runs prog (code ++ rest) m rest m' ∧ Leaves m m' (laneOf dst k i) k w) ∧
    (∀ p ∈ Predicate.named, p.isFloat = false → InReg k →
      ∃ code, compare p k (laneOf x k i) (laneOf y k i) = .ok code ∧
        ∃ m', Runs prog (code ++ rest) m rest m' ∧ Decides m m' (evalCompare p k a b)) := by
  constructor
  · intro op hop hf hk
    obtain ⟨is, hcode, hin, hrun⟩ := scalarBinary_spec hop hf hk ha hb
      (dst + (Int64.ofNat (i * k.size)).toInt32) (x + (Int64.ofNat (i * k.size)).toInt32)
      (y + (Int64.ofNat (i * k.size)).toInt32)
    have hfits : ∀ w, evalBinary op k a b = .ok (some w) → k.canon w = w := by
      intro w heval
      obtain ⟨result, hresult, hcut⟩ := evalBinary_int (a := a) hk hf
        (by rw [Kind.cut, if_neg (Kind.size_ne_zero_of_isInt hk), hb])
      cases heval.symm.trans hresult
      exact Kind.canon_of_cut (hcut w rfl)
    rcases hrun m hx hy with ⟨heval, htrap⟩ | ⟨w, m', heval, hok, hleaves⟩
    · refine ⟨straight is, none, hcode, heval, ⟨fun _ => rfl, fun _ => ?_⟩, fun w h => by cases h⟩
      have hstop : Traps prog (straight is ++ []) m .divide := traps_straight hin htrap
      rwa [List.append_nil] at hstop
    · refine ⟨straight is, some w, hcode, heval, ⟨fun htrap => ?_, fun h => by cases h⟩, ?_⟩
      · have hend : Runs prog (straight is ++ []) m [] m' := runs_straight hok
        rw [List.append_nil] at hend
        exact absurd htrap hend.not_traps
      · rintro _ ⟨⟩
        exact ⟨hfits w heval, m', runs_straight hok, hleaves⟩
  · intro p hp hf hk
    obtain ⟨is, hcode, hrun⟩ := compare_spec hp hf hk ha hb
      (x + (Int64.ofNat (i * k.size)).toInt32) (y + (Int64.ofNat (i * k.size)).toInt32)
    obtain ⟨m', hok, hm'⟩ := hrun m hx hy
    exact ⟨straight is, hcode, m', runs_straight hok, hm'⟩

/-- A frame at 4096 with the bytes -1 and -128 in its first two slots. -/
def twoBytes : Machine :=
  ({ mem := ({} : Memory).write 4080 [0x80, 0, 0, 0, 0, 0, 0, 0, 0xFF] } : Machine).setReg .rbp 4096

/-- In a byte, the least number divided by -1 is itself; only in 64 bits does it stop the machine. -/
theorem integer_code_agrees_bytes :
    Holds twoBytes (laneOf (-16) .i8 0) .i8 0x80 ∧ Holds twoBytes (laneOf (-8) .i8 0) .i8 0xFF ∧
    ∃ code m', scalarBinary .sdiv .i8 (laneOf (-24) .i8 0) (laneOf (-16) .i8 0) (laneOf (-8) .i8 0) =
      .ok code ∧ Runs [] code twoBytes [] m' ∧ Leaves twoBytes m' (laneOf (-24) .i8 0) .i8 0x80 := by
  have hget : ∀ x, twoBytes.mem.get x =
      [0x80, 0, 0, 0, 0, 0, 0, 0, 0xFF].getD (x - 4080).toNat (Memory.get {} x) :=
    fun x => Memory.get_write (by decide) {} 4080 x
  have hrbp : twoBytes.reg .rbp = 4096 := Machine.reg_setReg_self _ _ _
  have hx : Holds twoBytes (laneOf (-16) .i8 0) .i8 0x80 := by
    rw [laneOf_zero, Holds, addressOf_inFrame, hrbp]
    change ofLeBytes [twoBytes.mem.get _] = _
    rw [hget]
    rfl
  have hy : Holds twoBytes (laneOf (-8) .i8 0) .i8 0xFF := by
    rw [laneOf_zero, Holds, addressOf_inFrame, hrbp]
    change ofLeBytes [twoBytes.mem.get _] = _
    rw [hget]
    rfl
  obtain ⟨code, result, hcode, heval, -, hrun⟩ :=
    (integer_code_agrees (by decide) (by decide) (-24) _ _ 0 twoBytes hx hy [] []).1 .sdiv rfl rfl rfl
  obtain ⟨-, m', hruns, hleaves⟩ := hrun 0x80 (by cases heval; rfl)
  rw [List.append_nil] at hruns
  exact ⟨hx, hy, code, m', hcode, hruns, hleaves⟩

end SsaJit.Lower
