import SsaJit.Proofs.Lower.Bits
import SsaJit.Proofs.Lower.Pieces

/-! Calls between functions. Arguments travel in registers that the caller loads one after the other and
the callee's prologue stores one after the other. Both go by the same list of registers, in which none
occurs twice, so that a step on one side spoils no argument of another; and the scratch registers are not
among them. -/

namespace SsaJit.Lower

open X86 Outcome

variable {m m' m'' : Machine} {t : Ty} {ts : List Ty} {d : Int32} {n : Nat} {w : UInt64}
  {ints : List Reg} {vecs : Nat}

/-! ## Registers of arguments -/

/-- A register that carries an argument. -/
inductive Carrier
  | general (r : Reg)
  | vector (x : XReg)
  deriving DecidableEq

/-- Does the register carry values of the type? -/
def Carrier.Suits (t : Ty) : Carrier → Prop
  | .general _ => inVectorReg t = false
  | .vector _ => inVectorReg t = true

/-- The registers of arguments of some types; `ints` and those from `vecs` on are still free. -/
def carriers : List Ty → List Reg → Nat → List Carrier
  | [], _, _ => []
  | t :: ts, ints, vecs =>
    if inVectorReg t then .vector (Fin.ofNat 16 vecs) :: carriers ts ints (vecs + 1)
    else match ints with
      | r :: ints => .general r :: carriers ts ints vecs
      | [] => []

variable {cs cs' : List Carrier}

/-- A value of the type travels in one register. -/
def Travels (t : Ty) : Prop := t.size ∈ [1, 2, 4, 8, 16]

/-- What a register carries, as the bytes of a type. -/
def carried (m : Machine) (t : Ty) : Carrier → List UInt8
  | .general r => leBytes t.size (m.reg r)
  | .vector x => (m.xmm x).bytes.take t.size

/-- What a place holds, as the bytes of a type. -/
def held (m : Machine) (t : Ty) (p : Place) : List UInt8 := m.mem.read (addressOf m p) t.size

/-- Bits are kept as 0 or 1. -/
def BitBytes (t : Ty) (v : List UInt8) : Prop := t = .i1 → v = [0] ∨ v = [1]

/-- Registers are as they were, but for rax and some that carry arguments. -/
structure Alters (m m' : Machine) (cs : List Carrier) : Prop where
  regs : ∀ r, r ≠ .rax → .general r ∉ cs → m'.reg r = m.reg r
  xmms : ∀ x, .vector x ∉ cs → m'.xmm x = m.xmm x

theorem Alters.refl (m : Machine) (cs : List Carrier) : Alters m m cs :=
  ⟨fun _ _ _ => rfl, fun _ _ => rfl⟩

theorem Alters.trans (h : Alters m m' cs) (h' : Alters m' m'' cs') : Alters m m'' (cs ++ cs') :=
  ⟨fun r hr hc => by
    rw [List.mem_append, not_or] at hc
    rw [h'.regs r hr hc.2, h.regs r hr hc.1],
  fun x hc => by
    rw [List.mem_append, not_or] at hc
    rw [h'.xmms x hc.2, h.xmms x hc.1]⟩

theorem Alters.mono (h : Alters m m' cs) (hsub : cs ⊆ cs') : Alters m m' cs' :=
  ⟨fun r hr hc => h.regs r hr fun hin => hc (hsub hin), fun x hc => h.xmms x fun hin => hc (hsub hin)⟩

theorem Alters.carried {c : Carrier} (h : Alters m m' cs) (hc : c ∉ cs) (hax : c ≠ .general .rax)
    (t : Ty) : carried m' t c = carried m t c := by
  cases c with
  | general r => rw [Lower.carried, Lower.carried, h.regs r (fun heq => hax (heq ▸ rfl)) hc]
  | vector x => rw [Lower.carried, Lower.carried, h.xmms x hc]

/-! ## One argument -/

def loadArg (t : Ty) (p : Place) : Carrier → Outcome Code
  | .general r => loadInt r p t.kind false
  | .vector x => loadX x p t.size

def storeArg (t : Ty) (p : Place) : Carrier → Outcome Code
  | .general r => storeInt p r t.kind
  | .vector x => storeX p x t.size

theorem take_leBytes {k : Nat} (h : n ≤ k) (w : UInt64) : (leBytes k w).take n = leBytes n w := by
  induction n generalizing k w with
  | zero => rfl
  | succ n ih =>
    obtain ⟨k, rfl⟩ := Nat.exists_eq_succ_of_ne_zero (Nat.ne_of_gt (Nat.lt_of_lt_of_le (Nat.succ_pos n) h))
    rw [leBytes, List.take_succ_cons, ih (Nat.le_of_succ_le_succ h), leBytes]

/-- The low bytes of a vector register are those of its low half. -/
theorem take_xmm (h : n ≤ 8) (x : Xmm) : x.bytes.take n = leBytes n x.lo := by
  rw [Xmm.bytes, List.take_append_of_le_length (by rwa [length_leBytes]), take_leBytes h]

theorem exists_access (h : n ∈ [1, 2, 4, 8]) :
    ∃ a, Access.ofSize n false = .ok a ∧ ∀ (m : Machine) p, m.load p a = m.mem.readWord p n := by
  simp only [List.mem_cons, List.not_mem_nil, or_false] at h
  rcases h with rfl | rfl | rfl | rfl <;> exact ⟨_, rfl, fun _ _ => rfl⟩

theorem exists_width (h : n ∈ [1, 2, 4, 8]) : ∃ w, Width.ofSize n = .ok w ∧ w.bytes = n := by
  simp only [List.mem_cons, List.not_mem_nil, or_false] at h
  rcases h with rfl | rfl | rfl | rfl <;> exact ⟨_, rfl, rfl⟩

theorem leBytes_readWord (h : n ≤ 8) (mem : Memory) (a : UInt64) :
    leBytes n (mem.readWord a n) = mem.read a n := by
  have hback := leBytes_ofLeBytes (show (mem.read a n).length ≤ 8 by rwa [Memory.length_read])
  rwa [Memory.length_read] at hback

/-- What travels in a general register is a lane of up to eight bytes. -/
theorem Travels.general (h : Travels t) (hreg : inVectorReg t = false) :
    t.kind.size = t.size ∧ t.size ∈ [1, 2, 4, 8] := by
  have hsize := size_of_inReg (t := t) (by rw [hreg]; exact Bool.false_ne_true)
  have hkind : t.kind.size ≤ 8 := by cases t.kind <;> simp [Kind.size]
  unfold Travels at h
  simp only [List.mem_cons, List.not_mem_nil, or_false] at h ⊢
  omega

theorem Travels.half (h : Travels t) (h16 : t.size ≠ 16) (h4 : t.size ≠ 4) : t.size ∈ [1, 2, 4, 8] := by
  unfold Travels at h
  simp only [List.mem_cons, List.not_mem_nil, or_false] at h ⊢
  omega

theorem Travels.size_le (h : Travels t) : t.size ≤ UInt64.size := by
  unfold Travels at h
  simp only [List.mem_cons, List.not_mem_nil, or_false] at h
  exact Nat.le_trans (show t.size ≤ 16 by omega) (by decide)

theorem loadArg_spec {c : Carrier} (ht : Travels t) (hc : c.Suits t) (d : Int32) :
    ∃ is, loadArg t (inFrame d) c = .ok (straight is) ∧ ∀ m, ∃ m', execAll is m = .ok m' ∧
      m'.mem = m.mem ∧ Alters m m' [c] ∧ carried m' t c = held m t (inFrame d) := by
  cases c with
  | general r =>
    obtain ⟨hkind, hsize⟩ := ht.general hc
    obtain ⟨a, ha, hload⟩ := exists_access hsize
    refine ⟨[.load r (inFrame d) a], ?_, fun m => ⟨_, rfl, rfl, ⟨fun s _ hs => ?_, fun _ _ => rfl⟩, ?_⟩⟩
    · rw [loadArg, loadInt, hkind, ha, ok_bind, if_neg (by simp)]
      rfl
    · exact m.reg_setReg_ne _ fun h => hs (h ▸ List.mem_cons_self)
    · rw [carried, Machine.reg_setReg_self, hload, leBytes_readWord (by simp at hsize; omega)]
      rfl
  | vector x =>
    rw [loadArg, loadX]
    by_cases h16 : t.size = 16
    · rw [if_pos h16]
      refine ⟨_, rfl, fun m => ⟨_, rfl, rfl, ⟨fun _ _ _ => rfl, fun y hy => ?_⟩, ?_⟩⟩
      · exact m.xmm_setXmm_ne _ fun h => hy (h ▸ List.mem_cons_self)
      · rw [carried, held, h16, Machine.xmm_setXmm_self, Machine.loadX,
          bytes_ofBytes (Memory.length_read _ _ _), List.take_of_length_le (by rw [Memory.length_read])]
        rfl
    by_cases h4 : t.size = 4
    · rw [if_neg h16, if_pos h4]
      refine ⟨_, rfl, fun m => ⟨_, rfl, rfl, ⟨fun _ _ _ => rfl, fun y hy => ?_⟩, ?_⟩⟩
      · exact m.xmm_setXmm_ne _ fun h => hy (h ▸ List.mem_cons_self)
      · rw [carried, held, h4, Machine.xmm_setXmm_self, take_xmm (by decide), leBytes_readWord (by decide)]
        rfl
    · have hsize := ht.half h16 h4
      obtain ⟨a, ha, hload⟩ := exists_access hsize
      rw [if_neg h16, if_neg h4, ha, ok_bind]
      refine ⟨_, rfl, fun m => ⟨_, rfl, rfl, ⟨fun s hs _ => ?_, fun y hy => ?_⟩, ?_⟩⟩
      · exact m.reg_setReg_ne _ hs.symm
      · exact (Machine.setReg m .rax _).xmm_setXmm_ne _ fun h => hy (h ▸ List.mem_cons_self)
      · have hle : t.size ≤ 8 := by simp at hsize; omega
        rw [carried, Machine.xmm_setXmm_self, take_xmm hle, Machine.reg_setReg_self, hload,
          leBytes_readWord hle]
        rfl

/-- The area of a place holds a value, and memory is otherwise as it was. -/
structure Fits (m m' : Machine) (t : Ty) (p : Place) (v : List UInt8) : Prop where
  value : held m' t p = v
  others : ∀ x, ¬ Memory.Within (addressOf m p) t.size x → m'.mem.get x = m.mem.get x

theorem Fits.after {p : Place} {v : List UInt8} (h : Fits m' m'' t p v)
    (haddr : addressOf m' p = addressOf m p) (hmem : m'.mem = m.mem) : Fits m m'' t p v :=
  ⟨h.value, fun x hx => (h.others x (by rwa [haddr])).trans (by rw [hmem])⟩

theorem fits_write {p : Place} {bs : List UInt8} (hlen : bs.length = t.size) (hle : t.size ≤ 16)
    (haddr : addressOf m' p = addressOf m p) (hmem : m'.mem = m.mem.write (addressOf m p) bs) :
    Fits m m' t p bs := by
  have hsize : bs.length ≤ UInt64.size := by
    rw [hlen]
    exact Nat.le_trans hle (by decide)
  refine ⟨?_, fun x hx => ?_⟩
  · have hback := Memory.read_write hsize m.mem (addressOf m p)
    rwa [hlen, ← hmem, ← haddr] at hback
  · rw [hmem]
    exact Memory.get_write_of_not_within hsize (by rwa [hlen])

theorem alters_storeX (m : Machine) (a : UInt64) (v : Xmm) : Alters m (m.storeX a v) [] :=
  ⟨fun r _ _ => m.reg_storeX a v r, fun _ _ => by simp only [Machine.storeX, Machine.xmm]⟩

theorem alters_store (m : Machine) (a : UInt64) (n : Nat) (w : UInt64) :
    Alters m (m.store a n w) [] :=
  ⟨fun r _ _ => m.reg_store a n w r, fun _ _ => by simp only [Machine.store, Machine.xmm]⟩

theorem fits_store (hn : n = t.size) (hle : n ≤ 8) :
    Fits m (m.store (addressOf m (inFrame d)) n w) t (inFrame d) (leBytes n w) :=
  fits_write ((length_leBytes n w).trans hn) (by omega) (addressOf_congr (m.reg_store _ _ _ _) d)
    (m.mem_store _ _ _)

theorem execAll_store {r : Reg} {width : Width} (h : width.bytes = n) :
    execAll [.store (inFrame d) r width] m = .ok (m.store (addressOf m (inFrame d)) n (m.reg r)) :=
  h ▸ rfl

/-- The low byte of a bit that is cut to a bit. -/
theorem leBytes_and_one (h : leBytes 1 w = [0] ∨ leBytes 1 w = [1]) :
    leBytes 1 (w &&& 1) = leBytes 1 w := by
  have hlow : leBytes 1 w = [w.toUInt8] := rfl
  have hcut : leBytes 1 (w &&& 1) = [w.toUInt8 &&& 1] := by
    rw [leBytes, UInt64.toUInt8_and]
    rfl
  rw [hlow] at h ⊢
  rw [hcut]
  rcases h with h | h <;> rw [List.cons.inj h |>.1] <;> rfl

/-- A bit is cut to its low bit first, which it is already. -/
theorem storeArg_bit {r : Reg} (hr : r ≠ .rbp) (d : Int32) :
    ∃ is, storeArg .i1 (inFrame d) (.general r) = .ok (straight is) ∧
      ∀ m, BitBytes .i1 (carried m .i1 (.general r)) → ∃ m', execAll is m = .ok m' ∧
        Alters m m' [.general r] ∧ Fits m m' .i1 (inFrame d) (carried m .i1 (.general r)) := by
  refine ⟨_, rfl, fun m hbit => ?_⟩
  obtain ⟨m₁, hand, hset⟩ := and_one_spec m r
  have hcut : leBytes 1 (m₁.reg r) = carried m .i1 (.general r) := by
    rw [hset.value, leBytes_and_one (hbit rfl)]
    rfl
  have haltered : Alters m m₁ [.general r] :=
    ⟨fun s _ hs => hset.others s fun h => hs (h ▸ List.mem_cons_self), fun x _ => hset.xmm x⟩
  refine ⟨_, (execAll_append hand).trans (execAll_store rfl),
    haltered.trans (alters_store _ _ _ _), ?_⟩
  have hfits := fits_store (m := m₁) (t := .i1) (d := d) (w := m₁.reg r) rfl (by decide)
  rw [← hcut]
  exact hfits.after (hset.addressOf hr) hset.mem

theorem storeArg_general {r : Reg} (ht : Travels t) (hc : (Carrier.general r).Suits t)
    (hbit : t ≠ .i1) (d : Int32) :
    ∃ is, storeArg t (inFrame d) (.general r) = .ok (straight is) ∧ ∀ m, ∃ m',
      execAll is m = .ok m' ∧ Alters m m' [.general r] ∧
        Fits m m' t (inFrame d) (carried m t (.general r)) := by
  obtain ⟨hkind, hsize⟩ := ht.general hc
  obtain ⟨width, hwidth, hbytes⟩ := exists_width hsize
  have hlane : t.kind ≠ .i1 := fun h => by
    cases t with
    | scalar k => exact hbit (congrArg Ty.scalar h)
    | vec e n => cases h
  rw [storeArg, storeInt, hkind, hwidth, ok_bind, if_neg hlane]
  exact ⟨_, rfl, fun m => ⟨_, execAll_store hbytes, (alters_store _ _ _ _).mono (List.nil_subset _),
    fits_store rfl (by simp at hsize; omega)⟩⟩

/-- What a vector register carries is stored at once, by its low four bytes, or through `rax`. -/
theorem storeArg_vector {x : Fin 16} (ht : Travels t) (d : Int32) :
    ∃ is, storeArg t (inFrame d) (.vector x) = .ok (straight is) ∧ ∀ m, ∃ m',
      execAll is m = .ok m' ∧ Alters m m' [.vector x] ∧
        Fits m m' t (inFrame d) (carried m t (.vector x)) := by
  rw [storeArg, storeX]
  by_cases h16 : t.size = 16
  · rw [if_pos h16]
    refine ⟨_, rfl, fun m => ⟨m.storeX (addressOf m (inFrame d)) (m.xmm x), rfl,
      (alters_storeX _ _ _).mono (List.nil_subset _), ?_⟩⟩
    have hbytes : carried m t (.vector x) = (m.xmm x).bytes := by
      rw [carried, h16, List.take_of_length_le (Nat.le_of_eq (length_xmm _))]
    rw [hbytes]
    exact fits_write ((length_xmm _).trans h16.symm) (Nat.le_of_eq h16)
      (addressOf_congr (m.reg_storeX _ _ _) d) (m.mem_storeX _ _)
  by_cases h4 : t.size = 4
  · rw [if_neg h16, if_pos h4]
    refine ⟨_, rfl, fun m => ⟨m.store (addressOf m (inFrame d)) 4 (m.xmm x).lo, rfl,
      (alters_store _ _ _ _).mono (List.nil_subset _), ?_⟩⟩
    have hbytes : carried m t (.vector x) = leBytes 4 (m.xmm x).lo := by
      rw [carried, h4, take_xmm (by decide)]
    rw [hbytes]
    exact fits_store h4.symm (by decide)
  · have hsize := ht.half h16 h4
    obtain ⟨width, hwidth, hbytes⟩ := exists_width hsize
    have hle : t.size ≤ 8 := by simp at hsize; omega
    rw [if_neg h16, if_neg h4, hwidth, ok_bind]
    refine ⟨_, rfl, fun m => ?_⟩
    have hmove : execAll [.movqFromX .rax x] m = .ok (m.setReg .rax (m.xmm x).lo) := rfl
    have haltered : Alters m (m.setReg .rax (m.xmm x).lo) [.vector x] :=
      ⟨fun s hs _ => m.reg_setReg_ne _ hs.symm, fun _ _ => rfl⟩
    refine ⟨_, (execAll_append hmove).trans (execAll_store hbytes),
      haltered.trans (alters_store _ _ _ _), ?_⟩
    rw [carried, take_xmm hle, Machine.reg_setReg_self]
    exact (fits_store rfl hle).after (addressOf_congr (m.reg_setReg_ne _ (by decide)) d) rfl

theorem storeArg_spec {c : Carrier} (ht : Travels t) (hc : c.Suits t) (hbp : c ≠ .general .rbp)
    (d : Int32) :
    ∃ is, storeArg t (inFrame d) c = .ok (straight is) ∧ ∀ m, BitBytes t (carried m t c) →
      ∃ m', execAll is m = .ok m' ∧ Alters m m' [c] ∧ Fits m m' t (inFrame d) (carried m t c) := by
  cases c with
  | general r =>
    by_cases hbit : t = .i1
    · subst hbit
      exact storeArg_bit (fun h => hbp (h ▸ rfl)) d
    · obtain ⟨is, his, hrun⟩ := storeArg_general ht hc hbit d
      exact ⟨is, his, fun m _ => hrun m⟩
  | vector x =>
    obtain ⟨is, his, hrun⟩ := storeArg_vector ht d
    exact ⟨is, his, fun m _ => hrun m⟩

/-! ## All arguments -/

/-- A step for each value with its register. -/
def eachArg (step : Ty → Place → Carrier → Outcome Code) : List (Ty × Place) → List Carrier → Outcome Code
  | (t, p) :: xs, c :: cs => do return (← step t p c) ++ (← eachArg step xs cs)
  | _, _ => return []

/-- Registers that can carry values of some types at the same time. -/
structure Assigned (ts : List Ty) (cs : List Carrier) : Prop where
  suits : ts.Forall₂ (fun t c => Carrier.Suits t c) cs
  nodup : cs.Nodup
  free : ∀ r ∈ [Reg.rax, .rbp, .rsp, .r11], .general r ∉ cs

theorem Assigned.tail {c : Carrier} (h : Assigned (t :: ts) (c :: cs)) :
    c.Suits t ∧ c ∉ cs ∧ c ≠ .general .rax ∧ c ≠ .general .rbp ∧ Assigned ts cs := by
  obtain ⟨hsuits, hnodup, hfree⟩ := h
  obtain ⟨hc, hsuits⟩ := List.forall₂_cons.mp hsuits
  obtain ⟨hnew, hnodup⟩ := List.nodup_cons.mp hnodup
  exact ⟨hc, hnew, fun h => hfree .rax (by decide) (h ▸ List.mem_cons_self),
    fun h => hfree .rbp (by decide) (h ▸ List.mem_cons_self), hsuits, hnodup,
    fun r hr hin => hfree r hr (List.mem_cons_of_mem _ hin)⟩

theorem Assigned.ne_rax {c : Carrier} (h : Assigned ts cs) (hc : c ∈ cs) : c ≠ .general .rax :=
  fun heq => h.free .rax (by decide) (heq ▸ hc)

theorem Alters.addressOf (h : Alters m m' cs) (hbp : .general .rbp ∉ cs) (d : Int32) :
    addressOf m' (inFrame d) = addressOf m (inFrame d) :=
  addressOf_congr (h.regs .rbp (by decide) hbp) d

/-- Arguments that are loaded one after the other are all there in the end. -/
theorem load_run {xs : List (Ty × Place)} (h : Assigned (xs.map Prod.fst) cs)
    (htravel : ∀ x ∈ xs, Travels x.1) (hplace : ∀ x ∈ xs, ∃ d, x.2 = inFrame d) :
    ∃ is, eachArg loadArg xs cs = .ok (straight is) ∧ ∀ m, ∃ m', execAll is m = .ok m' ∧
      m'.mem = m.mem ∧ Alters m m' cs ∧ ∀ x ∈ xs.zip cs, carried m' x.1.1 x.2 = held m x.1.1 x.1.2 := by
  induction xs generalizing cs with
  | nil =>
    refine ⟨[], rfl, fun m => ⟨m, rfl, rfl, .refl m cs, fun x hx => ?_⟩⟩
    rw [List.zip_nil_left] at hx
    cases hx
  | cons x xs ih =>
    obtain ⟨t, p⟩ := x
    cases cs with
    | nil => cases h.suits
    | cons c cs =>
      obtain ⟨hc, hnew, hax, hbp, hrest⟩ := h.tail
      obtain ⟨ht, htravels⟩ := List.forall_mem_cons.mp htravel
      obtain ⟨⟨d, hd⟩, hplaces⟩ := List.forall_mem_cons.mp hplace
      obtain rfl : p = inFrame d := hd
      obtain ⟨is, his, hload⟩ := loadArg_spec ht hc d
      obtain ⟨js, hjs, hmore⟩ := ih hrest htravels hplaces
      refine ⟨is ++ js, ?_, fun m => ?_⟩
      · rw [eachArg, his, ok_bind, hjs, ok_bind, straight_append]
        rfl
      · obtain ⟨m₁, hrun₁, hmem₁, halter₁, hcarried₁⟩ := hload m
        obtain ⟨m₂, hrun₂, hmem₂, halter₂, hcarried₂⟩ := hmore m₁
        refine ⟨m₂, (execAll_append hrun₁).trans hrun₂, hmem₂.trans hmem₁, halter₁.trans halter₂, ?_⟩
        rw [List.zip_cons_cons]
        refine List.forall_mem_cons.mpr ⟨(halter₂.carried hnew hax t).trans hcarried₁, fun x hx => ?_⟩
        obtain ⟨d', hd'⟩ := hplaces x.1 (List.of_mem_zip hx).1
        rw [hcarried₂ x hx, held, held, hmem₁, hd', halter₁.addressOf (by simpa using Ne.symm hbp)]

/-- Parameters that are stored one after the other, in places apart from each other, are all there in the
end. -/
theorem store_run {xs : List (Ty × Place)} (h : Assigned (xs.map Prod.fst) cs)
    (htravel : ∀ x ∈ xs, Travels x.1) (hplace : ∀ x ∈ xs, ∃ d, x.2 = inFrame d)
    (hapart : ∀ m, xs.Pairwise fun x y =>
      Memory.Apart (addressOf m x.2) x.1.size (addressOf m y.2) y.1.size) :
    ∃ is, eachArg storeArg xs cs = .ok (straight is) ∧
      ∀ m, (∀ x ∈ xs.zip cs, BitBytes x.1.1 (carried m x.1.1 x.2)) →
        ∃ m', execAll is m = .ok m' ∧ Alters m m' cs ∧
          (∀ a, (∀ x ∈ xs, ¬ Memory.Within (addressOf m x.2) x.1.size a) → m'.mem.get a = m.mem.get a) ∧
          ∀ x ∈ xs.zip cs, held m' x.1.1 x.1.2 = carried m x.1.1 x.2 := by
  induction xs generalizing cs with
  | nil =>
    refine ⟨[], rfl, fun m _ => ⟨m, rfl, .refl m cs, fun _ _ => rfl, fun x hx => ?_⟩⟩
    rw [List.zip_nil_left] at hx
    cases hx
  | cons x xs ih =>
    obtain ⟨t, p⟩ := x
    cases cs with
    | nil => cases h.suits
    | cons c cs =>
      obtain ⟨hc, hnew, hax, hbp, hrest⟩ := h.tail
      obtain ⟨ht, htravels⟩ := List.forall_mem_cons.mp htravel
      obtain ⟨⟨d, hd⟩, hplaces⟩ := List.forall_mem_cons.mp hplace
      obtain rfl : p = inFrame d := hd
      obtain ⟨is, his, hstore⟩ := storeArg_spec ht hc hbp d
      obtain ⟨js, hjs, hmore⟩ := ih hrest htravels hplaces fun m => (List.pairwise_cons.mp (hapart m)).2
      refine ⟨is ++ js, ?_, fun m hbits => ?_⟩
      · rw [eachArg, his, ok_bind, hjs, ok_bind, straight_append]
        rfl
      · rw [List.zip_cons_cons] at hbits ⊢
        obtain ⟨hbit, hbits⟩ := List.forall_mem_cons.mp hbits
        obtain ⟨m₁, hrun₁, halter₁, hfits⟩ := hstore m hbit
        have haddr : ∀ d, addressOf m₁ (inFrame d) = addressOf m (inFrame d) :=
          halter₁.addressOf (by simpa using Ne.symm hbp)
        have hsame : ∀ x ∈ xs.zip cs, carried m₁ x.1.1 x.2 = carried m x.1.1 x.2 := fun x hx => by
          have hin := (List.of_mem_zip hx).2
          refine halter₁.carried (fun heq => hnew ?_) (hrest.ne_rax hin) _
          rwa [← List.mem_singleton.mp heq]
        obtain ⟨m₂, hrun₂, halter₂, hmem₂, hheld₂⟩ := hmore m₁ fun x hx => by
          rw [hsame x hx]
          exact hbits x hx
        have hplaced : ∀ x ∈ xs, addressOf m₁ x.2 = addressOf m x.2 := fun x hx => by
          obtain ⟨d', hd'⟩ := hplaces x hx
          rw [hd', haddr]
        refine ⟨m₂, (execAll_append hrun₁).trans hrun₂, halter₁.trans halter₂, fun a ha => ?_, ?_⟩
        · obtain ⟨hfirst, hothers⟩ := List.forall_mem_cons.mp ha
          rw [hmem₂ a fun x hx => by rw [hplaced x hx]; exact hothers x hx]
          exact hfits.others a hfirst
        · refine List.forall_mem_cons.mpr ⟨?_, fun x hx => (hheld₂ x hx).trans (hsame x hx)⟩
          -- later stores are to other places
          have hbp₂ : m₂.reg .rbp = m₁.reg .rbp :=
            halter₂.regs .rbp (by decide) (hrest.free .rbp (by decide))
          rw [← hfits.value, held, held, addressOf_congr hbp₂]
          refine Memory.read_congr fun i hi => hmem₂ _ fun x hx hin => ?_
          exact (List.pairwise_cons.mp (hapart m₁)).1 x hx _ (Memory.within_add hi ht.size_le) hin

/-! ## Both sides of a call -/

theorem classify_vector (h : inVectorReg t = true) :
    classify (t :: ts) = ((classify ts).1, (classify ts).2 + 1) := by
  simp [classify, h]

theorem classify_general (h : inVectorReg t = false) :
    classify (t :: ts) = ((classify ts).1 + 1, (classify ts).2) := by
  simp [classify, h]

theorem carriers_vector (h : inVectorReg t = true) :
    carriers (t :: ts) ints vecs = .vector (Fin.ofNat 16 vecs) :: carriers ts ints (vecs + 1) := by
  conv => lhs; unfold carriers
  rw [if_pos h]

theorem carriers_general (h : inVectorReg t = false) (r : Reg) :
    carriers (t :: ts) (r :: ints) vecs = .general r :: carriers ts ints vecs := by
  conv => lhs; unfold carriers
  rw [if_neg (by simp [h])]

theorem carriers_none (h : inVectorReg t = false) : carriers (t :: ts) [] vecs = [] := by
  conv => lhs; unfold carriers
  rw [if_neg (by simp [h])]

/-- The registers that carry arguments are among those that were free. -/
theorem mem_carriers {c : Carrier} (h : c ∈ carriers ts ints vecs) : (∃ r ∈ ints, c = .general r) ∨
    ∃ k, vecs ≤ k ∧ k < vecs + (classify ts).2 ∧ c = .vector (Fin.ofNat 16 k) := by
  induction ts generalizing ints vecs with
  | nil => cases h
  | cons t ts ih =>
    cases hreg : inVectorReg t with
    | true =>
      rw [carriers_vector hreg] at h
      rw [classify_vector hreg]
      rcases List.mem_cons.mp h with rfl | h
      · exact .inr ⟨vecs, Nat.le_refl _, by omega, rfl⟩
      · rcases ih h with hgeneral | ⟨k, hle, hlt, rfl⟩
        · exact .inl hgeneral
        · exact .inr ⟨k, by omega, by omega, rfl⟩
    | false =>
      rw [classify_general hreg]
      cases ints with
      | nil =>
        rw [carriers_none hreg] at h
        cases h
      | cons r ints =>
        rw [carriers_general hreg] at h
        rcases List.mem_cons.mp h with rfl | h
        · exact .inl ⟨r, List.mem_cons_self, rfl⟩
        · rcases ih h with ⟨s, hs, rfl⟩ | hvector
          · exact .inl ⟨s, List.mem_cons_of_mem _ hs, rfl⟩
          · exact .inr hvector

theorem suits_carriers (hints : (classify ts).1 ≤ ints.length) :
    ts.Forall₂ (fun t c => Carrier.Suits t c) (carriers ts ints vecs) := by
  induction ts generalizing ints vecs with
  | nil => exact .nil
  | cons t ts ih =>
    cases hreg : inVectorReg t with
    | true =>
      rw [classify_vector hreg] at hints
      rw [carriers_vector hreg]
      exact .cons hreg (ih hints)
    | false =>
      rw [classify_general hreg] at hints
      cases ints with
      | nil => cases hints
      | cons r ints =>
        rw [carriers_general hreg]
        exact .cons hreg (ih (Nat.le_of_succ_le_succ hints))

theorem nodup_carriers (hints : ints.Nodup) (hvecs : vecs + (classify ts).2 ≤ 16) :
    (carriers ts ints vecs).Nodup := by
  induction ts generalizing ints vecs with
  | nil => exact .nil
  | cons t ts ih =>
    cases hreg : inVectorReg t with
    | true =>
      rw [classify_vector hreg] at hvecs
      rw [carriers_vector hreg]
      refine List.nodup_cons.mpr ⟨fun hin => ?_, ih hints (by omega)⟩
      rcases mem_carriers hin with ⟨r, -, h⟩ | ⟨k, hle, hlt, h⟩
      · cases h
      · have hk := congrArg Fin.val (Carrier.vector.inj h)
        simp only [Fin.val_ofNat] at hk
        omega
    | false =>
      rw [classify_general hreg] at hvecs
      cases ints with
      | nil =>
        rw [carriers_none hreg]
        exact .nil
      | cons r ints =>
        obtain ⟨hr, hints⟩ := List.nodup_cons.mp hints
        rw [carriers_general hreg]
        refine List.nodup_cons.mpr ⟨fun hin => ?_, ih hints hvecs⟩
        rcases mem_carriers hin with ⟨s, hs, h⟩ | ⟨k, -, -, h⟩
        · obtain rfl := Carrier.general.inj h
          exact hr hs
        · cases h

theorem classify_le (h : exceedsRegs ts = false) :
    (classify ts).1 ≤ argRegs.length ∧ (classify ts).2 ≤ vectorArgs := by
  rw [exceedsRegs, Bool.or_eq_false_iff, decide_eq_false_iff_not, decide_eq_false_iff_not] at h
  exact ⟨Nat.not_lt.mp h.1, Nat.not_lt.mp h.2⟩

/-- As many arguments as travel in registers have registers of their own. -/
theorem assigned_carriers (h : exceedsRegs ts = false) : Assigned ts (carriers ts argRegs 0) := by
  obtain ⟨hints, hvecs⟩ := classify_le h
  have hroom : 0 + (classify ts).2 ≤ 16 := by
    rw [vectorArgs] at hvecs
    omega
  refine ⟨suits_carriers hints, nodup_carriers (by decide) hroom, fun r hr hin => ?_⟩
  rcases mem_carriers hin with ⟨s, hs, h⟩ | ⟨k, -, -, h⟩
  · obtain rfl := Carrier.general.inj h
    have hscratch : ∀ r ∈ [Reg.rax, .rbp, .rsp, .r11], r ∉ argRegs := by decide
    exact hscratch r hr hs
  · cases h

/-- The caller loads its arguments into these registers. -/
theorem passArgs_eq {c : Context} {args : List Operand}
    (hargs : args.Forall₂ (fun a t => ∃ y, c.func.find a = .ok y ∧ y.type = t) ts)
    (hints : (classify ts).1 ≤ ints.length) : c.passArgs args ints vecs =
      eachArg loadArg (ts.zip (args.map c.slot)) (carriers ts ints vecs) := by
  induction hargs generalizing ints vecs with
  | nil => rfl
  | @cons a t args ts ha _ ih =>
    obtain ⟨y, hy, rfl⟩ := ha
    rw [Context.passArgs, hy, ok_bind, List.map_cons, List.zip_cons_cons]
    cases hreg : inVectorReg y.type with
    | true =>
      rw [classify_vector hreg] at hints
      dsimp only
      rw [if_pos hreg, carriers_vector hreg, ih hints, eachArg]
      rfl
    | false =>
      rw [classify_general hreg] at hints
      cases ints with
      | nil => cases hints
      | cons r ints =>
        dsimp only
        rw [if_neg (by simp [hreg]), carriers_general hreg, ih (Nat.le_of_succ_le_succ hints), eachArg]
        rfl

/-- The callee stores its parameters from these registers. -/
theorem storeParams_eq {c : Context} {ps : List (Ty × ValueId)}
    (hints : (classify (ps.map Prod.fst)).1 ≤ ints.length) : c.storeParams ps ints vecs =
      eachArg storeArg (ps.map fun x => (x.1, c.home x.2)) (carriers (ps.map Prod.fst) ints vecs) := by
  induction ps generalizing ints vecs with
  | nil => rfl
  | cons x ps ih =>
    obtain ⟨t, v⟩ := x
    rw [List.map_cons] at hints
    rw [List.map_cons, List.map_cons]
    cases hreg : inVectorReg t with
    | true =>
      rw [classify_vector hreg] at hints
      rw [carriers_vector hreg, eachArg, ← ih hints]
      conv => lhs; unfold Context.storeParams
      rw [if_pos hreg]
      rfl
    | false =>
      rw [classify_general hreg] at hints
      cases ints with
      | nil => cases hints
      | cons r ints =>
        rw [carriers_general hreg, eachArg, ← ih (Nat.le_of_succ_le_succ hints)]
        conv => lhs; unfold Context.storeParams
        rw [if_neg (by simp [hreg])]
        rfl

/-! ## The callee's slots -/

theorem Travels.ne_void (h : Travels t) : t.isVoid = false := by
  cases hvoid : t.isVoid with
  | false => rfl
  | true =>
    rw [Travels, size_eq_zero_of_isVoid hvoid] at h
    simp at h

theorem Travels.le_slotBytes (h : Travels t) : t.size ≤ slotBytes t := by
  cases t with
  | scalar k =>
    refine size_le_slotBytes (t := .scalar k) fun hk => ?_
    subst hk
    simp [Travels, Ty.size, Ty.numLanes, Ty.elemKind, Kind.size] at h
  | vec e n =>
    unfold Travels at h
    simp only [List.mem_cons, List.not_mem_nil, or_false] at h
    have hslot : slotBytes (.vec e n) = 16 := rfl
    omega

/-- Each parameter is a listed value of its own, of the type that is passed. -/
structure Receives (f : Func) : Prop where
  length : f.paramValues.length = f.params.length
  nodup : f.paramValues.Nodup
  listed : ∀ x ∈ f.params.zip f.paramValues,
    (∃ b ∈ f.layout, x.2 ∈ (f.block b).values) ∧ (f.value x.2).type = x.1

/-- The slots of different parameters lie apart. -/
theorem params_apart {f : Func} {cpu : Features} (hf : f.Ssa) (hneed : frameNeed f < 2147483648)
    (hparams : Receives f) (htravel : ∀ t ∈ f.params, Travels t) (m : Machine) :
    ((f.params.zip f.paramValues).map fun x => (x.1, Context.home ⟨f, .ofFunc f, cpu⟩ x.2)).Pairwise
      fun x y => Memory.Apart (addressOf m x.2) x.1.size (addressOf m y.2) y.1.size := by
  have hlaid := laid_ofFunc hf hneed
  have hroom : ∀ x ∈ f.params.zip f.paramValues, slotRoom f x.2 ∈ roomsIn f ∧
      x.1.size ≤ (slotRoom f x.2).bytes := fun x hx => by
    obtain ⟨⟨b, hb, hv⟩, htype⟩ := hparams.listed x hx
    have ht := htravel x.1 (List.of_mem_zip hx).1
    rw [← htype] at ht ⊢
    exact ⟨slotRoom_mem hb hv ht.ne_void, ht.le_slotBytes⟩
  have hvalues : (f.params.zip f.paramValues).Pairwise fun x y => x.2 ≠ y.2 := by
    have hsnd : (f.params.zip f.paramValues).map Prod.snd = f.paramValues :=
      List.map_snd_zip (Nat.le_of_eq hparams.length)
    have hnodup := hparams.nodup
    rw [← hsnd] at hnodup
    exact List.pairwise_map.mp hnodup
  refine List.pairwise_map.mpr (hvalues.imp_of_mem fun {x y} hx hy hne => ?_)
  obtain ⟨hxin, hxsize⟩ := hroom x hx
  obtain ⟨hyin, hysize⟩ := hroom y hy
  have hxlow := (hlaid.inside _ hxin).2
  have hylow := (hlaid.inside _ hyin).2
  have hdisjoint := hlaid.disjoint hxin hyin fun h => hne (congrArg Prod.fst h)
  exact apart_inFrame (d := (Frame.ofFunc f).offset (slotRoom f x.2).key)
    (e := (Frame.ofFunc f).offset (slotRoom f y.2).key) (n := x.1.size) (k := y.1.size) m
    (by omega) (by omega) (by omega)

/-! ## Calls -/

theorem slot_inFrame (c : Context) (o : Operand) : ∃ d, c.slot o = inFrame d := by
  cases o with
  | value v => exact ⟨_, rfl⟩
  | missing | foreign _ => exact ⟨0, rfl⟩

theorem storeArg_code {c : Carrier} (ht : Travels t) (hc : c.Suits t) (p : Place) :
    ∃ is, storeArg t p c = .ok (straight is) := by
  cases c with
  | general r =>
    obtain ⟨hkind, hsize⟩ := ht.general hc
    obtain ⟨width, hwidth, -⟩ := exists_width hsize
    rw [storeArg, storeInt, hkind, hwidth]
    exact ⟨_, rfl⟩
  | vector x =>
    rw [storeArg, storeX]
    by_cases h16 : t.size = 16
    · rw [if_pos h16]
      exact ⟨_, rfl⟩
    by_cases h4 : t.size = 4
    · rw [if_neg h16, if_pos h4]
      exact ⟨_, rfl⟩
    · obtain ⟨width, hwidth, -⟩ := exists_width (ht.half h16 h4)
      rw [if_neg h16, if_neg h4, hwidth]
      exact ⟨_, rfl⟩

/-- A result that travels in a register, or none, is stored. -/
theorem call_code {c : Context} {x : Value} {callee : Operand} {args : List Operand} (dst : Place)
    (hargs : x.args = callee :: args) (hresult : x.type.isVoid = true ∨ Travels x.type)
    {is js : List (Instr Label)} (hload : c.passArgs args argRegs 0 = .ok (straight is))
    (htarget : loadInt .r11 (c.slot callee) .ptr false = .ok (straight js)) :
    ∃ after, c.call x dst = .ok (straight (is ++ js ++ .call .r11 :: after)) := by
  have hcode : ∀ after, straight is ++ straight js ++ straight [.call .r11] ++ straight after =
      straight (is ++ js ++ .call .r11 :: after) := fun after => by
    rw [straight_append, straight_append, List.append_assoc]
    rfl
  rw [Context.call, hargs]
  dsimp only
  rw [hload, ok_bind, htarget, ok_bind]
  cases hvoid : x.type.isVoid with
  | true => exact ⟨[], congrArg Except.ok (hcode [])⟩
  | false =>
    have ht := hresult.resolve_left (by simp [hvoid])
    cases hreg : inVectorReg x.type with
    | true =>
      obtain ⟨after, hafter⟩ := storeArg_code (c := .vector 0) ht hreg dst
      rw [storeArg] at hafter
      rw [if_neg Bool.false_ne_true, if_pos rfl, hafter]
      exact ⟨after, congrArg Except.ok (hcode after)⟩
    | false =>
      obtain ⟨after, hafter⟩ := storeArg_code (c := .general .rax) ht hreg dst
      rw [storeArg] at hafter
      rw [if_neg Bool.false_ne_true, if_neg Bool.false_ne_true, hafter]
      exact ⟨after, congrArg Except.ok (hcode after)⟩

theorem alters_setReg (m : Machine) (r : Reg) (w : UInt64) : Alters m (m.setReg r w) [.general r] :=
  ⟨fun _ _ hs => m.reg_setReg_ne w fun h => hs (h ▸ List.mem_cons_self), fun x _ => m.xmm_setReg r w x⟩

theorem alters_push (m : Machine) (w : UInt64) : Alters m (m.push w) [.general .rsp] :=
  (alters_setReg m .rsp _).trans (alters_store _ _ _ w)

/-- The call itself. -/
theorem call_alters (m : Machine) (r : Reg) :
    ∃ m', m.exec (.call r) = .ok m' ∧ m'.rip = m.reg r ∧ Alters m m' [.general .rsp] := by
  have hpush := alters_push m m.rip
  exact ⟨{ m.push m.rip with rip := m.reg r }, rfl, rfl, fun s hax hs => hpush.regs s hax hs,
    fun x hx => hpush.xmms x hx⟩

/-- What the prologue begins with, before it stores parameters. -/
def enterFrame (size : Int32) : List (Instr Label) :=
  [.push .rbp, .alu .mov .rbp .rsp] ++ if 0 < size then [.aluImm .sub .rsp size] else []

theorem enter_alters (m : Machine) (size : Int32) :
    ∃ m', execAll (enterFrame size) m = .ok m' ∧ Alters m m' [.general .rsp, .general .rbp] := by
  have hpush : execAll [.push .rbp] m = .ok (m.push (m.reg .rbp)) := rfl
  set m₁ := m.push (m.reg .rbp)
  have hmov : execAll [.alu .mov .rbp .rsp] m₁ = .ok (m₁.setReg .rbp (m₁.reg .rsp)) := rfl
  set m₂ := m₁.setReg .rbp (m₁.reg .rsp)
  have halter : Alters m m₂ [.general .rsp, .general .rbp] :=
    (alters_push m _).trans (alters_setReg m₁ .rbp _)
  have hframe : execAll [.push .rbp, .alu .mov .rbp .rsp] m = .ok m₂ := (execAll_append hpush).trans hmov
  rw [enterFrame, execAll_append hframe]
  split
  · refine ⟨{ m₂.setReg .rsp (m₂.reg .rsp - size.toInt64.toUInt64) with
      flags := .ofSub (m₂.reg .rsp) size.toInt64.toUInt64 }, rfl, ?_⟩
    have hgrow := halter.trans (alters_setReg m₂ .rsp (m₂.reg .rsp - size.toInt64.toUInt64))
    have hsub : Alters m _ [.general .rsp, .general .rbp] := hgrow.mono (by decide)
    exact ⟨fun s hax hs => hsub.regs s hax hs, fun x hx => hsub.xmms x hx⟩
  · exact ⟨m₂, rfl, halter⟩

/-- Running the code before a call: control is to go where the callee's slot says, and each argument is in
its register. -/
theorem caller_run {c : Context} {args : List Operand} (callee : Operand) (hcs : Assigned ts cs)
    (hlen : args.length = ts.length) (htravel : ∀ t ∈ ts, Travels t)
    (hcode : c.passArgs args argRegs 0 = eachArg loadArg (ts.zip (args.map c.slot)) cs) :
    ∃ is js, c.passArgs args argRegs 0 = .ok (straight is) ∧
      loadInt .r11 (c.slot callee) .ptr false = .ok (straight js) ∧
      ∀ m, ∃ m₁ m₂, execAll (is ++ js) m = .ok m₁ ∧ m₁.exec (.call .r11) = .ok m₂ ∧
        m₂.rip = m.mem.readWord (addressOf m (c.slot callee)) 8 ∧
        ∀ (i : Nat) t k a, ts[i]? = some t → cs[i]? = some k → args[i]? = some a →
          carried m₂ t k = held m t (c.slot a) := by
  have hfst : (ts.zip (args.map c.slot)).map Prod.fst = ts :=
    List.map_fst_zip (by rw [List.length_map, hlen])
  have hplace : ∀ x ∈ ts.zip (args.map c.slot), ∃ d, x.2 = inFrame d := fun x hx => by
    obtain ⟨a, -, ha⟩ := List.mem_map.mp (List.of_mem_zip hx).2
    rw [← ha]
    exact slot_inFrame c a
  have hassigned : Assigned ((ts.zip (args.map c.slot)).map Prod.fst) cs := hfst.symm ▸ hcs
  obtain ⟨is, his, hload⟩ := load_run hassigned
    (fun x hx => htravel _ (List.of_mem_zip hx).1) hplace
  obtain ⟨d, hd⟩ := slot_inFrame c callee
  have hptr : Travels .ptr := by unfold Travels; decide
  obtain ⟨js, hjs, htarget⟩ := loadArg_spec (c := .general .r11) hptr rfl d
  refine ⟨is, js, hcode.trans his, by rw [hd]; exact hjs, fun m => ?_⟩
  obtain ⟨m₁, hrun₁, hmem₁, halter₁, hcarried₁⟩ := hload m
  obtain ⟨m₂, hrun₂, hmem₂, halter₂, hcarried₂⟩ := htarget m₁
  obtain ⟨m₃, hcall, hrip, halter₃⟩ := call_alters m₂ .r11
  have hbp : Carrier.general .rbp ∉ cs := hcs.free .rbp (by decide)
  refine ⟨m₂, m₃, (execAll_append hrun₁).trans hrun₂, hcall, ?_, fun i t k a hi hk ha => ?_⟩
  · have hword := congrArg ofLeBytes hcarried₂
    rw [held, hmem₁, halter₁.addressOf hbp] at hword
    rw [hrip, hd]
    refine Eq.trans ?_ hword
    rw [carried]
    exact ((ofLeBytes_leBytes (n := 8) (m := -1) (by decide) (by decide)).trans (by simp)).symm
  · have hin : k ∈ cs := List.mem_of_getElem? hk
    have hzip : ((t, c.slot a), k) ∈ (ts.zip (args.map c.slot)).zip cs := by
      refine List.mem_of_getElem? (i := i) (List.getElem?_zip_eq_some.mpr
        ⟨List.getElem?_zip_eq_some.mpr ⟨hi, ?_⟩, hk⟩)
      rw [List.getElem?_map, ha]
      rfl
    rw [← hcarried₁ _ hzip, halter₃.carried ?_ (hcs.ne_rax hin), halter₂.carried ?_ (hcs.ne_rax hin)]
    · exact fun h => hcs.free .r11 (by decide) (List.mem_singleton.mp h ▸ hin)
    · exact fun h => hcs.free .rsp (by decide) (List.mem_singleton.mp h ▸ hin)

/-- Running a prologue: each parameter comes from its register to its slot. -/
theorem callee_run {f : Func} (cpu : Features) (hcs : carriers f.params argRegs 0 = cs)
    (hregs : exceedsRegs f.params = false) (htravel : ∀ t ∈ f.params, Travels t) (hf : f.Ssa)
    (hparams : Receives f) (hneed : frameNeed f < 2147483648) :
    ∃ is, Context.prologue ⟨f, .ofFunc f, cpu⟩ = .ok (straight is) ∧
      ∀ m, (∀ x ∈ f.params.zip cs, BitBytes x.1 (carried m x.1 x.2)) →
        ∃ m', execAll is m = .ok m' ∧ ∀ (i : Nat) t k v, f.params[i]? = some t → cs[i]? = some k →
          f.paramValues[i]? = some v →
            held m' t (Context.home ⟨f, .ofFunc f, cpu⟩ v) = carried m t k := by
  set d : Context := ⟨f, .ofFunc f, cpu⟩
  have hassigned : Assigned f.params cs := hcs ▸ assigned_carriers hregs
  have hfst : (f.params.zip f.paramValues).map Prod.fst = f.params :=
    List.map_fst_zip (Nat.le_of_eq hparams.length.symm)
  set xs := (f.params.zip f.paramValues).map fun x => (x.1, d.home x.2) with hxs
  have hxsfst : xs.map Prod.fst = f.params := by
    rw [hxs, List.map_map]
    exact hfst
  have hplaced : Assigned (xs.map Prod.fst) cs := hxsfst.symm ▸ hassigned
  obtain ⟨is, his, hstore⟩ := store_run hplaced
    (fun x hx => htravel _ (hxsfst ▸ List.mem_map_of_mem hx))
    (fun x hx => by
      obtain ⟨y, -, rfl⟩ := List.mem_map.mp hx
      exact ⟨_, rfl⟩)
    (params_apart hf hneed hparams htravel)
  have hparamsCode : d.storeParams (f.params.zip f.paramValues) argRegs 0 = .ok (straight is) := by
    rw [storeParams_eq (hfst.symm ▸ (classify_le hregs).1), hfst, hcs]
    exact his
  refine ⟨enterFrame d.frame.size ++ is, ?_, fun m hbits => ?_⟩
  · rw [Context.prologue, hparamsCode, ok_bind, straight_append, enterFrame, straight_append]
    rfl
  · obtain ⟨m₁, henter, halter⟩ := enter_alters m d.frame.size
    have hsame : ∀ k ∈ cs, ∀ t, carried m₁ t k = carried m t k := fun k hk t => by
      refine halter.carried (fun hin => ?_) (hassigned.ne_rax hk) t
      simp only [List.mem_cons, List.not_mem_nil, or_false] at hin
      rcases hin with rfl | rfl
      · exact hassigned.free .rsp (by decide) hk
      · exact hassigned.free .rbp (by decide) hk
    have hbits' : ∀ x ∈ xs.zip cs, BitBytes x.1.1 (carried m₁ x.1.1 x.2) := fun x hx => by
      rw [hsame x.2 (List.of_mem_zip hx).2]
      refine hbits (x.1.1, x.2) ?_
      rw [← hxsfst, List.zip_map_left]
      exact List.mem_map.mpr ⟨x, hx, rfl⟩
    obtain ⟨m₂, hrun, -, -, hheld⟩ := hstore m₁ hbits'
    refine ⟨m₂, (execAll_append henter).trans hrun, fun i t k v hi hk hv => ?_⟩
    have hzip : ((t, d.home v), k) ∈ xs.zip cs := by
      refine List.mem_of_getElem? (i := i) (List.getElem?_zip_eq_some.mpr ⟨?_, hk⟩)
      have hparam : (f.params.zip f.paramValues)[i]? = some (t, v) :=
        List.getElem?_zip_eq_some.mpr ⟨hi, hv⟩
      rw [hxs, List.getElem?_map, hparam]
      rfl
    exact (hheld _ hzip).trans (hsame k (List.mem_of_getElem? hk) t)

/-- The arguments of a call, whatever their types and order, are in the slots of the callee's parameters
once its prologue has run. -/
theorem arguments_arrive {c : Context} {x : Value} {callee : Operand} {args : List Operand} {f : Func}
    (cpu : Features) (dst : Place) (hx : x.args = callee :: args)
    (hargs : args.Forall₂ (fun a t => ∃ y, c.func.find a = .ok y ∧ y.type = t) f.params)
    (hresult : x.type.isVoid = true ∨ Travels x.type) (hregs : exceedsRegs f.params = false)
    (htravel : ∀ t ∈ f.params, Travels t) (hf : f.Ssa) (hparams : Receives f)
    (hneed : frameNeed f < 2147483648) :
    ∃ before after entry, c.call x dst = .ok (straight (before ++ .call .r11 :: after)) ∧
      Context.prologue ⟨f, .ofFunc f, cpu⟩ = .ok (straight entry) ∧
      ∀ m, (∀ y ∈ f.params.zip args, BitBytes y.1 (held m y.1 (c.slot y.2))) →
        ∃ m₁ m₂ m₃, execAll before m = .ok m₁ ∧ m₁.exec (.call .r11) = .ok m₂ ∧
          m₂.rip = m.mem.readWord (addressOf m (c.slot callee)) 8 ∧ execAll entry m₂ = .ok m₃ ∧
          ∀ (i : Nat) t a v, f.params[i]? = some t → args[i]? = some a → f.paramValues[i]? = some v →
            held m₃ t (Context.home ⟨f, .ofFunc f, cpu⟩ v) = held m t (c.slot a) := by
  have hcs := assigned_carriers hregs
  have hlen : args.length = f.params.length := hargs.length_eq
  obtain ⟨is, js, hload, htarget, hcaller⟩ :=
    caller_run callee hcs hlen htravel (passArgs_eq hargs (classify_le hregs).1)
  obtain ⟨after, hcall⟩ := call_code dst hx hresult hload htarget
  obtain ⟨entry, hentry, hcallee⟩ := callee_run cpu rfl hregs htravel hf hparams hneed
  refine ⟨is ++ js, after, entry, hcall, hentry, fun m hbits => ?_⟩
  obtain ⟨m₁, m₂, hrun₁, hjump, hrip, hcarried⟩ := hcaller m
  have hbits' : ∀ y ∈ f.params.zip (carriers f.params argRegs 0), BitBytes y.1 (carried m₂ y.1 y.2) := by
    intro y hy
    obtain ⟨i, hi⟩ := List.mem_iff_getElem?.mp hy
    obtain ⟨ht, hk⟩ := List.getElem?_zip_eq_some.mp hi
    have hilt : i < args.length := by
      rw [hlen]
      exact (List.getElem?_eq_some_iff.mp ht).1
    have ha := List.getElem?_eq_getElem hilt
    rw [hcarried i y.1 y.2 _ ht hk ha]
    exact hbits (y.1, args[i]) (List.mem_of_getElem? (List.getElem?_zip_eq_some.mpr ⟨ht, ha⟩))
  obtain ⟨m₃, hrun₃, hheld⟩ := hcallee m₂ hbits'
  refine ⟨m₁, m₂, m₃, hrun₁, hjump, hrip, hrun₃, fun i t a v ht ha hv => ?_⟩
  have hilt : i < (carriers f.params argRegs 0).length := by
    rw [← hcs.suits.length_eq]
    exact (List.getElem?_eq_some_iff.mp ht).1
  have hk := List.getElem?_eq_getElem hilt
  exact (hheld i t _ v ht hk hv).trans (hcarried i t _ a ht hk ha)

/-- Two whole numbers, a bit, a float, half a vector and a whole one, in mixed order. -/
def mixed : Func where
  name := "mixed"
  ret := .void
  params := [.f32, .i64, .vec .i8 8, .i1, .vec .i32 4, .i16]
  values := #[
    { op := .param, type := .f32, block := some 0 },
    { op := .param, type := .i64, block := some 0, aux := 1 },
    { op := .param, type := .vec .i8 8, block := some 0, aux := 2 },
    { op := .param, type := .i1, block := some 0, aux := 3 },
    { op := .param, type := .vec .i32 4, block := some 0, aux := 4 },
    { op := .param, type := .i16, block := some 0, aux := 5 }]
  blocks := #[{ values := [0, 1, 2, 3, 4, 5], kind := .ret }]
  layout := [0]
  paramValues := [0, 1, 2, 3, 4, 5]

/-- A function that passes its own parameters on. -/
def passing : Func :=
  { mixed with
    name := "passing"
    params := mixed.params ++ [.ptr]
    values := mixed.values ++ #[{ op := .param, type := .ptr, block := some 0, aux := 6 }]
    paramValues := mixed.paramValues ++ [6] }

/-- Before the call, the bit among the arguments is set. -/
def passingState : Machine :=
  { mem := ({} : Memory).write (addressOf {} (Context.home ⟨passing, .ofFunc passing, {}⟩ 3)) [1] }

theorem arguments_arrive_mixed :
    mixed.Ssa ∧ Receives mixed ∧ frameNeed mixed < 2147483648 ∧ ∃ before after entry m₁ m₂ m₃,
      Context.call ⟨passing, .ofFunc passing, {}⟩
        { op := .call, type := .void, args := (6 :: mixed.paramValues).map .value } (inFrame 0) =
          .ok (straight (before ++ .call .r11 :: after)) ∧
      Context.prologue ⟨mixed, .ofFunc mixed, {}⟩ = .ok (straight entry) ∧
      execAll before passingState = .ok m₁ ∧ m₁.exec (.call .r11) = .ok m₂ ∧ execAll entry m₂ = .ok m₃ ∧
      held m₃ .i1 (Context.home ⟨mixed, .ofFunc mixed, {}⟩ 3) = [1] := by
  have hssa : mixed.Ssa := (show mixed.Consistent by decide +kernel).ssa
  have hparams : Receives mixed := ⟨rfl, by decide, by decide⟩
  have hneed : frameNeed mixed < 2147483648 := by decide
  have hset : held passingState .i1 (Context.home ⟨passing, .ofFunc passing, {}⟩ 3) = [1] :=
    Memory.read_write (show ([1] : List UInt8).length ≤ UInt64.size by decide) _ _
  have hargs : (mixed.paramValues.map Operand.value).Forall₂
      (fun a t => ∃ y, passing.find a = .ok y ∧ y.type = t) mixed.params := by
    repeat first | exact .nil | refine .cons ⟨_, rfl, rfl⟩ ?_
  have htravel : ∀ t ∈ mixed.params, Travels t := by
    unfold Travels
    decide
  obtain ⟨before, after, entry, hcall, hentry, hrun⟩ := arguments_arrive
    (c := ⟨passing, .ofFunc passing, {}⟩) (f := mixed)
    (x := { op := .call, type := .void, args := (6 :: mixed.paramValues).map .value }) {} (inFrame 0)
    rfl hargs (.inl rfl) rfl htravel hssa hparams hneed
  have hbits : ∀ y ∈ mixed.params.zip (mixed.paramValues.map Operand.value),
      y.1 = .i1 → y.2 = .value 3 := by decide
  obtain ⟨m₁, m₂, m₃, hload, hjump, -, hstore, harrive⟩ := hrun passingState fun y hy ht => by
    rw [ht, hbits y hy ht]
    exact .inr hset
  exact ⟨hssa, hparams, hneed, before, after, entry, m₁, m₂, m₃, hcall, hentry, hload, hjump, hstore,
    (harrive 3 .i1 (.value 3) 3 rfl rfl rfl).trans hset⟩

end SsaJit.Lower
