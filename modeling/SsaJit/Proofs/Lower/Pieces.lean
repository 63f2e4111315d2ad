import SsaJit.Proofs.Bytes
import SsaJit.Proofs.Lower.Cast

/-! Vector registers piece by piece. Sixteen bytes fall into pieces as wide as a lane; an instruction on
lanes makes each piece from the pieces of its operands, and one that works bit by bit does so whatever
the width of the lanes. Such instructions in a row compute on the bytes that the frame holds. -/

namespace SsaJit.Lower

open X86

variable {k : Kind} {n w i : Nat} {bs cs : List UInt8} {m m' m'' : Machine} {d e : Int32}

/-! ## Pieces -/

/-- The bytes of one lane among those of all. -/
def piece (w : Nat) (bs : List UInt8) (i : Nat) : List UInt8 := (bs.drop (i * w)).take w

/-- Sixteen bytes made of lanes that are `w` bytes wide. -/
def laid (w : Nat) (lane : Nat → UInt64) : List UInt8 :=
  (List.range (16 / w)).flatMap fun i => leBytes w (lane i)

/-- A width of lanes and of general registers. -/
def Wide (w : Nat) : Prop := w = 1 ∨ w = 2 ∨ w = 4 ∨ w = 8

theorem Wide.le (h : Wide w) : w ≤ 8 := by
  rcases h with rfl | rfl | rfl | rfl <;> decide

theorem Wide.ne_zero (h : Wide w) : w ≠ 0 := by
  rcases h with rfl | rfl | rfl | rfl <;> decide

theorem Wide.fills (h : Wide w) : 16 / w * w = 16 := by
  rcases h with rfl | rfl | rfl | rfl <;> rfl

theorem Wide.inside (h : Wide w) (hi : i < 16 / w) : i * w + w ≤ 16 := by
  rw [← Nat.succ_mul, ← h.fills]
  exact Nat.mul_le_mul_right w hi

theorem wide_of_size (h : k.size ≠ 0) : Wide k.size := by
  cases k <;> first | exact absurd rfl h | simp [Wide, Kind.size]

theorem wide_of_isInt (h : k.isInt = true) : Wide k.size :=
  wide_of_size (Kind.size_ne_zero_of_isInt h)

theorem wide_of_laneKind (h : Ty.laneKind k = true) : Wide k.size :=
  wide_of_size (laneKind_size h)

theorem length_laid (hw : Wide w) (lane : Nat → UInt64) : (laid w lane).length = 16 := by
  have hmap : laid w lane = ((List.range (16 / w)).map lane).flatMap (leBytes w) := by
    rw [laid, List.flatMap_map]
  rw [hmap, length_bytes, List.length_map, List.length_range, hw.fills]

theorem laid_congr {lane lane' : Nat → UInt64}
    (h : ∀ i < 16 / w, leBytes w (lane i) = leBytes w (lane' i)) : laid w lane = laid w lane' := by
  rw [laid, laid, List.flatMap_def, List.flatMap_def,
    List.map_congr_left fun i hi => h i (List.mem_range.mp hi)]

theorem zipWith_flatMap {l : List Nat} {a b : Nat → List UInt8} (g : UInt8 → UInt8 → UInt8)
    (h : ∀ i, (a i).length = (b i).length) :
    List.zipWith g (l.flatMap a) (l.flatMap b) = l.flatMap fun i => List.zipWith g (a i) (b i) := by
  induction l with
  | nil => rfl
  | cons i l ih =>
    rw [List.flatMap_cons, List.flatMap_cons, List.flatMap_cons, List.zipWith_append (h i), ih]

theorem length_piece (hw : Wide w) (h : bs.length = 16) (hi : i < 16 / w) :
    (piece w bs i).length = w := by
  have := hw.inside hi
  rw [piece, List.length_take, List.length_drop, h]
  omega

theorem flatMap_piece (w n : Nat) (bs : List UInt8) :
    (List.range n).flatMap (piece w bs) = bs.take (n * w) := by
  induction n with
  | zero => simp
  | succ n ih =>
    rw [List.range_succ, List.flatMap_append, ih, List.flatMap_cons, List.flatMap_nil,
      List.append_nil, Nat.succ_mul, List.take_add]
    rfl

/-- Bytes are those of their own lanes. -/
theorem laid_pieces (hw : Wide w) (h : bs.length = 16) :
    laid w (fun i => ofLeBytes (piece w bs i)) = bs := by
  have hback : ∀ i ∈ List.range (16 / w), leBytes w (ofLeBytes (piece w bs i)) = piece w bs i := by
    intro i hi
    have hlen := length_piece hw h (List.mem_range.mp hi)
    have hback := leBytes_ofLeBytes (Nat.le_trans (Nat.le_of_eq hlen) hw.le)
    rwa [hlen] at hback
  rw [laid, List.flatMap_def, List.map_congr_left hback, ← List.flatMap_def, flatMap_piece,
    hw.fills, ← h, List.take_length]

theorem piece_read (hw : Wide w) (hi : i < 16 / w) (mem : Memory) (a : UInt64) :
    piece w (mem.read a 16) i = mem.read (a + UInt64.ofNat (i * w)) w := by
  have hin := hw.inside hi
  rw [show 16 = i * w + (w + (16 - (i * w + w))) by omega, Memory.read_append, Memory.read_append,
    piece, List.drop_append_of_le_length (by rw [Memory.length_read]), List.drop_of_length_le
      (by rw [Memory.length_read]), List.nil_append, List.take_append_of_le_length
      (by rw [Memory.length_read]), List.take_of_length_le (by rw [Memory.length_read])]

/-! ## Instructions on lanes -/

theorem length_xmm (x : Xmm) : x.bytes.length = 16 := by
  rw [Xmm.bytes, List.length_append, length_leBytes, length_leBytes]

/-- Each lane is made from the same lane of two operands. -/
def lanewise (w : Nat) (g : UInt64 → UInt64 → UInt64) (bs cs : List UInt8) : List UInt8 :=
  laid w fun i => g (ofLeBytes (piece w bs i)) (ofLeBytes (piece w cs i))

theorem bytes_zip (hw : Wide k.size) (g : UInt64 → UInt64 → UInt64) (x y : Xmm) :
    (Xmm.zip k g x y).bytes = lanewise k.size g x.bytes y.bytes := by
  have hlanes : (List.zipWith g (x.lanes k) (y.lanes k)).flatMap (leBytes k.size) =
      lanewise k.size g x.bytes y.bytes := by
    rw [Xmm.lanes, Xmm.lanes, List.zipWith_map, List.zipWith_self, List.flatMap_map]
    rfl
  rw [Xmm.zip, Xmm.ofLanes, hlanes, lanewise, bytes_ofBytes (length_laid hw _)]

/-- An operation on words does to each byte what another does. -/
def Bytewise (g : UInt64 → UInt64 → UInt64) (g' : UInt8 → UInt8 → UInt8) : Prop :=
  ∀ n a b, leBytes n (g a b) = List.zipWith g' (leBytes n a) (leBytes n b)

theorem bytewise_of {g : UInt64 → UInt64 → UInt64} {g' : UInt8 → UInt8 → UInt8}
    (hlow : ∀ a b, (g a b).toUInt8 = g' a.toUInt8 b.toUInt8)
    (hhigh : ∀ a b, g a b >>> 8 = g (a >>> 8) (b >>> 8)) : Bytewise g g' := by
  intro n
  induction n with
  | zero => exact fun _ _ => rfl
  | succ n ih =>
    intro a b
    rw [leBytes, hhigh, ih, hlow]
    rfl

theorem bytewise_and : Bytewise (· &&& ·) (· &&& ·) :=
  bytewise_of UInt64.toUInt8_and fun a b => UInt64.toBitVec_inj.mp (by simp [BitVec.ushiftRight_and_distrib])

theorem bytewise_or : Bytewise (· ||| ·) (· ||| ·) :=
  bytewise_of UInt64.toUInt8_or fun a b => UInt64.toBitVec_inj.mp (by simp [BitVec.ushiftRight_or_distrib])

theorem bytewise_xor : Bytewise (· ^^^ ·) (· ^^^ ·) :=
  bytewise_of UInt64.toUInt8_xor fun a b => UInt64.toBitVec_inj.mp (by simp [BitVec.ushiftRight_xor_distrib])

theorem bytewise_andn : Bytewise (~~~ · &&& ·) (~~~ · &&& ·) := by
  refine bytewise_of (fun a b => by simp) fun a b => UInt64.toBitVec_inj.mp ?_
  refine BitVec.eq_of_getLsbD_eq fun j hj => ?_
  -- the bits that a shifted word gains are zero in the second operand
  by_cases h : 8 + j < 64
  · simp [h, hj]
  · simp [BitVec.getLsbD_of_ge b.toBitVec (8 + j) (Nat.le_of_not_lt h)]

/-- What goes byte by byte goes lane by lane, whatever the width of the lanes. -/
theorem Bytewise.laid {g : UInt64 → UInt64 → UInt64} {g' : UInt8 → UInt8 → UInt8}
    (h : Bytewise g g') (lane lane' : Nat → UInt64) :
    List.zipWith g' (laid w lane) (laid w lane') = laid w fun i => g (lane i) (lane' i) := by
  rw [Lower.laid, Lower.laid, zipWith_flatMap g' fun i => by rw [length_leBytes, length_leBytes]]
  simp only [Lower.laid, h w]

theorem Bytewise.bytes {g : UInt64 → UInt64 → UInt64} {g' : UInt8 → UInt8 → UInt8}
    (h : Bytewise g g') (x y : Xmm) :
    (⟨g x.lo y.lo, g x.hi y.hi⟩ : Xmm).bytes = List.zipWith g' x.bytes y.bytes := by
  rw [Xmm.bytes, Xmm.bytes, Xmm.bytes, h, h,
    List.zipWith_append (by rw [length_leBytes, length_leBytes])]

/-! ## Vector registers of a machine -/

/-- The machine with other vector registers and flags at most. -/
structure Untouched (m m' : Machine) : Prop where
  regs : ∀ r, m'.reg r = m.reg r
  mem : m'.mem = m.mem

theorem Untouched.trans (h : Untouched m m') (h' : Untouched m' m'') : Untouched m m'' :=
  ⟨fun r => (h'.regs r).trans (h.regs r), h'.mem.trans h.mem⟩

theorem Untouched.read (h : Untouched m m') (e : Int32) :
    m'.mem.read (addressOf m' (inFrame e)) n = m.mem.read (addressOf m (inFrame e)) n := by
  rw [addressOf_congr (h.regs .rbp), h.mem]

/-- The machine with other bytes in one vector register. -/
structure SetsVector (m m' : Machine) (x : XReg) (bs : List UInt8) : Prop extends Untouched m m' where
  bytes : (m'.xmm x).bytes = bs
  others : ∀ y, y ≠ x → m'.xmm y = m.xmm y

theorem setXmm_sets (m : Machine) (x : XReg) (v : Xmm) : SetsVector m (m.setXmm x v) x v.bytes :=
  ⟨⟨fun r => m.reg_setXmm x v r, m.mem_setXmm x v⟩, by rw [m.xmm_setXmm_self],
    fun _ hy => m.xmm_setXmm_ne v hy.symm⟩

theorem loadVector_spec (x : XReg) (e : Int32) (m : Machine) :
    ∃ m', execAll [.movdquLoad x (inFrame e)] m = .ok m' ∧
      SetsVector m m' x (m.mem.read (addressOf m (inFrame e)) 16) := by
  have hsets := setXmm_sets m x (m.loadX (addressOf m (inFrame e)))
  rw [Machine.loadX, bytes_ofBytes (Memory.length_read _ _ _)] at hsets
  exact ⟨_, rfl, hsets⟩

/-- The bytes of the first vector register are stored. -/
theorem storeVector_spec (h : Untouched m m') (d : Int32) :
    ∃ m'', execAll [.movdquStore (inFrame d) 0] m' = .ok m'' ∧ Writes m m'' d (m'.xmm 0).bytes := by
  have hsize : (m'.xmm 0).bytes.length ≤ UInt64.size := by rw [length_xmm]; decide
  refine ⟨m'.storeX (addressOf m' (inFrame d)) (m'.xmm 0), rfl, ?_, fun x hx => ?_, fun r _ _ _ => ?_⟩
  · rw [Machine.mem_storeX, addressOf_congr (h.regs .rbp)]
    exact Memory.read_write hsize _ _
  · rw [Machine.mem_storeX, addressOf_congr (h.regs .rbp), Memory.get_write_of_not_within hsize hx, h.mem]
  · rw [Machine.reg_storeX, h.regs]

/-- What an instruction makes of the bytes of its two registers. -/
def Combines (i : SseOp) (imm : Option UInt8) (g : List UInt8 → List UInt8 → List UInt8) : Prop :=
  i ≠ .ucomiss ∧ ∀ x y, ∃ z, i.apply (imm.getD 0) x y = some z ∧ z.bytes = g x.bytes y.bytes

section combines

variable {i : SseOp} {imm : Option UInt8} {g : List UInt8 → List UInt8 → List UInt8}

theorem Combines.exec (h : Combines i imm g) (dst src : XReg) (m : Machine) :
    ∃ m', execAll [vector i dst src imm] m = .ok m' ∧
      SetsVector m m' dst (g (m.xmm dst).bytes (m.xmm src).bytes) := by
  obtain ⟨z, happly, hbytes⟩ := h.2 (m.xmm dst) (m.xmm src)
  refine ⟨m.setXmm dst z, execAll_one.trans (Machine.sse_of_apply h.1 happly), ?_⟩
  rw [← hbytes]
  exact setXmm_sets m dst z

/-- Two places are loaded and combined. -/
theorem Combines.load (h : Combines i imm g) (x y : Int32) (m : Machine) :
    ∃ m', execAll [.movdquLoad 0 (inFrame x), .movdquLoad 1 (inFrame y), vector i 0 1 imm] m = .ok m' ∧
      Untouched m m' ∧ (m'.xmm 0).bytes = g (m.mem.read (addressOf m (inFrame x)) 16)
        (m.mem.read (addressOf m (inFrame y)) 16) := by
  obtain ⟨m₁, hrun₁, hx⟩ := loadVector_spec 0 x m
  obtain ⟨m₂, hrun₂, hy⟩ := loadVector_spec 1 y m₁
  obtain ⟨m₃, hrun₃, hz⟩ := h.exec 0 1 m₂
  rw [hx.read] at hy
  refine ⟨m₃, (execAll_append hrun₁).trans ((execAll_append hrun₂).trans hrun₃),
    hx.toUntouched.trans (hy.toUntouched.trans hz.toUntouched), ?_⟩
  rw [hz.bytes, hy.bytes, hy.others 0 (by decide), hx.bytes]

theorem Combines.store (h : Combines i imm g) (d x y : Int32) (m : Machine) :
    ∃ m', execAll [.movdquLoad 0 (inFrame x), .movdquLoad 1 (inFrame y), vector i 0 1 imm,
        .movdquStore (inFrame d) 0] m = .ok m' ∧
      Writes m m' d (g (m.mem.read (addressOf m (inFrame x)) 16)
        (m.mem.read (addressOf m (inFrame y)) 16)) := by
  obtain ⟨m₁, hrun₁, hsame, hbytes⟩ := h.load x y m
  obtain ⟨m₂, hrun₂, hwrites⟩ := storeVector_spec hsame d
  rw [hbytes] at hwrites
  exact ⟨m₂, (execAll_append hrun₁).trans hrun₂, hwrites⟩

end combines

/-- An instruction that goes lane by lane. -/
theorem combines_zip {i : SseOp} {imm : Option UInt8} {g : UInt64 → UInt64 → UInt64}
    (hw : Wide k.size) (hne : i ≠ .ucomiss)
    (h : ∀ x y, i.apply (imm.getD 0) x y = some (Xmm.zip k g x y)) :
    Combines i imm (lanewise k.size g) :=
  ⟨hne, fun x y => ⟨_, h x y, bytes_zip hw g x y⟩⟩

/-- An instruction that goes byte by byte goes lane by lane as well. -/
theorem Combines.of_bytewise {i : SseOp} {imm : Option UInt8} {g : UInt64 → UInt64 → UInt64}
    {g' : UInt8 → UInt8 → UInt8} (h : Combines i imm (List.zipWith g')) (hg : Bytewise g g')
    (hw : Wide w) : Combines i imm (lanewise w g) := by
  refine ⟨h.1, fun x y => ?_⟩
  obtain ⟨z, happly, hbytes⟩ := h.2 x y
  refine ⟨z, happly, ?_⟩
  rw [hbytes, lanewise, ← hg.laid, laid_pieces hw (length_xmm x), laid_pieces hw (length_xmm y)]

theorem combines_and : Combines .pand none (List.zipWith (· &&& ·)) :=
  ⟨by decide, fun x y => ⟨_, rfl, bytewise_and.bytes x y⟩⟩

theorem combines_or : Combines .por none (List.zipWith (· ||| ·)) :=
  ⟨by decide, fun x y => ⟨_, rfl, bytewise_or.bytes x y⟩⟩

theorem combines_xor : Combines .pxor none (List.zipWith (· ^^^ ·)) :=
  ⟨by decide, fun x y => ⟨_, rfl, bytewise_xor.bytes x y⟩⟩

theorem combines_andn : Combines .pandn none (List.zipWith (~~~ · &&& ·)) :=
  ⟨by decide, fun x y => ⟨_, rfl, bytewise_andn.bytes x y⟩⟩

/-! ## Masks -/

theorem laid_ones (hw : Wide w) : laid w (fun _ => maskOf true) = List.replicate 16 0xFF := by
  rcases hw with rfl | rfl | rfl | rfl <;> decide

theorem maskOf_xor (b : Bool) : maskOf b ^^^ maskOf true = maskOf !b := by
  cases b <;> decide

/-- A mask is inverted by all ones, which any register has of itself. -/
theorem invert_spec {t : Nat → Bool} (hw : Wide w)
    (hm : (m.xmm 0).bytes = laid w fun i => maskOf (t i)) :
    ∃ m', execAll [vector .pcmpeqd 1 1, vector .pxor 0 1] m = .ok m' ∧ Untouched m m' ∧
      (m'.xmm 0).bytes = laid w fun i => maskOf !t i := by
  have hequal : Combines .pcmpeqd none (lanewise 4 fun a b => maskOf (a == b)) :=
    combines_zip (k := .i32) (.inr (.inr (.inl rfl))) (by decide) fun _ _ => rfl
  obtain ⟨m₁, hrun₁, hones⟩ := hequal.exec 1 1 m
  obtain ⟨m₂, hrun₂, hxor⟩ := combines_xor.exec 0 1 m₁
  refine ⟨m₂, (execAll_append hrun₁).trans hrun₂, hones.toUntouched.trans hxor.toUntouched, ?_⟩
  simp only [lanewise, beq_self_eq_true, laid_ones (.inr (.inr (.inl rfl)) : Wide 4)] at hones
  rw [hxor.bytes, hones.bytes, hones.others 0 (by decide), hm, ← laid_ones hw, bytewise_xor.laid]
  simp only [maskOf_xor]

theorem maskOf_select (b : Bool) (x y : UInt64) :
    (~~~maskOf b &&& y) ||| (x &&& maskOf b) = if b then x else y := by
  cases b <;> simp [maskOf]

theorem blend_spec {t : Nat → Bool} {lane lane' : Nat → UInt64} {c x y : Int32} (d : Int32)
    (hc : m.mem.read (addressOf m (inFrame c)) 16 = laid w fun i => maskOf (t i))
    (hx : m.mem.read (addressOf m (inFrame x)) 16 = laid w lane)
    (hy : m.mem.read (addressOf m (inFrame y)) 16 = laid w lane') :
    ∃ is, blend (inFrame d) (inFrame c) (inFrame x) (inFrame y) = straight is ∧
      ∃ m', execAll is m = .ok m' ∧ Writes m m' d (laid w fun i => if t i then lane i else lane' i) := by
  obtain ⟨m₁, hrun₁, h₁⟩ := loadVector_spec 0 c m
  obtain ⟨m₂, hrun₂, h₂⟩ := loadVector_spec 1 x m₁
  obtain ⟨m₃, hrun₃, h₃⟩ := loadVector_spec 2 y m₂
  obtain ⟨m₄, hrun₄, h₄⟩ := combines_and.exec 1 0 m₃
  obtain ⟨m₅, hrun₅, h₅⟩ := combines_andn.exec 0 2 m₄
  obtain ⟨m₆, hrun₆, h₆⟩ := combines_or.exec 0 1 m₅
  have hsame₂ := h₁.toUntouched.trans h₂.toUntouched
  have hsame₄ := hsame₂.trans (h₃.toUntouched.trans h₄.toUntouched)
  obtain ⟨m₇, hrun₇, hwrites⟩ :=
    storeVector_spec (hsame₄.trans (h₅.toUntouched.trans h₆.toUntouched)) d
  rw [hc] at h₁
  rw [h₁.read, hx] at h₂
  rw [hsame₂.read, hy] at h₃
  -- the mask is in register 0, the operands in 1 and 2
  have hmask : (m₃.xmm 0).bytes = laid w fun i => maskOf (t i) := by
    rw [h₃.others 0 (by decide), h₂.others 0 (by decide), h₁.bytes]
  have htaken : (m₄.xmm 1).bytes = laid w fun i => lane i &&& maskOf (t i) := by
    rw [h₄.bytes, hmask, h₃.others 1 (by decide), h₂.bytes, bytewise_and.laid]
  have hleft : (m₅.xmm 0).bytes = laid w fun i => ~~~maskOf (t i) &&& lane' i := by
    rw [h₅.bytes, h₄.others 0 (by decide), h₄.others 2 (by decide), hmask, h₃.bytes, bytewise_andn.laid]
  rw [h₆.bytes, hleft, h₅.others 1 (by decide), htaken, bytewise_or.laid] at hwrites
  simp only [maskOf_select] at hwrites
  exact ⟨_, rfl, m₇, (execAll_append hrun₁).trans ((execAll_append hrun₂).trans
    ((execAll_append hrun₃).trans ((execAll_append hrun₄).trans ((execAll_append hrun₅).trans
      ((execAll_append hrun₆).trans hrun₇))))), hwrites⟩

end SsaJit.Lower
