import SsaJit.Proofs.Lower.Cast
import SsaJit.Proofs.Lower.Course

/-! The code of a value stays in the value's slot: it leaves rbp alone, stores to no other place of the
frame, and jumps only to labels that it binds itself. Stores through pointers and calls are what they
are; of these it is only known that they are no stores to places relative to rbp. -/

namespace SsaJit.Lower

open X86

variable {d e : Int32} {n k : Nat} {p : Place} {code code' : Code} {is : List (Instr Label)}
  {i : Instr Label} {r : Reg}

/-! ## Places -/

/-- A store of `k` bytes stays among the `n` bytes from an offset on, or goes through a pointer. -/
def Lands (d : Int32) (n : Nat) (p : Place) (k : Nat) : Prop :=
  (∃ off, p = shift (inFrame d) off ∧ off + k ≤ n) ∨ ∃ b e, p = .based b e ∧ b ≠ .rbp

theorem shift_zero (p : Place) : shift p 0 = p := by
  cases p with
  | based b d => exact congrArg (Mem.based b) (Int32.add_zero d)
  | code l => rfl

theorem shift_shift (p : Place) (a b : Nat) : shift (shift p a) b = shift p (a + b) := by
  cases p with
  | based r d =>
    simp only [shift, Mem.offset, Int64.ofNat_add, Int64.toInt32_add]
    rw [Int32.add_assoc]
  | code l => rfl

theorem Lands.self (h : k ≤ n) : Lands d n (inFrame d) k :=
  .inl ⟨0, (shift_zero _).symm, by omega⟩

theorem Lands.based {b : Reg} (h : b ≠ .rbp) : Lands d n (.based b e) k := .inr ⟨b, e, rfl, h⟩

theorem Lands.shift {a : Nat} (h : Lands d n p (a + k)) : Lands d n (shift p a) k := by
  rcases h with ⟨off, rfl, hle⟩ | ⟨b, e, rfl, hb⟩
  · exact .inl ⟨off + a, shift_shift .., by omega⟩
  · exact .inr ⟨b, _, rfl, hb⟩

theorem Lands.mono {k' : Nat} (h : Lands d n p k) (hk : k' ≤ k) : Lands d n p k' :=
  h.imp_left fun ⟨off, hp, hle⟩ => ⟨off, hp, by omega⟩

/-! ## Instructions -/

/-- The instruction keeps rbp, and what it stores lands among the bytes. -/
structure Keeps (d : Int32) (n : Nat) (i : Instr Label) : Prop where
  rbp : .rbp ∉ i.sets
  stack : i.pushes = true → ∃ r, i = .call r
  stores : ∀ p k, i.stores? = some (p, k) → Lands d n p k

/-- The instruction stores nothing, does not jump and keeps rbp. -/
def quiet (i : Instr Label) : Bool :=
  i.stores?.isNone && i.jump?.isNone && !i.pushes && !i.sets.contains .rbp

theorem Keeps.of_quiet (h : quiet i = true) : Keeps d n i ∧ i.jump? = none := by
  simp only [quiet, Bool.and_eq_true, Bool.not_eq_true', List.contains_eq_mem,
    decide_eq_false_iff_not, Option.isNone_iff_eq_none] at h
  exact ⟨⟨h.2, fun hp => by simp [h.1.2] at hp, fun p k hs => by simp [h.1.1.1] at hs⟩, h.1.1.2⟩

theorem Keeps.store (hi : i.stores? = some (p, k)) (h : Lands d n p k) :
    Keeps d n i ∧ i.jump? = none := by
  have hplain : i.sets = [] ∧ i.pushes = false ∧ i.jump? = none := by
    cases i <;> first | exact ⟨rfl, rfl, rfl⟩ | cases hi
  refine ⟨⟨by simp [hplain.1], fun hp => by simp [hplain.2.1] at hp, fun q j hs => ?_⟩, hplain.2.2⟩
  rw [hi] at hs
  cases hs
  exact h

theorem Keeps.call : Keeps d n (.call r) ∧ (Instr.call r : Instr Label).jump? = none :=
  ⟨⟨by simp [Instr.sets], fun _ => ⟨r, rfl⟩, fun _ _ hs => by cases hs⟩, rfl⟩

theorem Keeps.jump {l : Label} (h : i.jump? = some l) : Keeps d n i := by
  have hplain : i.sets = [] ∧ i.pushes = false ∧ i.stores? = none := by
    cases i <;> first | exact ⟨rfl, rfl, rfl⟩ | cases h
  exact ⟨by simp [hplain.1], fun hp => by simp [hplain.2.1] at hp,
    fun p k hs => by simp [hplain.2.2] at hs⟩

theorem mem_straight : .instr i ∈ straight is ↔ i ∈ is := by
  simp [straight]

/-- What code does to the frame stays among the bytes, and it jumps only within itself. -/
structure Confined (d : Int32) (n : Nat) (code : Code) : Prop where
  keeps : ∀ i, .instr i ∈ code → Keeps d n i
  jumps : ∀ i l, .instr i ∈ code → i.jump? = some l → l ∈ marks code

namespace Confined

theorem nil : Confined d n [] := ⟨fun _ h => (by cases h), fun _ _ h => (by cases h)⟩

theorem append (h : Confined d n code) (h' : Confined d n code') : Confined d n (code ++ code') := by
  refine ⟨fun i hi => ?_, fun i l hi hl => ?_⟩
  · exact (List.mem_append.mp hi).elim (h.keeps i) (h'.keeps i)
  · rw [marks_append, List.mem_append]
    exact (List.mem_append.mp hi).imp (fun hi => h.jumps i l hi hl) fun hi => h'.jumps i l hi hl

theorem flatten {cs : List Code} (h : ∀ c ∈ cs, Confined d n c) : Confined d n cs.flatten := by
  induction cs with
  | nil => exact nil
  | cons c cs ih =>
    exact (h c List.mem_cons_self).append (ih fun c hc => h c (List.mem_cons_of_mem _ hc))

theorem straight (h : ∀ i ∈ is, Keeps d n i ∧ i.jump? = none) : Confined d n (straight is) := by
  refine ⟨fun i hi => (h i (mem_straight.mp hi)).1, fun i l hi hl => ?_⟩
  rw [(h i (mem_straight.mp hi)).2] at hl
  cases hl

/-- Instructions in a row do not jump. -/
theorem jump?_eq_none (h : Confined d n (Lower.straight is)) (hi : i ∈ is) : i.jump? = none := by
  refine Option.eq_none_iff_forall_not_mem.mpr fun l hl => ?_
  have hmark := h.jumps i l (mem_straight.mpr hi) hl
  rw [marks_straight] at hmark
  cases hmark

theorem subset {js : List (Instr Label)} (h : Confined d n (Lower.straight is)) (hjs : js ⊆ is) :
    Confined d n (Lower.straight js) :=
  .straight fun _ hj => ⟨h.keeps _ (mem_straight.mpr (hjs hj)), h.jump?_eq_none (hjs hj)⟩

theorem quiet (h : is.all quiet = true) : Confined d n (Lower.straight is) :=
  Confined.straight fun i hi => Keeps.of_quiet (List.all_eq_true.mp h i hi)

theorem store (hi : i.stores? = some (p, k)) (h : Lands d n p k) :
    Confined d n (Lower.straight [i]) :=
  .straight fun j hj => by
    rw [List.mem_singleton.mp hj]
    exact Keeps.store hi h

/-- Instructions of which only the last one stores. -/
theorem stored (hq : is.dropLast.all Lower.quiet = true)
    (hs : is.getLast?.bind Instr.stores? = some (p, k)) (h : Lands d n p k) :
    Confined d n (Lower.straight is) := by
  obtain ⟨i, hi, hstore⟩ := Option.bind_eq_some_iff.mp hs
  obtain ⟨js, rfl⟩ := List.getLast?_eq_some_iff.mp hi
  rw [List.dropLast_concat] at hq
  rw [straight_append]
  exact (Confined.quiet hq).append (.store hstore h)

end Confined

/-! ## What is confined keeps the rest of the frame -/

section frame

variable {cells : Int32 → Prop} {m m' : Machine}

/-- The bytes lie in the frame, and a cell of the frame is none of them. -/
def Misses (d : Int32) (n : Nat) (e : Int32) : Prop :=
  e.toInt + 1 ≤ 0 ∧ (0 < n → d.toInt + n ≤ 0 ∧ (d.toInt + n ≤ e.toInt ∨ e.toInt + 1 ≤ d.toInt))

theorem Misses.not_within {off : Nat} (h : Misses d n e) (hoff : off + k ≤ n) (m : Machine) :
    ¬ Memory.Within (addressOf m (shift (inFrame d) off)) k (cellAt m e) := by
  intro hin
  obtain ⟨he, hn⟩ := h
  have hk : 0 < k := Nat.zero_lt_of_lt hin
  obtain ⟨hd, hap⟩ := hn (by omega)
  have hlow := d.le_toInt
  rw [shift_inFrame] at hin
  have hat : (d + (Int64.ofNat off).toInt32).toInt = d.toInt + off := toInt_add_ofNat (by omega)
  refine apart_inFrame m (k := 1) (e := e) (by omega) (by omega) (by omega) _ hin ?_
  rw [Memory.Within, addressOf_inFrame, UInt64.sub_self]
  decide

/-- Cells of the frame away from the bytes are spared. -/
theorem Keeps.spares (h : Keeps d n i) (hc : Carries cells i m m') (hcell : cells e)
    (hmiss : Misses d n e) :
    m'.reg .rbp = m.reg .rbp ∧ m'.mem.get (cellAt m e) = m.mem.get (cellAt m e) := by
  cases hc with
  | inline hi hs =>
    have hin := isInline_of_ok hi
    rw [Machine.inline, if_pos hin] at hi
    refine ⟨Machine.exec_reg hi (by rw [Instr.sets_map]; exact h.rbp), ?_⟩
    by_cases hp : i.ViaPointer
    · exact hs hp e hcell
    · refine Machine.exec_mem hi ?_ fun p k hst => ?_
      · rw [Instr.pushes_map, Bool.eq_false_iff]
        intro hpush
        obtain ⟨r, rfl⟩ := h.stack hpush
        cases hin
      · rw [Instr.stores?_map] at hst
        obtain ⟨⟨q, j⟩, hq, heq⟩ := Option.map_eq_some_iff.mp hst
        cases heq
        rcases h.stores q j hq with ⟨off, rfl, hoff⟩ | ⟨b, f, rfl, hb⟩
        · exact hmiss.not_within hoff m
        · exact absurd ⟨b, f, j, hq, hb⟩ hp
  | stays => exact ⟨rfl, rfl⟩
  | address w => exact ⟨m.reg_setReg_ne w fun heq => h.rbp (heq ▸ List.mem_cons_self), rfl⟩
  | estimate x _ => exact ⟨rfl, rfl⟩
  | callee hrbp hs => exact ⟨hrbp, hs e hcell⟩

end frame

/-! ## Pieces of code -/

/-- The code, if there is any, is confined. -/
def Confines (d : Int32) (n : Nat) (r : Outcome Code) : Prop := ∀ c, r = .ok c → Confined d n c

namespace Confines

theorem pure (h : Confined d n code) : Confines d n (pure code) := by
  rintro _ ⟨⟩
  exact h

theorem error {e : Fault} : Confines d n (.error e) := fun _ h => by cases h

theorem bind {α : Type} {x : Outcome α} {g : α → Outcome Code}
    (h : ∀ a, x = .ok a → Confines d n (g a)) : Confines d n (x >>= g) := by
  intro c hc
  obtain ⟨a, ha, hg⟩ := Outcome.bind_eq_ok.mp hc
  exact h a ha c hg

theorem append {x y : Outcome Code} (hx : Confines d n x) (hy : Confines d n y) :
    Confines d n (do return (← x) ++ (← y)) :=
  .bind fun a ha => .bind fun b hb => .pure ((hx a ha).append (hy b hb))

theorem mapM {α : Type} {g : α → Outcome Code} {l : List α} (h : ∀ a ∈ l, Confines d n (g a)) :
    Confines d n (do return (← l.mapM g).flatten) := by
  refine .bind fun cs hcs => .pure (.flatten fun c hc => ?_)
  obtain ⟨a, ha, hg⟩ := Outcome.exists_of_mem hc (Outcome.mapM_eq_ok.mp hcs)
  exact h a ha c hg

theorem eachLane {k : Nat} {lane : Nat → Outcome Code} (h : ∀ i < k, Confines d n (lane i)) :
    Confines d n (eachLane k lane) := .mapM fun i hi => h i (List.mem_range.mp hi)

end Confines

theorem bytes_ofSize {size : Nat} {w : Width} (h : Width.ofSize size = .ok w) : w.bytes = size := by
  unfold Width.ofSize at h
  split at h
  · cases h
    simp only [Width.bytes]
    omega
  split at h
  · cases h
    simp only [Width.bytes]
    omega
  split at h
  · cases h
    simp only [Width.bytes]
    omega
  split at h
  · cases h
    simp only [Width.bytes]
    omega
  · cases h

theorem size_of_access {size : Nat} {s : Bool} {a : Access} (h : Access.ofSize size s = .ok a) :
    size ∈ [1, 2, 4, 8] := by
  unfold Access.ofSize at h
  split at h
  · simp
    omega
  split at h
  · simp
    omega
  split at h
  · simp
    omega
  split at h
  · simp
    omega
  · cases h

/-- What travels in a general register is a scalar. -/
theorem size_of_inReg {t : Ty} (h : ¬ inVectorReg t = true) : t.size = t.kind.size := by
  cases t with
  | scalar k => exact Nat.one_mul _
  | vec e n => simp [inVectorReg, Ty.isVector] at h

theorem length_bytesOfLanes {t : Ty} {lanes : List UInt64} {data : List UInt8}
    (h : bytesOfLanes t lanes = .ok data) : data.length = t.size := by
  unfold bytesOfLanes at h
  split at h
  · cases h
  · next hlen =>
    cases h
    rw [length_bytes, List.length_take, Ty.size]
    congr 1
    omega

theorem confines_loadInt (hr : r ≠ .rbp) (q : Place) (k : Kind) (s : Bool) :
    Confines d n (loadInt r q k s) := by
  refine .bind fun a _ => .pure (.quiet ?_)
  split <;> simp [quiet, Instr.stores?, Instr.jump?, Instr.pushes, Instr.sets, hr.symm]

theorem confines_storeInt (hr : r ≠ .rbp) {k : Kind} (h : Lands d n p k.size) :
    Confines d n (storeInt p r k) := by
  refine .bind fun w hw => .pure ?_
  rw [straight_append]
  refine .append (.quiet ?_) (.store rfl (by rwa [bytes_ofSize hw]))
  split <;> simp [quiet, Instr.stores?, Instr.jump?, Instr.pushes, Instr.sets, hr.symm]

theorem confines_loadX (x : XReg) (q : Place) (size : Nat) : Confines d n (loadX x q size) := by
  unfold loadX
  split
  · exact .pure (.quiet rfl)
  split
  · exact .pure (.quiet rfl)
  · exact .bind fun _ _ => .pure (.quiet rfl)

theorem confines_storeX {x : XReg} {size : Nat} (h : Lands d n p size) :
    Confines d n (storeX p x size) := by
  unfold storeX
  split
  · next hsize => exact .pure (.store rfl (hsize ▸ h))
  split
  · next hsize => exact .pure (.store rfl (hsize ▸ h))
  · exact .bind fun w hw => .pure (.stored rfl rfl (by rwa [bytes_ofSize hw]))

/-! ## Blocks of bytes -/

/-- A piece is of a width that can be moved at once, and lies inside the block. -/
theorem Covers.mem {a z off : Nat} {l : List (Nat × Nat)} (h : Covers a l z) (hx : (off, k) ∈ l) :
    k ∈ [1, 2, 4, 8, 16] ∧ off + k ≤ z := by
  induction l generalizing a with
  | nil => cases hx
  | cons x l ih =>
    obtain ⟨rfl, hk, hrest⟩ := h
    rcases List.mem_cons.mp hx with rfl | hx
    · exact ⟨hk, hrest.le⟩
    · exact ih hrest hx

theorem mem_wordChunks {size off : Nat} (h : (off, k) ∈ wordChunks size) :
    k ∈ [1, 2, 4, 8] ∧ off + k ≤ size := by
  obtain ⟨⟨a, w⟩, hmem, h⟩ := List.mem_flatMap.mp h
  obtain ⟨hw, hle⟩ := (chunks_cover size).mem hmem
  dsimp only at h
  split at h
  · next heq =>
    subst heq
    simp only [List.mem_cons, Prod.mk.injEq, List.not_mem_nil, or_false] at h
    rcases h with ⟨rfl, rfl⟩ | ⟨rfl, rfl⟩ <;> exact ⟨by simp, by omega⟩
  · next hne =>
    obtain ⟨rfl, rfl⟩ := Prod.mk.inj (List.mem_singleton.mp h)
    refine ⟨?_, hle⟩
    simpa [hne] using hw

theorem bytes_chunkWidth (h : k ∈ [1, 2, 4, 8]) : (chunkWidth k).bytes = k := by
  simp only [List.mem_cons, List.not_mem_nil, or_false] at h
  rcases h with rfl | rfl | rfl | rfl <;> rfl

/-- A piece of a block that lands. -/
theorem Lands.piece {size off : Nat} (h : Lands d n p size) (hle : off + k ≤ size) :
    Lands d n (Lower.shift p off) k := (h.mono hle).shift

theorem confined_copy {q : Place} {size : Nat} (h : Lands d n p size) :
    Confined d n (copy p q size) := by
  refine .straight fun i hi => ?_
  obtain ⟨⟨off, k⟩, hmem, hi⟩ := List.mem_flatMap.mp hi
  obtain ⟨hk, hle⟩ := (chunks_cover size).mem hmem
  dsimp only at hi
  split at hi
  · next heq =>
    subst heq
    simp only [List.mem_cons, List.not_mem_nil, or_false] at hi
    rcases hi with rfl | rfl
    · exact Keeps.of_quiet rfl
    · exact Keeps.store rfl (h.piece hle)
  · next hne =>
    have hk : k ∈ [1, 2, 4, 8] := by simpa [hne] using hk
    simp only [List.mem_cons, List.not_mem_nil, or_false] at hi
    rcases hi with rfl | rfl
    · exact Keeps.of_quiet rfl
    · exact Keeps.store rfl ((bytes_chunkWidth hk).symm ▸ h.piece hle)

theorem quiet_movImm (w : UInt64) : quiet (.movImm .rax w) = true := by
  unfold Instr.movImm
  split <;> rfl

theorem confined_storeBytes {data : List UInt8} (h : Lands d n p data.length) :
    Confined d n (storeBytes p data) := by
  refine .straight fun i hi => ?_
  obtain ⟨⟨off, k⟩, hmem, hi⟩ := List.mem_flatMap.mp hi
  obtain ⟨hk, hle⟩ := mem_wordChunks hmem
  simp only [List.mem_cons, List.not_mem_nil, or_false] at hi
  rcases hi with rfl | rfl
  · exact Keeps.of_quiet (quiet_movImm _)
  · exact Keeps.store rfl ((bytes_chunkWidth hk).symm ▸ h.piece hle)

theorem confined_selectChunk {x y : Place} (hk : k ∈ [1, 2, 4, 8]) (h : Lands d n p k) :
    ∀ i ∈ selectChunk p x y k, Keeps d n i ∧ i.jump? = none := by
  intro i hi
  simp only [selectChunk, List.mem_cons, List.not_mem_nil, or_false] at hi
  rcases hi with rfl | rfl | rfl | rfl
  · exact Keeps.of_quiet rfl
  · exact Keeps.of_quiet rfl
  · exact Keeps.of_quiet rfl
  · exact Keeps.store rfl ((bytes_chunkWidth hk).symm ▸ h)

/-! ## Lanes -/

/-- A lane of a block of lanes. -/
theorem Lands.lane {count width i : Nat} (h : Lands d n p (count * width)) (hi : i < count) :
    Lands d n (Lower.shift p (i * width)) width :=
  h.piece (by rw [← Nat.succ_mul]; exact Nat.mul_le_mul_right _ hi)

theorem quiet_intArith (op : Op) : (intArith op).all quiet = true := by
  cases op <;> rfl

theorem confines_scalarBinary {op : Op} {k : Kind} {x y : Place} (h : Lands d n p k.size)
    (hf : op.isFloatBinary = true → k = .f32) : Confines d n (scalarBinary op k p x y) := by
  unfold scalarBinary
  split
  · next f hop =>
    have hk : k = .f32 := hf (by cases op <;> first | rfl | cases hop)
    subst hk
    exact .pure (.stored rfl rfl h)
  · refine .bind fun a ha => .bind fun b hb => .bind fun c hc => .pure ?_
    refine .append (.append (.append ?_ ?_) (.quiet (quiet_intArith op))) ?_
    · exact confines_loadInt (by decide) _ _ _ a ha
    · exact confines_loadInt (by decide) _ _ _ b hb
    · exact confines_storeInt (by decide) h c hc

theorem confined_scalarUnary {op : Op} {x : Place} (h : Lands d n p 4) :
    Confined d n (scalarUnary op p x) := by
  unfold scalarUnary
  split
  · exact .stored rfl rfl h
  · exact .stored rfl rfl h

theorem confines_compare (q : Predicate) (k : Kind) (x y : Place) : Confines d n (compare q k x y) := by
  unfold compare
  split
  · refine .pure (.quiet ?_)
    generalize floatTest q = t
    obtain ⟨swap, cond, joined⟩ := t
    cases swap <;> cases joined <;> rfl
  · refine .bind fun a ha => .bind fun b hb => .pure ((Confined.append ?_ ?_).append (.quiet rfl))
    · exact confines_loadInt (by decide) _ _ _ a ha
    · exact confines_loadInt (by decide) _ _ _ b hb

/-- Of the two labels one is jumped to from each half, and both are bound. -/
theorem confined_unsignedToFloat (big done : Label) : Confined d n (unsignedToFloat big done) := by
  have hall : ∀ i, .instr i ∈ unsignedToFloat big done →
      quiet i = true ∨ i = .jcc .s big ∨ i = .jmp done := by
    intro i hi
    have hi : i ∈ [.alu .test .rax .rax, .jcc .s big, .cvtsi2ss 0 .rax, .jmp done, .alu .mov .rcx .rax,
        .shrImm .rcx 1, .aluImm .and .rax 1, .alu .or .rcx .rax, .cvtsi2ss 0 .rcx,
        vector (.scalar .add) 0 0] := by simpa [unsignedToFloat, straight] using hi
    simp only [List.mem_cons, List.not_mem_nil, or_false] at hi
    rcases hi with rfl | rfl | rfl | rfl | rfl | rfl | rfl | rfl | rfl | rfl <;>
      first | exact .inl rfl | exact .inr (.inl rfl) | exact .inr (.inr rfl)
  refine ⟨fun i hi => ?_, fun i l hi hl => ?_⟩
  · rcases hall i hi with hq | rfl | rfl
    · exact (Keeps.of_quiet hq).1
    · exact .jump rfl
    · exact .jump rfl
  · change l ∈ [big, done]
    rcases hall i hi with hq | rfl | rfl
    · rw [(Keeps.of_quiet (d := d) (n := n) hq).2] at hl
      cases hl
    · cases hl
      exact List.mem_cons_self
    · cases hl
      exact List.mem_cons_of_mem _ List.mem_cons_self

theorem confines_cast {op : Op} {s t : Kind} {x : Place} {big done : Label} (h : Lands d n p t.size)
    (hf : op = .sitofp ∨ op = .uitofp → t = .f32) : Confines d n (cast op s t p x big done) := by
  cases op with
  | trunc | zext | ptrtoint | inttoptr | sext =>
    exact .append (confines_loadInt (by decide) _ _ _) (confines_storeInt (by decide) h)
  | fptosi | fptoui =>
    refine .bind fun a ha => .pure (.append (.quiet rfl) ?_)
    exact confines_storeInt (by decide) h a ha
  | sitofp =>
    obtain rfl := hf (.inl rfl)
    refine .bind fun a ha => .pure (.append ?_ (.stored rfl rfl h))
    exact confines_loadInt (by decide) _ _ _ a ha
  | uitofp =>
    obtain rfl := hf (.inr rfl)
    refine .bind fun a ha => .pure (.append (.append ?_ ?_) (.store rfl h))
    · exact confines_loadInt (by decide) _ _ _ a ha
    · split
      · exact confined_unsignedToFloat big done
      · exact .quiet rfl
  | _ => exact .pure .nil

/-! ## Vector instructions -/

theorem confined_vectorBinary {cpu : Features} {op : Op} {t : Ty} {x y : Place}
    (hcode : vectorBinary cpu op t p x y = some code) (h : Lands d n p t.size) : Confined d n code := by
  unfold vectorBinary at hcode
  split at hcode
  · cases hcode
  next hsize =>
  rw [Decidable.not_not] at hsize
  split at hcode
  · cases hcode
  · split at hcode
    · cases hcode
      exact .stored rfl rfl (hsize ▸ h)
    · cases hcode

theorem confined_vectorCompare {op : Op} {q : Predicate} {t : Ty} {x y : Place}
    (hcode : vectorCompare op q t p x y = some code) (h : Lands d n p t.size) : Confined d n code := by
  unfold vectorCompare at hcode
  split at hcode
  · cases hcode
  next hsize =>
  rw [Decidable.not_not] at hsize
  split at hcode
  · obtain ⟨⟨imm, swap⟩, -, hcode⟩ := Option.bind_eq_some_iff.mp hcode
    cases hcode
    exact .stored rfl rfl (hsize ▸ h)
  · obtain ⟨⟨equal, greater⟩, -, hcode⟩ := Option.bind_eq_some_iff.mp hcode
    obtain ⟨⟨i, swap, invert⟩, -, hcode⟩ := Option.bind_eq_some_iff.mp hcode
    cases hcode
    rw [straight_append]
    refine .append (.quiet ?_) (.store rfl (hsize ▸ h))
    cases invert <;> rfl

theorem confined_vectorCast {op : Op} {source target : Ty} {x : Place}
    (hcode : vectorCast op source target p x = some code) (h : Lands d n p target.size) :
    Confined d n code := by
  unfold vectorCast at hcode
  dsimp only at hcode
  split at hcode
  · next ht =>
    cases hcode
    obtain rfl := ht.2.2
    exact .stored rfl rfl h
  · split at hcode
    · next ht =>
      cases hcode
      obtain rfl := ht.2.2
      exact .stored rfl rfl h
    · cases hcode

theorem confined_blend {mask x y : Place} (h : Lands d n p 16) : Confined d n (blend p mask x y) :=
  .stored rfl rfl h

/-! ## Values -/

variable {c : Context} {x : Value} {v : ValueId}

theorem confines_select (h : Lands d n p x.type.size) : Confines d n (c.select x p) := by
  unfold Context.select
  refine .bind fun cond _ => .bind fun _ _ => .bind fun _ _ => .bind fun _ _ => ?_
  dsimp only
  split
  · refine .bind fun a ha => .pure (.append ?_ (.straight fun i hi => ?_))
    · exact confines_loadInt (by decide) _ _ _ a ha
    · rcases List.mem_cons.mp hi with rfl | hi
      · exact Keeps.of_quiet rfl
      · obtain ⟨⟨off, k⟩, hmem, hi⟩ := List.mem_flatMap.mp hi
        obtain ⟨hk, hle⟩ := mem_wordChunks hmem
        exact confined_selectChunk hk (h.piece hle) i hi
  · split
    · next hblend => exact .pure (confined_blend (hblend.2.1 ▸ h))
    · refine .eachLane fun i hi => .bind fun _ _ => .bind fun a ha => .pure ?_
      rw [straight_append]
      refine .append (.quiet rfl) (.straight (confined_selectChunk ?_ (h.lane hi)))
      exact size_of_access ha

theorem confines_passArgs {args : List Operand} {ints : List Reg} (vecs : Nat)
    (hints : ∀ r ∈ ints, r ≠ .rbp) : Confines d n (c.passArgs args ints vecs) := by
  induction args generalizing ints vecs with
  | nil => exact .pure .nil
  | cons a args ih =>
    unfold Context.passArgs
    refine .bind fun t _ => ?_
    dsimp only
    split
    · exact .append (confines_loadX _ _ _) (ih _ hints)
    · split
      · obtain ⟨hr, hrest⟩ := List.forall_mem_cons.mp hints
        exact .append (confines_loadInt hr _ _ _) (ih _ hrest)
      · exact .error

theorem confines_call (h : Lands d n p x.type.size) : Confines d n (c.call x p) := by
  unfold Context.call
  split
  · exact .error
  · refine .bind fun loaded hl => .bind fun target ht => ?_
    have hcall : Confined d n (loaded ++ target ++ straight [.call .r11]) :=
      ((confines_passArgs 0 (by decide) loaded hl).append
        (confines_loadInt (by decide) _ _ _ target ht)).append (.straight fun i hi => by
          rw [List.mem_singleton.mp hi]
          exact Keeps.call)
    have hend : ∀ result : Code, Confined d n result →
        Confines d n (pure (loaded ++ target ++ straight [.call .r11] ++ result)) :=
      fun result hr => .pure (hcall.append hr)
    dsimp only
    split
    · exact hend [] .nil
    · split
      · exact .bind fun result hr => hend result (confines_storeX h result hr)
      · next hreg =>
        refine .bind fun result hr => hend result (confines_storeInt (by decide) ?_ result hr)
        rwa [size_of_inReg hreg] at h

theorem confines_constant (h : Lands d n p x.type.size) : Confines d n (constant x p) := by
  unfold constant
  split
  · refine .bind fun data hdata => .pure (confined_storeBytes ?_)
    rwa [length_bytesOfLanes hdata]
  · refine .bind fun w hw => .pure ?_
    exact .stored (by simp [quiet_movImm]) rfl (by rwa [bytes_ofSize hw])

theorem confines_shuffle (h : Lands d n p x.type.size)
    (hmask : (x.mask.getD []).length = x.type.numLanes) : Confines d n (c.shuffle x p) := by
  unfold Context.shuffle
  refine .bind fun _ _ => .mapM fun a ha => ?_
  obtain ⟨m, i⟩ := a
  have hi : i < x.type.numLanes := by
    rw [← hmask]
    exact (List.getElem?_eq_some_iff.mp (List.mem_zipIdx_iff_getElem?.mp ha)).1
  dsimp only
  split
  · refine .bind fun w hw => .pure ?_
    exact .stored rfl rfl (by rw [bytes_ofSize hw]; exact h.lane hi)
  · split
    · exact .bind fun _ _ => .pure (confined_copy (h.lane hi))
    · exact .bind fun _ _ => .pure (confined_copy (h.lane hi))

theorem confines_intrinsicCode (h : Lands d n p x.type.size) : Confines d n (c.intrinsicCode x p) := by
  unfold Context.intrinsicCode
  refine .bind fun op _ => .bind fun _ _ => .bind fun _ _ => .bind fun first hfirst => ?_
  have hfirst := confines_loadX (d := d) (n := n) _ _ _ first hfirst
  split
  · refine .bind fun a ha => .bind fun b hb => .pure ?_
    exact ((hfirst.append (confines_loadX _ _ _ a ha)).append (.quiet rfl)).append
      (confines_storeX h b hb)
  · refine .bind fun b hb => .pure ?_
    exact (hfirst.append (.quiet rfl)).append (confines_storeX h b hb)

/-! ## Values with their types -/

theorem size_of_maskType {s t : Ty} (hv : s.isVector = true) (h : s.maskType = .ok t) :
    t.size = s.size := by
  cases s with
  | scalar k => cases hv
  | vec e m =>
    obtain ⟨k, rfl, hsize⟩ := maskType_vec h
    exact congrArg (m.toNat * ·) hsize

/-- The types that a value is checked with are those of its arguments. -/
theorem argType_of_argument {f : Func} {i : Nat} {a : Value} {ts : List Ty}
    (hts : List.Forall₂ f.OfType x.args ts) (h : f.argument x i = .ok a) : ts[i]? = some a.type := by
  obtain ⟨o, ho, hfind⟩ := Outcome.bind_eq_ok.mp h
  have ho := Outcome.at?_eq_ok.mp ho
  obtain ⟨hlt, rfl⟩ := List.getElem?_eq_some_iff.mp ho
  have hlt' : i < ts.length := hts.length_eq ▸ hlt
  obtain ⟨a', hfind', htype⟩ := (List.forall₂_iff_get.mp hts).2 i hlt hlt'
  obtain rfl := Except.ok.inj (hfind.symm.trans hfind')
  rw [List.getElem?_eq_getElem hlt', htype]
  rfl

section typed

variable {ts : List Ty} {home : Prop}

theorem confines_conversion {ls : Labels} (hts : List.Forall₂ c.func.OfType x.args ts)
    (hty : Func.WellTyped x ts home) (hop : x.op.isCast = true) (hne : x.op ≠ .bitcast)
    (h : Lands d n (c.home v) x.type.size) {ls' : Labels} (hcode : c.conversion v x ls = .ok (code, ls')) :
    Confined d n code := by
  obtain ⟨source, hsource, hcode⟩ := Outcome.bind_eq_ok.mp hcode
  obtain ⟨o, -, hcode⟩ := Outcome.bind_eq_ok.mp hcode
  dsimp only at hcode
  split at hcode
  · next hvector =>
    cases hcode
    exact confined_vectorCast hvector h
  · obtain ⟨lanes, hlanes, hcode⟩ := Outcome.bind_eq_ok.mp hcode
    cases hcode
    refine Confines.eachLane (fun i hi => confines_cast (h.lane hi) fun hfloat => ?_) _ hlanes
    rw [Func.WellTyped, Op.isBinary_of_isCast hop, if_neg Bool.false_ne_true, if_pos hop] at hty
    obtain ⟨s, rfl, hrule⟩ := hty
    obtain ⟨-, hconv⟩ := converts_of_castRule hop hne hrule
    rcases hfloat with hfloat | hfloat <;> rw [hfloat] at hconv <;> exact hconv.2

/-- A lane number that the verifier has looked at. -/
theorem offset_of_laneOf {t : Ty} {size : Nat} (h : Func.LaneOf x t) :
    p.offset (x.aux * Int64.ofNat size) = shift p (x.aux.toInt.toNat * size) := by
  have haux : Int64.ofNat x.aux.toInt.toNat = x.aux := by
    apply Int64.toInt.inj
    have hlt := x.aux.toInt_lt
    have hpos := h.1
    rw [Int64.toInt_ofNat_of_lt (by omega)]
    omega
  rw [shift, Int64.ofNat_mul, haux]

theorem argType_of_typeOf {i : Nat} {t : Ty} (hts : List.Forall₂ c.func.OfType x.args ts)
    (h : c.typeOf x i = .ok t) : ts[i]? = some t := by
  obtain ⟨a, ha, h⟩ := Outcome.bind_eq_ok.mp h
  cases h
  exact argType_of_argument hts ha

theorem confines_binaryCode (hty : Func.WellTyped x ts home) (hop : x.op.isBinary = true)
    (h : Lands d n p x.type.size) : Confines d n (c.binaryCode x p) := by
  have hfloat : x.op.isFloatBinary = true → x.type.elemKind = .f32 := fun hf => by
    rw [Func.WellTyped, if_pos hop, if_pos hf] at hty
    simpa [Ty.isFloat] using hty.2
  unfold Context.binaryCode
  dsimp only
  split
  · exact .pure .nil
  refine .bind fun a _ => .bind fun b _ => ?_
  split
  · next code hcode =>
    refine .pure ?_
    split at hcode
    · exact confined_vectorBinary hcode h
    · cases hcode
  · exact .eachLane fun i hi => confines_scalarBinary (h.lane hi) hfloat

theorem confines_unaryCode (hfloat : x.type.isFloat = true) (h : Lands d n p x.type.size) :
    Confines d n (c.unaryCode x p) := by
  have hk : x.type.elemKind = .f32 := by simpa [Ty.isFloat] using hfloat
  have hsize : x.type.size = x.type.numLanes * 4 := congrArg (x.type.numLanes * Kind.size ·) hk
  unfold Context.unaryCode
  split
  · next h16 =>
    refine .bind fun a _ => .pure ?_
    exact .stored rfl rfl (h16.2 ▸ h)
  · refine .eachLane fun i hi => .bind fun _ _ => .pure (confined_scalarUnary ?_)
    exact Lands.lane (hsize ▸ h) hi

theorem confines_compareCode {s : Ty} (hts : List.Forall₂ c.func.OfType x.args [s, s])
    (hmask : s.maskType = .ok x.type) (h : Lands d n p x.type.size) :
    Confines d n (c.compareCode x p) := by
  unfold Context.compareCode
  refine .bind fun source hsource => ?_
  obtain rfl : s = source := by simpa using argType_of_typeOf hts hsource
  split
  · exact .pure .nil
  refine .bind fun a _ => .bind fun b _ => ?_
  split
  · next hscalar =>
    have htype : x.type = .i1 := by
      cases s with
      | scalar k => exact (Except.ok.inj hmask).symm
      | vec e m => simp [Ty.isVector] at hscalar
    rw [htype] at h
    exact .append (confines_compare _ _ _ _) (confines_storeInt (by decide) h)
  · next hvector =>
    have hbytes : Lands d n p (s.numLanes * s.elemKind.size) := by
      have hsize := size_of_maskType (by simpa using hvector) hmask
      rwa [hsize] at h
    split
    · next code hcode => exact .pure (confined_vectorCompare hcode hbytes)
    · refine .eachLane fun i hi => .bind fun c hc => .bind fun w hw => .pure ?_
      refine .append (confines_compare _ _ _ _ c hc) ?_
      refine .stored rfl rfl ?_
      rw [bytes_ofSize hw]
      exact hbytes.lane hi

theorem confines_loadCode (h : Lands d n p x.type.size) : Confines d n (c.loadCode x p) := by
  unfold Context.loadCode
  refine .bind fun _ _ => .bind fun address ha => ?_
  have haddress := confines_loadInt (d := d) (n := n) (by decide) _ _ _ address ha
  split
  · next hkind =>
    have htype : x.type = .i1 := by
      cases hx : x.type with
      | scalar k =>
        have hk : (Ty.scalar k).kind = .i1 := hx ▸ hkind
        exact congrArg Ty.scalar hk
      | vec e m =>
        have hk : (Ty.vec e m).kind = .i1 := hx ▸ hkind
        cases hk
    rw [htype] at h
    refine .bind fun r hr => .pure ((haddress.append (.quiet rfl)).append ?_)
    exact confines_storeInt (by decide) h r hr
  · exact .pure (haddress.append (confined_copy h))

theorem confines_storeCode : Confines d n (c.storeCode x) := by
  refine .bind fun _ _ => .bind fun address ha => .bind fun _ _ => .bind fun _ _ => .pure ?_
  exact (confines_loadInt (by decide) _ _ _ address ha).append (confined_copy (.based (by decide)))

theorem confines_gepCode (htype : x.type = .ptr) (h : Lands d n p x.type.size) :
    Confines d n (c.gepCode x p) := by
  rw [htype] at h
  refine .bind fun _ _ => .bind fun base hb => .bind fun _ _ => .bind fun _ _ =>
    .bind fun index hi => .pure (.append (.append ?_ ?_) ?_)
  · exact confines_loadInt (by decide) _ _ _ base hb
  · exact confines_loadInt (by decide) _ _ _ index hi
  · rw [straight_append]
    refine .append (.quiet ?_) (.stored rfl rfl h)
    unfold Context.scaled
    split <;> rfl

theorem confines_insertCode (hlane : Func.LaneOf x x.type) (h : Lands d n p x.type.size) :
    Confines d n (c.insertCode x p) := by
  refine .bind fun _ _ => .bind fun _ _ => .pure ((confined_copy h).append (confined_copy ?_))
  rw [offset_of_laneOf hlane]
  have hpos := hlane.1
  have hlt := hlane.2
  exact h.lane (by omega)

theorem confines_plain (hts : List.Forall₂ c.func.OfType x.args ts) (hty : Func.WellTyped x ts home)
    (h : Lands d n (c.home v) x.type.size) : Confines d n (c.plain v x) := by
  rw [Context.plain_eq]
  split
  · next hbin => exact confines_binaryCode hty hbin h
  next hbin =>
  have hbin : x.op.isBinary = false := by simpa using hbin
  rw [Func.WellTyped, hbin, if_neg Bool.false_ne_true] at hty
  split
  case h_1 => exact confines_constant h
  case h_2 hop =>
    rw [hop] at hty
    have htype : x.type = .ptr := hty.2.1
    rw [htype] at h
    exact .pure (.stored rfl rfl h)
  case h_3 hop | h_4 hop =>
    rw [hop] at hty
    exact confines_unaryCode hty.1 h
  case h_5 hop | h_6 hop =>
    rw [hop] at hty
    obtain ⟨s, rfl, hmask, -⟩ := hty
    exact confines_compareCode hts hmask h
  case h_7 | h_8 => exact .bind fun _ _ => .pure (confined_copy h)
  case h_9 => exact confines_loadCode h
  case h_10 => exact confines_storeCode
  case h_11 hop =>
    rw [hop] at hty
    exact confines_gepCode hty.1 h
  case h_12 => exact .bind fun _ _ => .pure (confined_copy h)
  case h_13 hop =>
    rw [hop] at hty
    exact confines_insertCode hty.2.2 h
  case h_14 hop =>
    rw [hop] at hty
    obtain ⟨s, -, -, -, -, hmask, -⟩ := hty
    exact confines_shuffle h hmask
  case h_15 => exact confines_select h
  case h_16 => exact confines_call h
  case h_17 => exact confines_intrinsicCode h
  case h_18 => exact .error

/-- The code of a value is confined to the bytes that a value of its type takes. -/
theorem confined_value {ls ls' : Labels} (hts : List.Forall₂ c.func.OfType x.args ts)
    (hty : Func.WellTyped x ts home) (h : Lands d n (c.home v) x.type.size)
    (hcode : c.value v x ls = .ok (code, ls')) : Confined d n code := by
  unfold Context.value at hcode
  split at hcode
  · next hop =>
    cases hcode
    rw [Func.WellTyped, hop] at hty
    have htype : x.type = .ptr := hty.2
    rw [htype] at h
    exact .stored rfl rfl h
  · split at hcode
    · next hop => exact confines_conversion hts hty hop.1 hop.2 h hcode
    · obtain ⟨_, hplain, hcode⟩ := Outcome.bind_eq_ok.mp hcode
      cases hcode
      exact confines_plain hts hty h _ hplain

end typed

end SsaJit.Lower
