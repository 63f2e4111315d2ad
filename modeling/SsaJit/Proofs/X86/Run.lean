import SsaJit.Lower.Scalar
import SsaJit.Proofs.X86.Memory
import SsaJit.X86.Machine

/-! What generated code does before it is bytes. Instructions act on a machine as their encodings do;
a jump goes on behind the mark of its label, wherever in the program that stands. `Runs` goes from one
place in a program to another and `Traps` says that a run stops short; both are decided by the program
and the machine, so that a fragment that runs to its end does not trap. -/

namespace SsaJit.X86

/-! ## Registers -/

theorem Reg.code_inj {r s : Reg} : r.code = s.code ↔ r = s :=
  ⟨fun h => by rw [← Reg.ofCode_code r, h, Reg.ofCode_code], fun h => h ▸ rfl⟩

namespace Machine

@[simp] theorem reg_setReg_self (m : Machine) (r : Reg) (w : UInt64) : (m.setReg r w).reg r = w := by
  simp [reg, setReg]

theorem reg_setReg_ne (m : Machine) {r s : Reg} (w : UInt64) (h : r ≠ s) :
    (m.setReg r w).reg s = m.reg s := by
  have hcode : (r.code : Nat) ≠ s.code := fun hc => h (Reg.code_inj.mp (Fin.ext hc))
  simp [reg, setReg, Vector.getElem_set_ne, hcode]

@[simp] theorem mem_setReg (m : Machine) (r : Reg) (w : UInt64) : (m.setReg r w).mem = m.mem := rfl
@[simp] theorem flags_setReg (m : Machine) (r : Reg) (w : UInt64) :
    (m.setReg r w).flags = m.flags := rfl
@[simp] theorem xmm_setReg (m : Machine) (r : Reg) (w : UInt64) (x : XReg) :
    (m.setReg r w).xmm x = m.xmm x := rfl

@[simp] theorem xmm_setXmm_self (m : Machine) (x : XReg) (v : Xmm) : (m.setXmm x v).xmm x = v := by
  simp [xmm, setXmm]

theorem xmm_setXmm_ne (m : Machine) {x y : XReg} (v : Xmm) (h : x ≠ y) :
    (m.setXmm x v).xmm y = m.xmm y := by
  have hne : (x : Nat) ≠ y := fun hc => h (Fin.ext hc)
  simp [xmm, setXmm, Vector.getElem_set_ne, hne]

@[simp] theorem mem_setXmm (m : Machine) (x : XReg) (v : Xmm) : (m.setXmm x v).mem = m.mem := rfl
@[simp] theorem flags_setXmm (m : Machine) (x : XReg) (v : Xmm) :
    (m.setXmm x v).flags = m.flags := rfl
@[simp] theorem reg_setXmm (m : Machine) (x : XReg) (v : Xmm) (r : Reg) :
    (m.setXmm x v).reg r = m.reg r := rfl

@[simp] theorem reg_store (m : Machine) (a : UInt64) (n : Nat) (w : UInt64) (r : Reg) :
    (m.store a n w).reg r = m.reg r := rfl
@[simp] theorem mem_store (m : Machine) (a : UInt64) (n : Nat) (w : UInt64) :
    (m.store a n w).mem = m.mem.writeWord a n w := by
  simp only [store]
@[simp] theorem reg_storeX (m : Machine) (a : UInt64) (x : Xmm) (r : Reg) :
    (m.storeX a x).reg r = m.reg r := by
  simp only [storeX, reg]
@[simp] theorem mem_storeX (m : Machine) (a : UInt64) (x : Xmm) :
    (m.storeX a x).mem = m.mem.write a x.bytes := by
  simp only [storeX]

end Machine

/-! ## Instructions in line -/

/-- The same place with code addresses translated. -/
def Mem.map {τ σ : Type} (g : τ → σ) : Mem τ → Mem σ
  | .based b d => .based b d
  | .code t => .code (g t)

/-- The same instruction with code addresses translated. -/
def Instr.map {τ σ : Type} (g : τ → σ) : Instr τ → Instr σ
  | .alu op dst src => .alu op dst src
  | .aluImm op r imm => .aluImm op r imm
  | .movImm64 r imm => .movImm64 r imm
  | .movImm32 r imm => .movImm32 r imm
  | .load dst p a => .load dst (p.map g) a
  | .store p src w => .store (p.map g) src w
  | .lea dst p => .lea dst (p.map g)
  | .imul dst src => .imul dst src
  | .imulImm dst src imm => .imulImm dst src imm
  | .unary op r => .unary op r
  | .cqo => .cqo
  | .shift op r => .shift op r
  | .shrImm r n => .shrImm r n
  | .setcc cc r => .setcc cc r
  | .movzx8 dst src => .movzx8 dst src
  | .cmov cc dst src => .cmov cc dst src
  | .push r => .push r
  | .pop r => .pop r
  | .jmp t => .jmp (g t)
  | .jcc cc t => .jcc cc (g t)
  | .call r => .call r
  | .leave => .leave
  | .ret => .ret
  | .ud2 => .ud2
  | .sse code dst src imm => .sse code dst src imm
  | .movdquLoad x p => .movdquLoad x (p.map g)
  | .movdquStore p x => .movdquStore (p.map g) x
  | .movssLoad x p => .movssLoad x (p.map g)
  | .movssStore p x => .movssStore (p.map g) x
  | .movqToX x r => .movqToX x r
  | .movqFromX r x => .movqFromX r x
  | .cvtsi2ss x r => .cvtsi2ss x r
  | .cvttss2si r x => .cvttss2si r x

/-- Does control go on with the next instruction, and does the instruction do without addresses of
code? What a call, a return or a code address does depends on where the code lies. -/
def Instr.isInline {τ : Type} (i : Instr τ) : Bool :=
  match i with
  | .call _ | .ret => false
  | i => i.target?.isNone

/-- A vector instruction is known by its code. -/
theorem SseOp.ofCode?_code (op : SseOp) : SseOp.ofCode? op.code = some op := by
  cases op with
  | scalar f | packed f => cases f <;> decide +kernel
  | _ => decide +kernel

theorem Machine.sse_of_apply {m : Machine} {op : SseOp} {dst src : XReg} {imm : Option UInt8}
    {x : Xmm} (hne : op ≠ .ucomiss)
    (h : op.apply (imm.getD 0) (m.xmm dst) (m.xmm src) = some x) :
    m.sse op.code dst src imm = .ok (m.setXmm dst x) := by
  unfold Machine.sse
  rw [SseOp.ofCode?_code]
  split
  · next heq => cases heq
  · next heq => exact absurd (Option.some.inj heq) hne
  · next heq =>
    rw [← Option.some.inj heq, h]

/-- Carry out an instruction in line. -/
def Machine.inline (m : Machine) (i : Instr Label) : Except Trap Machine :=
  if i.isInline then m.exec (i.map fun _ => 0) else .error .badCode

end SsaJit.X86

namespace SsaJit.Lower

open X86

/-! ## Programs -/

/-- The code behind the mark of a label. -/
def behind (l : Label) : Code → Option Code
  | [] => none
  | .mark k :: rest => if k = l then some rest else behind l rest
  | .instr _ :: rest => behind l rest

/-- Go to a label of the program. -/
def jumpTo (prog : Code) (l : Label) (m : Machine) : Except Trap (Code × Machine) :=
  match behind l prog with
  | some rest => .ok (rest, m)
  | none => .error .badCode

/-- Carry out an item before `rest`: the code to go on with, and the machine. -/
def advance (prog : Code) (item : Item) (rest : Code) (m : Machine) :
    Except Trap (Code × Machine) :=
  match item with
  | .mark _ => .ok (rest, m)
  | .instr (.jmp l) => jumpTo prog l m
  | .instr (.jcc cc l) => if cc.holds m.flags then jumpTo prog l m else .ok (rest, m)
  | .instr i => (m.inline i).map (rest, ·)

/-- In program `prog`, control comes from before `c` to before `c'`. -/
inductive Runs (prog : Code) : Code → Machine → Code → Machine → Prop
  | refl {c : Code} {m : Machine} : Runs prog c m c m
  | step {i : Item} {rest c c' : Code} {m m' m'' : Machine} :
      advance prog i rest m = .ok (c, m') → Runs prog c m' c' m'' → Runs prog (i :: rest) m c' m''

/-- In program `prog`, control that is before `c` comes to an item that stops the machine. -/
def Traps (prog c : Code) (m : Machine) (t : Trap) : Prop :=
  ∃ i rest m', Runs prog c m (i :: rest) m' ∧ advance prog i rest m' = .error t

variable {prog c c' c'' rest : Code} {m m' m'' : Machine} {t : Trap}

theorem Runs.trans (h : Runs prog c m c' m') (h' : Runs prog c' m' c'' m'') :
    Runs prog c m c'' m'' := by
  induction h with
  | refl => exact h'
  | step hstep _ ih => exact .step hstep (ih h')

theorem Runs.traps (h : Runs prog c m c' m') (h' : Traps prog c' m' t) : Traps prog c m t := by
  obtain ⟨i, rest, m'', hrun, hstop⟩ := h'
  exact ⟨i, rest, m'', h.trans hrun, hstop⟩

/-- Code that runs to its end does not stop the machine. -/
theorem Runs.not_traps (h : Runs prog c m [] m') : ¬ Traps prog c m t := by
  generalize hend : ([] : Code) = e at h
  induction h with
  | refl =>
    rintro ⟨i, rest, m'', hrun, -⟩
    subst hend
    cases hrun
  | step hstep _ ih =>
    rintro ⟨i, rest, m'', hrun, hstop⟩
    cases hrun with
    | refl => rw [hstep] at hstop; cases hstop
    | step hstep' hrun =>
      rw [hstep] at hstep'
      cases hstep'
      exact ih hend ⟨i, rest, m'', hrun, hstop⟩

/-- Carry out instructions one after the other. -/
def execAll (is : List (Instr Label)) (m : Machine) : Except Trap Machine :=
  is.foldlM Machine.inline m

@[simp] theorem execAll_nil : execAll [] m = .ok m := rfl

theorem execAll_cons {i : Instr Label} {is : List (Instr Label)} :
    execAll (i :: is) m = m.inline i >>= execAll is := rfl

theorem execAll_one {i : Instr Label} : execAll [i] m = m.inline i := by
  rw [execAll_cons]
  cases m.inline i <;> rfl

theorem execAll_append_error {is js : List (Instr Label)} (h : execAll is m = .error t) :
    execAll (is ++ js) m = .error t := by
  rw [execAll, List.foldlM_append]
  change execAll is m >>= execAll js = _
  rw [h]
  rfl

/-- One list of instructions after another. -/
theorem execAll_append {is js : List (Instr Label)} (h : execAll is m = .ok m') :
    execAll (is ++ js) m = execAll js m' := by
  rw [execAll, List.foldlM_append]
  change execAll is m >>= execAll js = _
  rw [h]
  rfl

theorem advance_inline {i : Instr Label} (hi : i.isInline = true) :
    advance prog (.instr i) rest m = (m.inline i).map (rest, ·) := by
  cases i <;> first | rfl | simp [Instr.isInline, Instr.target?] at hi

theorem isInline_of_ok {i : Instr Label} (h : m.inline i = .ok m') : i.isInline = true := by
  unfold Machine.inline at h
  split at h
  · assumption
  · cases h

theorem straight_append (is js : List (Instr Label)) :
    straight (is ++ js) = straight is ++ straight js := List.map_append

theorem runs_straight {is : List (Instr Label)} (h : execAll is m = .ok m') :
    Runs prog (straight is ++ rest) m rest m' := by
  induction is generalizing m with
  | nil =>
    cases h
    exact .refl
  | cons i is ih =>
    rw [execAll_cons] at h
    cases hi : m.inline i with
    | error e => rw [hi] at h; cases h
    | ok m₁ =>
      rw [hi] at h
      refine .step ?_ (ih h)
      rw [advance_inline (isInline_of_ok hi), hi]
      rfl

theorem traps_straight {is : List (Instr Label)} (hin : ∀ i ∈ is, i.isInline = true)
    (h : execAll is m = .error t) : Traps prog (straight is ++ rest) m t := by
  induction is generalizing m with
  | nil => cases h
  | cons i is ih =>
    have hstep : advance prog (.instr i) (straight is ++ rest) m =
        (m.inline i).map (straight is ++ rest, ·) := advance_inline (hin i List.mem_cons_self)
    rw [execAll_cons] at h
    cases hi : m.inline i with
    | error e =>
      rw [hi] at h hstep
      cases h
      exact ⟨_, _, m, .refl, hstep⟩
    | ok m₁ =>
      rw [hi] at h hstep
      have hrun : Runs prog (straight (i :: is) ++ rest) m (straight is ++ rest) m₁ :=
        .step hstep .refl
      exact hrun.traps (ih (fun j hj => hin j (List.mem_cons_of_mem _ hj)) h)

end SsaJit.Lower

/-! ## What instructions leave alone

What an instruction can change at most: the registers that it names as its targets, and the bytes of
the place that it stores to. -/

namespace SsaJit.X86

variable {τ : Type} {m m' : Machine} {r : Reg}

namespace Instr

/-- Registers that an instruction may change. -/
def sets : Instr τ → List Reg
  | .alu _ r _ | .aluImm _ r _ | .movImm64 r _ | .movImm32 r _ | .load r _ _ | .lea r _
  | .imul r _ | .imulImm r _ _ | .shift _ r | .shrImm r _ | .setcc _ r | .movzx8 r _
  | .cmov _ r _ | .movqFromX r _ | .cvttss2si r _ => [r]
  | .unary _ r => [r, .rax, .rdx]
  | .cqo => [.rdx]
  | .push _ | .call _ | .ret => [.rsp]
  | .pop r => [r, .rsp]
  | .leave => [.rsp, .rbp]
  | _ => []

/-- The place that an instruction stores to, and how many bytes. -/
def stores? : Instr τ → Option (Mem τ × Nat)
  | .store p _ w => some (p, w.bytes)
  | .movdquStore p _ => some (p, 16)
  | .movssStore p _ => some (p, 4)
  | _ => none

/-- Does the instruction write below the stack pointer? -/
def pushes : Instr τ → Bool
  | .push _ | .call _ => true
  | _ => false

@[simp] theorem sets_map {σ : Type} (g : τ → σ) (i : Instr τ) : (i.map g).sets = i.sets := by
  cases i <;> rfl

@[simp] theorem stores?_map {σ : Type} (g : τ → σ) (i : Instr τ) :
    (i.map g).stores? = i.stores?.map fun x => (x.1.map g, x.2) := by
  cases i <;> rfl

@[simp] theorem pushes_map {σ : Type} (g : τ → σ) (i : Instr τ) : (i.map g).pushes = i.pushes := by
  cases i <;> rfl

end Instr

namespace Machine

theorem reg_alu {op : Alu} {dst : Reg} {w : UInt64} (h : r ≠ dst) : (m.alu op dst w).reg r = m.reg r := by
  cases op <;> first | rfl | exact m.reg_setReg_ne _ h.symm

theorem mem_alu {op : Alu} {dst : Reg} {w : UInt64} : (m.alu op dst w).mem = m.mem := by
  cases op <;> rfl

theorem reg_goTo (m : Machine) (w : UInt64) : ({ m with rip := w }).reg r = m.reg r := rfl

theorem reg_push {w : UInt64} (h : r ≠ .rsp) : (m.push w).reg r = m.reg r := by
  simp only [push, reg_store]
  exact m.reg_setReg_ne _ h.symm

theorem divide_eq {w : UInt64} (h : m.divide w = .ok m') :
    ∃ q rest, m' = (m.setReg .rax q).setReg .rdx rest := by
  unfold divide at h
  dsimp only at h
  split at h
  · cases h
  · exact ⟨_, _, (Except.ok.inj h).symm⟩

theorem divideSigned_eq {w : UInt64} (h : m.divideSigned w = .ok m') :
    ∃ q rest, m' = (m.setReg .rax q).setReg .rdx rest := by
  unfold divideSigned at h
  dsimp only at h
  split at h
  · cases h
  · exact ⟨_, _, (Except.ok.inj h).symm⟩

theorem unary_spec {op : Unary} {dst : Reg} (h : m.unary op dst = .ok m') :
    m'.mem = m.mem ∧ ∀ r ∉ [dst, .rax, .rdx], m'.reg r = m.reg r := by
  have hdivided : (∃ q rest, m' = (m.setReg .rax q).setReg .rdx rest) →
      m'.mem = m.mem ∧ ∀ r ∉ [dst, .rax, .rdx], m'.reg r = m.reg r := by
    rintro ⟨q, rest, rfl⟩
    refine ⟨rfl, fun r hr => ?_⟩
    simp only [List.mem_cons, List.not_mem_nil, or_false, not_or] at hr
    rw [reg_setReg_ne _ _ (Ne.symm hr.2.2), reg_setReg_ne _ _ (Ne.symm hr.2.1)]
  unfold unary at h
  cases op with
  | not | neg =>
    cases h
    exact ⟨rfl, fun r hr => m.reg_setReg_ne _ fun heq => hr (heq ▸ List.mem_cons_self)⟩
  | div => exact hdivided (divide_eq h)
  | idiv => exact hdivided (divideSigned_eq h)

theorem sse_spec {code : SseCode} {dst src : XReg} {imm : Option UInt8}
    (h : m.sse code dst src imm = .ok m') : m'.mem = m.mem ∧ ∀ r, m'.reg r = m.reg r := by
  unfold sse at h
  split at h
  · cases h
  · cases h
    exact ⟨rfl, fun _ => rfl⟩
  · split at h
    · cases h
      exact ⟨rfl, fun _ => rfl⟩
    · cases h

/-- Registers that an instruction does not name as targets keep their values. -/
theorem exec_reg {i : Decoded} (h : m.exec i = .ok m') (hr : r ∉ i.sets) : m'.reg r = m.reg r := by
  cases i with
  | unary op s => exact (unary_spec h).2 r hr
  | sse code dst src imm => exact (sse_spec h).2 r
  | ud2 => cases h
  | alu op dst src =>
    cases h
    exact reg_alu fun heq => hr (heq ▸ List.mem_cons_self)
  | aluImm op dst imm =>
    cases h
    exact reg_alu fun heq => hr (heq ▸ List.mem_cons_self)
  | jcc cc d =>
    simp only [exec] at h
    cases h
    split <;> rfl
  | cmov cc dst src =>
    simp only [exec] at h
    cases h
    split
    · exact m.reg_setReg_ne _ fun heq => hr (heq ▸ List.mem_cons_self)
    · rfl
  | leave | pop =>
    simp only [exec, pop] at h
    cases h
    simp only [Instr.sets, List.mem_cons, List.not_mem_nil, or_false, not_or] at hr
    simp only [reg_setReg_ne _ _ (Ne.symm hr.1), reg_setReg_ne _ _ (Ne.symm hr.2)]
  | store | movssStore =>
    cases h
    exact reg_store ..
  | movdquStore =>
    cases h
    exact reg_storeX ..
  | movdquLoad | movssLoad | movqToX | cvtsi2ss =>
    cases h
    exact reg_setXmm ..
  | jmp =>
    cases h
    rfl
  | push s =>
    simp only [exec] at h
    rw [← Except.ok.inj h, reg_push fun heq : r = .rsp => hr (heq ▸ List.mem_cons_self)]
  | call s =>
    simp only [exec] at h
    rw [← Except.ok.inj h, reg_goTo, reg_push fun heq : r = .rsp => hr (heq ▸ List.mem_cons_self)]
  | _ =>
    cases h
    exact reg_setReg_ne _ _ fun heq => hr (heq ▸ List.mem_cons_self)

/-- Bytes stay as they are unless the instruction stores to them or uses the stack. -/
theorem exec_mem {i : Decoded} {a : UInt64} (h : m.exec i = .ok m') (hp : i.pushes = false)
    (ha : ∀ p n, i.stores? = some (p, n) → ¬ Memory.Within (m.address p) n a) :
    m'.mem.get a = m.mem.get a := by
  cases i with
  | unary op s => rw [(unary_spec h).1]
  | sse code dst src imm => rw [(sse_spec h).1]
  | ud2 => cases h
  | push | call => cases hp
  | alu =>
    cases h
    rw [mem_alu]
  | aluImm =>
    cases h
    rw [mem_alu]
  | jcc cc d =>
    simp only [exec] at h
    cases h
    split <;> rfl
  | cmov cc dst src =>
    simp only [exec] at h
    cases h
    split <;> rfl
  | store p src w =>
    cases h
    have hlen := length_leBytes w.bytes (m.reg src)
    refine Memory.get_write_of_not_within ?_ ?_
    · rw [hlen]
      cases w <;> decide
    · rw [hlen]
      exact ha p _ rfl
  | movdquStore p x =>
    cases h
    have hlen : (m.xmm x).bytes.length = 16 := by simp [Xmm.bytes]
    refine Memory.get_write_of_not_within ?_ ?_
    · rw [hlen]
      decide
    · rw [hlen]
      exact ha p _ rfl
  | movssStore p x =>
    cases h
    have hlen := length_leBytes 4 (m.xmm x).lo
    refine Memory.get_write_of_not_within ?_ ?_
    · rw [hlen]
      decide
    · rw [hlen]
      exact ha p _ rfl
  | _ =>
    cases h
    rfl

end Machine

end SsaJit.X86
