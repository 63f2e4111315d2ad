import SsaJit.Proofs.Lower.Marks
import SsaJit.Proofs.X86.Run

/-! Everything that generated code may do. What an address of code is, what the estimates of reciprocals
give and what a callee does is left open, and a conditional jump may go either way; only that the callee
gives back rbp and that stores through pointers spare certain cells of the frame is asked for. A property
of every course of a program is proved from assertions at its labels: `Safe` follows the code from one
label to the next. -/

namespace SsaJit.X86

/-- Where a jump leads. -/
def Instr.jump? {τ : Type} : Instr τ → Option τ
  | .jmp t | .jcc _ t => some t
  | _ => none

/-- The instruction stores through another register than rbp. -/
def Instr.ViaPointer {τ : Type} (i : Instr τ) : Prop :=
  ∃ b d n, i.stores? = some (.based b d, n) ∧ b ≠ .rbp

end SsaJit.X86

namespace SsaJit.Lower

open X86

variable {cells : Int32 → Prop} {prog code code' code'' rest : Code} {m m' m'' : Machine} {i : Instr Label}
  {is js : List (Instr Label)} {l : Label}

/-- The address of a cell of the frame. -/
abbrev cellAt (m : Machine) (d : Int32) : UInt64 := m.reg .rbp + d.toInt64.toUInt64

/-- The cells hold what they held. -/
def Spares (cells : Int32 → Prop) (m m' : Machine) : Prop :=
  ∀ d, cells d → m'.mem.get (cellAt m d) = m.mem.get (cellAt m d)

/-- The instruction is carried out and control goes on behind it. -/
inductive Carries (cells : Int32 → Prop) : Instr Label → Machine → Machine → Prop
  | inline {i : Instr Label} {m m' : Machine} (h : m.inline i = .ok m')
      (hs : i.ViaPointer → Spares cells m m') : Carries cells i m m'
  | stays {cc : Cond} {l : Label} {m : Machine} : Carries cells (.jcc cc l) m m
  | address {r : Reg} {l : Label} {m : Machine} (w : UInt64) :
      Carries cells (.lea r (.code l)) m (m.setReg r w)
  | estimate {op : SseCode} {dst src : XReg} {imm : Option UInt8} {m : Machine} (x : Xmm)
      (h : m.inline (.sse op dst src imm) = .error .badCode) :
      Carries cells (.sse op dst src imm) m (m.setXmm dst x)
  | callee {r : Reg} {m m' : Machine} (hrbp : m'.reg .rbp = m.reg .rbp) (hs : Spares cells m m') :
      Carries cells (.call r) m m'

/-- Control goes from before `code` to before `code'`. -/
inductive Step (cells : Int32 → Prop) (prog : Code) : Code → Machine → Code → Machine → Prop
  | mark {l : Label} {rest : Code} {m : Machine} : Step cells prog (.mark l :: rest) m rest m
  | jump {i : Instr Label} {l : Label} {rest code : Code} {m : Machine} (h : i.jump? = some l)
      (hb : behind l prog = some code) : Step cells prog (.instr i :: rest) m code m
  | instr {i : Instr Label} {rest : Code} {m m' : Machine} (h : Carries cells i m m') :
      Step cells prog (.instr i :: rest) m rest m'

/-- Any number of steps. -/
inductive Course (cells : Int32 → Prop) (prog : Code) : Code → Machine → Code → Machine → Prop
  | refl {code : Code} {m : Machine} : Course cells prog code m code m
  | step {code code' code'' : Code} {m m' m'' : Machine}
      (h : Course cells prog code m code' m') (hstep : Step cells prog code' m' code'' m'') :
      Course cells prog code m code'' m''

/-- What the machine does is among what may be done. -/
theorem Step.of_advance {item : Item} (h : advance prog item rest m = .ok (code, m'))
    (hs : ∀ i, item = .instr i → i.ViaPointer → Spares cells m m') :
    Step cells prog (item :: rest) m code m' := by
  have hjump : ∀ {i : Instr Label} {l : Label}, i.jump? = some l →
      jumpTo prog l m = .ok (code, m') → Step cells prog (.instr i :: rest) m code m' := by
    intro i l hi h
    unfold jumpTo at h
    split at h
    · next hb =>
      cases h
      exact .jump hi hb
    · cases h
  cases item with
  | mark l =>
    cases h
    exact .mark
  | instr i =>
    by_cases hi : i.isInline = true
    · rw [advance_inline hi] at h
      cases hm : m.inline i with
      | error e =>
        rw [hm] at h
        cases h
      | ok m₁ =>
        rw [hm] at h
        cases h
        exact .instr (.inline hm (hs i rfl))
    · cases i with
      | jmp l => exact hjump rfl h
      | jcc cc l =>
        simp only [advance] at h
        split at h
        · exact hjump rfl h
        · cases h
          exact .instr .stays
      | _ =>
        simp only [advance, Machine.inline, if_neg hi] at h
        cases h

/-- Behind the label is what follows the one place that binds it. -/
theorem behind_of_nodup {pre : Code} (hn : (marks prog).Nodup) (h : prog = pre ++ .mark l :: rest) :
    behind l prog = some rest := by
  subst h
  refine behind_append rest fun hl => ?_
  rw [marks_append, marks_cons_mark, List.nodup_append] at hn
  exact hn.2.2 l hl l List.mem_cons_self rfl

theorem suffix_of_behind (h : behind l prog = some code) : code <:+ prog := by
  induction prog with
  | nil => cases h
  | cons item prog ih =>
    cases item with
    | mark k =>
      rw [behind] at h
      split at h
      · cases h
        exact List.suffix_cons _ _
      · exact (ih h).trans (List.suffix_cons _ _)
    | instr i => exact (ih h).trans (List.suffix_cons _ _)

theorem Step.suffix (h : Step cells prog code m code' m') (hsuf : code <:+ prog) : code' <:+ prog := by
  cases h with
  | mark | instr => exact (List.suffix_cons _ _).trans hsuf
  | jump _ hb => exact suffix_of_behind hb

theorem Course.trans (h : Course cells prog code m code' m')
    (h' : Course cells prog code' m' code'' m'') : Course cells prog code m code'' m'' := by
  induction h' with
  | refl => exact h
  | step _ hstep ih => exact (ih h).step hstep

/-- A run of the machine is a course if nothing stores through a pointer. -/
theorem Course.of_runs (h : Runs prog code m code' m') (hsuf : code <:+ prog)
    (hs : ∀ i, .instr i ∈ prog → ¬ i.ViaPointer) : Course cells prog code m code' m' := by
  induction h with
  | refl => exact .refl
  | step hstep _ ih =>
    have hone : Step cells prog _ _ _ _ := .of_advance hstep fun i hi hvia =>
      absurd hvia (hs i (hi ▸ hsuf.subset List.mem_cons_self))
    exact (Course.step .refl hone).trans (ih (hone.suffix hsuf))

/-! ## Instructions in a row -/

/-- The instructions are carried out one after the other. -/
def Carried (cells : Int32 → Prop) : List (Instr Label) → Machine → Machine → Prop
  | [], m, m' => m' = m
  | i :: is, m, m' => ∃ m₁, Carries cells i m m₁ ∧ Carried cells is m₁ m'

theorem carried_append :
    Carried cells (is ++ js) m m'' ↔ ∃ m', Carried cells is m m' ∧ Carried cells js m' m'' := by
  induction is generalizing m with
  | nil => exact ⟨fun h => ⟨m, rfl, h⟩, by rintro ⟨_, rfl, h⟩; exact h⟩
  | cons i is ih =>
    constructor
    · rintro ⟨m₁, hi, h⟩
      obtain ⟨m', his, hjs⟩ := ih.mp h
      exact ⟨m', ⟨m₁, hi, his⟩, hjs⟩
    · rintro ⟨m', ⟨m₁, hi, his⟩, hjs⟩
      exact ⟨m₁, hi, ih.mpr ⟨m', his, hjs⟩⟩

theorem carried_one : Carried cells [i] m m' ↔ Carries cells i m m' := by
  constructor
  · rintro ⟨_, h, rfl⟩
    exact h
  · exact fun h => ⟨m', h, rfl⟩

/-- What the machine says an instruction does is all that it may do. -/
theorem Carries.unique (h : Carries cells i m m') (hm : m.inline i = .ok m'') : m' = m'' := by
  cases h with
  | inline h => exact Except.ok.inj (h.symm.trans hm)
  | estimate _ h =>
    rw [h] at hm
    cases hm
  | stays | address | callee => cases isInline_of_ok hm

theorem Carried.unique (h : Carried cells is m m') (hm : execAll is m = .ok m'') : m' = m'' := by
  induction is generalizing m with
  | nil =>
    cases hm
    exact h
  | cons i is ih =>
    obtain ⟨m₁, hi, h⟩ := h
    rw [execAll_cons] at hm
    cases hx : m.inline i with
    | error e =>
      rw [hx] at hm
      cases hm
    | ok m₂ =>
      rw [hx] at hm
      obtain rfl := hi.unique hx
      exact ih h hm

/-! ## Safe code -/

/-- From before the code on, `A` holds wherever control comes before the next label, and `E` at every
label that it comes to. -/
def Safe (cells : Int32 → Prop) (A : Code → Machine → Prop) (E : Label → Machine → Prop) :
    Code → Machine → Prop
  | [], m => A [] m
  | .mark l :: rest, m => A (.mark l :: rest) m ∧ E l m
  | .instr i :: rest, m => A (.instr i :: rest) m ∧ (∀ l, i.jump? = some l → E l m) ∧
      ∀ m', Carries cells i m m' → Safe cells A E rest m'

variable {A : Code → Machine → Prop} {E : Label → Machine → Prop}

theorem Safe.here (h : Safe cells A E code m) : A code m := by
  cases code with
  | nil => exact h
  | cons item rest =>
    cases item with
    | mark l => exact h.1
    | instr i => exact h.1

/-- If the code behind each label is safe under the label's assertion, then so is the code that a step
leads to. -/
theorem Safe.step (hn : (marks prog).Nodup)
    (hE : ∀ l code, behind l prog = some code → ∀ m, E l m → Safe cells A E code m)
    (hsuf : code <:+ prog) (h : Safe cells A E code m) (hstep : Step cells prog code m code' m') :
    Safe cells A E code' m' := by
  cases hstep with
  | mark =>
    obtain ⟨pre, hpre⟩ := hsuf
    exact hE _ _ (behind_of_nodup hn hpre.symm) _ h.2
  | jump hi hb => exact hE _ _ hb _ (h.2.1 _ hi)
  | instr hc => exact h.2.2 _ hc

/-- Wherever a course from safe code comes, `A` holds. -/
theorem Course.holds (hn : (marks prog).Nodup)
    (hE : ∀ l code, behind l prog = some code → ∀ m, E l m → Safe cells A E code m)
    (hsuf : code <:+ prog) (hsafe : Safe cells A E code m)
    (h : Course cells prog code m code' m') : A code' m' := by
  suffices hall : code' <:+ prog ∧ Safe cells A E code' m' from hall.2.here
  induction h with
  | refl => exact ⟨hsuf, hsafe⟩
  | step _ hstep ih =>
    obtain ⟨hsuf', hsafe'⟩ := ih hsafe
    exact ⟨hstep.suffix hsuf', hsafe'.step hn hE hsuf' hstep⟩

/-- Instructions without a jump are safe if `A` holds before each of them and what follows is safe. -/
theorem safe_straight (hjump : ∀ i ∈ is, i.jump? = none)
    (hA : ∀ js ks m', is = js ++ ks → ks ≠ [] → Carried cells js m m' → A (straight ks ++ rest) m')
    (hend : ∀ m', Carried cells is m m' → Safe cells A E rest m') :
    Safe cells A E (straight is ++ rest) m := by
  induction is generalizing m with
  | nil => exact hend m rfl
  | cons i is ih =>
    refine ⟨hA [] (i :: is) m rfl (by simp) rfl, fun l hl => ?_, fun m₁ hi => ?_⟩
    · rw [hjump i List.mem_cons_self] at hl
      cases hl
    · refine ih (fun j hj => hjump j (List.mem_cons_of_mem _ hj)) (fun js ks m' heq hne hjs => ?_)
        fun m' his => hend m' ⟨m₁, hi, his⟩
      exact hA (i :: js) ks m' (by rw [heq]; rfl) hne ⟨m₁, hi, hjs⟩

/-- Code that keeps an invariant is safe if the invariant gives `A` before every item and `E` at every
label that is bound or jumped to. -/
theorem safe_code {J : Machine → Prop} (hJ : J m)
    (hkeep : ∀ i, .instr i ∈ code → ∀ m m', J m → Carries cells i m m' → J m')
    (hjump : ∀ i l, .instr i ∈ code → i.jump? = some l → ∀ m, J m → E l m)
    (hmark : ∀ l ∈ marks code, ∀ m, J m → E l m)
    (hA : ∀ c₁ c₂ m, code = c₁ ++ c₂ → c₂ ≠ [] → J m → A (c₂ ++ rest) m)
    (hend : ∀ m, J m → Safe cells A E rest m) : Safe cells A E (code ++ rest) m := by
  induction code generalizing m with
  | nil => exact hend m hJ
  | cons item code ih =>
    have hhere := hA [] (item :: code) m rfl (by simp) hJ
    cases item with
    | mark l => exact ⟨hhere, hmark l List.mem_cons_self m hJ⟩
    | instr i =>
      refine ⟨hhere, fun l hl => hjump i l List.mem_cons_self hl m hJ, fun m' hi => ?_⟩
      exact ih (hkeep i List.mem_cons_self m m' hJ hi)
        (fun j hj => hkeep j (List.mem_cons_of_mem _ hj))
        (fun j l hj => hjump j l (List.mem_cons_of_mem _ hj)) hmark
        fun c₁ c₂ m heq => hA (.instr i :: c₁) c₂ m (by rw [heq]; rfl)

end SsaJit.Lower
