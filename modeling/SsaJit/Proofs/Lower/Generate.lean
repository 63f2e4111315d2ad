import SsaJit.Proofs.Lower.Layout
import SsaJit.Proofs.Lower.Places
import SsaJit.Proofs.Lower.Total

/-! Whole functions. A consistent function whose vectors have shapes that can be built is either compiled
or turned down, and no label is left open, unless a value that travels through a register as it is has
a size that no register has: then code generation stops at the load or store of that size. -/

namespace SsaJit

namespace X86.Assembler

variable {a : Assembler} {k l : Label}

/-! ## Labels that are bound -/

def Binds (a : Assembler) (l : Label) : Prop := ∃ place, a.labels.lookup l = some place

theorem binds_bind (h : a.Binds l ∨ l = k) : (a.bind k).Binds l := by
  unfold Binds bind
  rw [List.lookup_cons]
  split
  · exact ⟨_, rfl⟩
  · next hne =>
    rcases h with h | rfl
    · exact h
    · simp at hne

theorem labels_emit (a : Assembler) (i : Instr Label) : (a.emit i).labels = a.labels := by
  unfold emit
  dsimp only
  split <;> rfl

theorem fixups_emit {a : Assembler} {i : Instr Label} {f : Fixup} (h : f ∈ (a.emit i).fixups) :
    f ∈ a.fixups ∨ i.target? = some f.target := by
  unfold emit at h
  dsimp only at h
  split at h
  · next t ht =>
    rcases List.mem_cons.mp h with rfl | h
    · exact .inr ht
    · exact .inl h
  · exact .inl h

/-- Code is finished if the label of every open field is bound. -/
theorem finish_answers (h : ∀ f ∈ a.fixups, a.Binds f.target) : a.finish.Answers := by
  unfold finish
  refine (Outcome.foldlM_keeps (P := fun _ => True) (fun code f hf _ => ?_) trivial).imp
    fun _ hcode => hcode.1
  obtain ⟨place, hplace⟩ := h f (List.mem_reverse.mp hf)
  exact ⟨_, by rw [hplace], trivial⟩

end X86.Assembler

namespace Lower

open X86 Outcome

variable {a : Assembler} {code : Code} {l : Label}

/-- Assembled code binds its labels, and its open fields are those of its instructions. -/
theorem assembled (code : Code) (a : Assembler) :
    (∀ l, a.Binds l ∨ l ∈ marks code → (code.foldl assemble a).Binds l) ∧
      ∀ f ∈ (code.foldl assemble a).fixups,
        f ∈ a.fixups ∨ ∃ i, .instr i ∈ code ∧ i.target? = some f.target := by
  induction code generalizing a with
  | nil => exact ⟨fun l h => h.resolve_right List.not_mem_nil, fun f hf => .inl hf⟩
  | cons item code ih =>
    obtain ⟨hbinds, hfixups⟩ := ih (assemble a item)
    cases item with
    | instr i =>
      refine ⟨fun l h => hbinds l (h.imp_left fun h => ?_), fun f hf => ?_⟩
      · unfold Assembler.Binds
        rwa [assemble, Assembler.labels_emit]
      · rcases hfixups f hf with hf | ⟨j, hj, ht⟩
        · exact (Assembler.fixups_emit hf).imp_right fun ht => ⟨i, List.mem_cons_self, ht⟩
        · exact .inr ⟨j, List.mem_cons_of_mem _ hj, ht⟩
    | mark k =>
      refine ⟨fun l h => hbinds l ?_, fun f hf => (hfixups f hf).imp_right fun ⟨i, hi, ht⟩ =>
        ⟨i, List.mem_cons_of_mem _ hi, ht⟩⟩
      rw [marks_cons_mark, List.mem_cons] at h
      rcases h with h | rfl | h
      · exact .inl (Assembler.binds_bind (.inl h))
      · exact .inl (Assembler.binds_bind (.inr rfl))
      · exact .inr h

/-- Read-only data follows the code, each item behind its label. -/
theorem appended {gs : List (Option Global × Label)} (hgs : ∀ e ∈ gs, e.1.isSome = true)
    (a : Assembler) : ∃ full, gs.foldlM appendData a = .ok full ∧ full.fixups = a.fixups ∧
      ∀ l, a.Binds l ∨ (∃ g, (g, l) ∈ gs) → full.Binds l := by
  induction gs generalizing a with
  | nil => exact ⟨a, rfl, rfl, fun l h => h.resolve_right fun ⟨_, hg⟩ => List.not_mem_nil hg⟩
  | cons e gs ih =>
    obtain ⟨o, k⟩ := e
    obtain ⟨hsome, hrest⟩ := List.forall_mem_cons.mp hgs
    obtain ⟨g, rfl⟩ := Option.isSome_iff_exists.mp hsome
    have halign : (if g.align < 1 then 1 else g.align) ≠ 0 := by
      split <;> omega
    obtain ⟨full, hfull, hfixups, hbinds⟩ := ih hrest
      (((a.data (List.replicate
        ((-(a.length : Int)) % (if g.align < 1 then 1 else g.align)).toNat 0)).bind k).data g.data)
    refine ⟨full, ?_, hfixups, fun l h => hbinds l ?_⟩
    · rw [List.foldlM_cons, appendData, Assembler.align, if_neg halign]
      exact hfull
    · rcases h with h | ⟨g', hg'⟩
      · exact .inl (Assembler.binds_bind (.inl h))
      · rcases List.mem_cons.mp hg' with heq | hg'
        · exact .inl (Assembler.binds_bind (.inr (Prod.mk.inj heq).2))
        · exact .inr ⟨g', hg'⟩

/-! ## Blocks -/

section function

variable {c : Context} {b s : BlockId} {v : ValueId} {x : Value} {odd : Nat → Prop}
  {known : Label → Prop} {ls ls₁ ls' : Labels} {more : Code}

theorem Labelled.append (h : Labelled known ls code ls₁) (h' : Labelled known ls₁ more ls') :
    Labelled known ls (code ++ more) ls' := by
  refine ⟨.append (h.closed.mono fun l hl => hl.imp_left fun ⟨g, hg⟩ => ⟨g, h'.kept _ hg⟩) h'.closed,
    fun e he => h'.kept e (h.kept e he), fun e he => ?_⟩
  exact (h'.present e he).elim (h.present e) .inr

theorem Labelled.of_closed (h : Closed known code) : Labelled known ls code ls :=
  ⟨h.mono fun _ => .inr, fun _ he => he, fun _ he => .inl he⟩

/-- A note on where a function was turned down needs the value's text. -/
theorem settles_located {r : Outcome (Code × Labels)} {good : Code × Labels → Prop}
    (h : r.Settles odd good) (htext : (c.func.valueText v).Answers) :
    (c.located v r).Settles odd good := by
  rcases h with ⟨y, rfl, hy⟩ | ⟨e, rfl, he⟩ | ⟨n, hn, rfl | rfl⟩
  · exact settles_ok hy
  · obtain ⟨text, htext⟩ := htext
    refine .inr (.inl ⟨.noted c.func.name (.noted text e), ?_, he⟩)
    rw [Context.located, htext]
    rfl
  · exact .inr (.inr ⟨n, hn, .inl rfl⟩)
  · exact .inr (.inr ⟨n, hn, .inr rfl⟩)

theorem labelled_values (known : Label → Prop) {xs : List (ValueId × Value)}
    (h : ∀ y ∈ xs, y.2.op ≠ .phi → y.2.op ≠ .param →
      (c.func.valueText y.1).Answers ∧ ∃ ts home, Codable c odd y.2 ts home) (ls : Labels) :
    (c.values xs ls).Settles odd fun y => Labelled known ls y.1 y.2 := by
  induction xs generalizing ls with
  | nil => exact settles_ok (.of_closed .nil)
  | cons y xs ih =>
    have hrest := ih fun z hz => h z (List.mem_cons_of_mem _ hz)
    unfold Context.values
    split
    · exact hrest ls
    · next hop =>
      rw [not_or] at hop
      obtain ⟨htext, ts, home, hy⟩ := h y List.mem_cons_self hop.1 hop.2
      have hvalue : (c.value y.1 y.2 ls).Settles odd fun z => Labelled known ls z.1 z.2 :=
        labelled_value hy ls
      refine (settles_located hvalue htext).bind fun first _ hfirst => ?_
      exact (hrest first.2).bind fun rest _ hmore => settles_ok (hfirst.append hmore)

end function

/-! ## What travels through registers -/

/-- The types of what is moved between its slot and a register as it is. -/
inductive Moves (f : Func) : Ty → Prop
  | parameter {t : Ty} (h : t ∈ f.params) : Moves f t
  | constant {b : BlockId} {v : ValueId} (hb : b ∈ f.layout) (hv : v ∈ (f.block b).values)
      (hop : (f.value v).op = .const) (hscalar : (f.value v).type.isVector = false) :
      Moves f (f.value v).type
  | argument {b : BlockId} {v w : ValueId} (hb : b ∈ f.layout) (hv : v ∈ (f.block b).values)
      (hop : (f.value v).op = .call) (harg : .value w ∈ (f.value v).args.drop 1) :
      Moves f (f.value w).type
  | result {b : BlockId} {v : ValueId} (hb : b ∈ f.layout) (hv : v ∈ (f.block b).values)
      (hop : (f.value v).op = .call) (hvoid : (f.value v).type.isVoid = false) :
      Moves f (f.value v).type
  | operand {b : BlockId} {v w : ValueId} (hb : b ∈ f.layout) (hv : v ∈ (f.block b).values)
      (hop : (f.value v).op = .intrinsic) (harg : (f.value v).args[0]? = some (.value w)) :
      Moves f (f.value w).type
  | outcome {b : BlockId} {v : ValueId} (hb : b ∈ f.layout) (hv : v ∈ (f.block b).values)
      (hop : (f.value v).op = .intrinsic) : Moves f (f.value v).type
  | returned {b : BlockId} {v : ValueId} (hb : b ∈ f.layout) (hk : (f.block b).kind = .ret)
      (hc : (f.block b).control = .value v) : Moves f (f.value v).type

/-- A size that the function moves and that no register has. -/
def OddSize (f : Func) (n : Nat) : Prop := ∃ t, Moves f t ∧ t.size = n ∧ ¬ Whole n

theorem Moves.size {f : Func} {t : Ty} (h : Moves f t) : Whole t.size ∨ OddSize f t.size := by
  by_cases hw : Whole t.size
  · exact .inl hw
  · exact .inr ⟨t, h, rfl, hw⟩

section function

variable {c : Context} {b s : BlockId} {v : ValueId} {ls : Labels} {odd : Nat → Prop}
  {known : Label → Prop}

/-- What the verifier and the check before code generation have found. -/
structure Admitted (c : Context) : Prop where
  consistent : c.func.Consistent
  types : c.func.TypesValid
  regs : c.InRegs

theorem Admitted.codable (h : Admitted c) (hb : b ∈ c.func.layout) (hv : v ∈ (c.func.block b).values)
    (hphi : (c.func.value v).op ≠ .phi) : ∃ ts home, Codable c (OddSize c.func) (c.func.value v) ts home := by
  have hlisted := fun o ho => Func.args_listed h.consistent.verified hb hv (o := o) ho
  have hval : ∀ o ∈ (c.func.value v).args, ∃ w, o = .value w := fun o ho => by
    obtain ⟨w, -, hw, -⟩ := hlisted o ho
    exact ⟨w, hw⟩
  have hvalid : ∀ w, .value w ∈ (c.func.value v).args → (c.func.value w).type.Valid := by
    intro w hw
    obtain ⟨w', d, heq, hd⟩ := hlisted _ hw
    cases heq
    obtain ⟨hd, hmem⟩ := (h.consistent.listed w d).mp hd
    exact h.types d hd w hmem
  refine ⟨c.func.argTypes (c.func.value v), b = c.func.start, Func.ofType_argTypes hval,
    (h.consistent.ssa.values b hb v hv hphi).2, h.types b hb v hv, fun t ht => ?_, hval,
    h.regs.calls (v, c.func.value v) (List.mem_flatMap.mpr ⟨b, hb, List.mem_map.mpr ⟨v, hv, rfl⟩⟩),
    fun hop hscalar => (Moves.constant hb hv hop hscalar).size,
    fun hop w hw => (Moves.argument hb hv hop hw).size,
    fun hop hvoid => (Moves.result hb hv hop hvoid).size, fun hop t ht => ?_,
    fun hop => (Moves.outcome hb hv hop).size⟩
  · obtain ⟨o, ho, rfl⟩ := List.mem_map.mp ht
    obtain ⟨w, rfl⟩ := hval o ho
    exact hvalid w ho
  · rw [Func.argTypes, List.getElem?_map, Option.map_eq_some_iff] at ht
    obtain ⟨o, ho, rfl⟩ := ht
    obtain ⟨w, rfl⟩ := hval o (List.mem_of_getElem? ho)
    exact (Moves.operand hb hv hop ho).size

theorem Admitted.valueText (h : Admitted c) (hb : b ∈ c.func.layout) (hv : v ∈ (c.func.block b).values) :
    (c.func.valueText v).Answers := by
  refine Func.instrText_answers.mpr fun hop => ?_
  have hty := (h.consistent.ssa.values b hb v hv (by rw [hop]; decide)).2
  rw [Func.WellTyped, hop] at hty
  exact hty.1

/-- What a block leaves for the phis of a successor. -/
theorem Admitted.phiMoves (h : Admitted c) (hb : b ∈ c.func.layout) (hs : s ∈ (c.func.block b).succs) :
    Emitted (OddSize c.func) (c.phiMoves b s) := by
  obtain ⟨j, hj⟩ := exists_predIndex h.consistent.flow hb hs
  rw [phiMoves_first (lowerable h.consistent) hb hs hj]
  refine .pure ?_
  rw [List.flatMap_def]
  refine .flatten fun code hcode => ?_
  obtain ⟨x, -, rfl⟩ := List.mem_map.mp hcode
  exact closed_copy (.inFrame _) (.inFrame _) _

theorem Closed.mark {k : Label} (h : Closed known code) : Closed known (.mark k :: code) :=
  fun i l hi hl => (h i l ((List.mem_cons.mp hi).resolve_left nofun) hl).imp_left (List.mem_cons_of_mem _)

/-- The label of a successor. -/
def Onward (f : Func) (b : BlockId) (l : Label) : Prop := ∃ s ∈ (f.block b).succs, l = blockMark s

/-- The label of a block that has code. -/
def Entry (f : Func) (l : Label) : Prop := ∃ s, f.Reached s ∧ l = blockMark s

/-- A jump to a successor. -/
theorem closed_jump {i : Instr Label} (hi : i.target? = some (blockMark s)) :
    Closed (fun l => l = blockMark s) (straight [i]) := by
  intro j l hj hl
  rw [List.mem_singleton.mp (mem_straight.mp hj), hi] at hl
  exact .inr (Option.some.inj hl).symm

/-- A test of a bit and what is done about it. -/
theorem settles_branch {moves : Code} {jumps : List (Instr Label)} (control : Operand)
    (hmoves : Closed (fun _ => False) moves) (hjumps : Closed known (straight jumps)) :
    Settles odd (Closed known) (do
      let load ← loadInt .rax (c.slot control) .i1 false
      return moves ++ load ++ straight (.alu .test .rax .rax :: jumps)) := by
  have hloaded : Emitted odd (loadInt .rax (c.slot control) .i1 false) :=
    emitted_loadInt .rax (.slot c control) (.inl (wide_of_isInt rfl)) false
  refine Settles.bind hloaded fun load _ hload => settles_ok ?_
  refine .append ((hmoves.append hload).mono fun _ hl => hl.elim) ?_
  rw [← List.singleton_append, straight_append]
  exact .append (.all rfl) hjumps

/-- The end of a block mentions the labels of its successors. -/
theorem Admitted.terminator (h : Admitted c) (hb : b ∈ c.func.layout) (next : Option BlockId) :
    (c.terminator b next).Settles (OddSize c.func)
      (Closed (Onward c.func b)) := by
  have hend := h.consistent.ssa.ends b hb
  have hjump : ∀ {s i}, s ∈ (c.func.block b).succs → i.target? = some (blockMark s) →
      Closed (Onward c.func b) (straight [i]) :=
    fun hs hi => (closed_jump hi).mono fun l hl => ⟨_, hs, hl⟩
  rw [Func.EndsWell] at hend
  unfold Context.terminator
  cases hk : (c.func.block b).kind with
  | jump =>
    simp only [hk] at hend ⊢
    obtain ⟨s, hs⟩ := List.length_eq_one_iff.mp hend
    have hmem : s ∈ (c.func.block b).succs := by rw [hs]; exact List.mem_cons_self
    rw [at?_eq_ok.mpr (show (c.func.block b).succs[0]? = some s by rw [hs]; rfl), ok_bind]
    refine Settles.bind (h.phiMoves hb hmem) fun moves _ hmoves => settles_ok ?_
    refine .append (hmoves.mono fun _ hl => hl.elim) ?_
    split
    · exact .nil
    · exact hjump hmem rfl
  | branch =>
    simp only [hk] at hend ⊢
    obtain ⟨yes, no, hs⟩ := List.length_eq_two.mp hend.1
    have hyes : yes ∈ (c.func.block b).succs := by rw [hs]; exact List.mem_cons_self
    have hno : no ∈ (c.func.block b).succs := by rw [hs]; exact List.mem_cons_of_mem _ List.mem_cons_self
    rw [at?_eq_ok.mpr (show (c.func.block b).succs[0]? = some yes by rw [hs]; rfl), ok_bind,
      at?_eq_ok.mpr (show (c.func.block b).succs[1]? = some no by rw [hs]; rfl), ok_bind]
    have hjumps : Closed (Onward c.func b) (straight
        (if next = some no then [.jcc .ne (blockMark yes)]
        else if next = some yes then [.jcc .e (blockMark no)]
        else [.jcc .ne (blockMark yes), .jmp (blockMark no)])) := by
      split
      · exact hjump hyes rfl
      split
      · exact hjump hno rfl
      · exact (hjump hyes rfl).append (hjump hno rfl)
    refine Settles.bind (h.phiMoves hb hyes) fun first _ hfirst => ?_
    split
    · exact settles_branch (c.func.block b).control (hfirst.append .nil) hjumps
    · exact Settles.bind (h.phiMoves hb hno) fun other _ hother =>
        settles_branch (c.func.block b).control (hfirst.append hother) hjumps
  | ret =>
    simp only [hk] at hend ⊢
    have hfinish : ∀ result, Closed (fun _ => False) result →
        Settles (OddSize c.func) (Closed (Onward c.func b))
          (pure (result ++ straight [.leave, .ret])) :=
      fun result hr => settles_ok ((hr.append (.all rfl)).mono fun _ hl => hl.elim)
    split
    · exact hfinish [] .nil
    next hc =>
    rw [if_neg hc] at hend
    obtain ⟨w, hw, -⟩ := hend.2.2
    have hsize := (Moves.returned hb hk hw).size
    rw [hw, show c.func.find (.value w) = .ok (c.func.value w) from rfl, ok_bind]
    split
    · exact Settles.bind (emitted_loadX _ (.slot c _) hsize) fun result _ hr => hfinish result hr
    · next hreg =>
      rw [size_of_inReg hreg] at hsize
      exact Settles.bind (emitted_loadInt _ (.slot c _) (wide_or_odd hsize (kind_size_ne _)) _)
        fun result _ hr => hfinish result hr
  | pending => simp only [hk] at hend
  | unreachable =>
    simp only [hk]
    exact settles_ok (Closed.all rfl)
  | other code =>
    simp only [hk]
    exact settles_fail _

/-! ## The function's code -/

theorem closed_takes (c : Context) (b : BlockId) {known : Label → Prop} : Closed known (c.takes b) := by
  rw [Context.takes, List.flatMap_def]
  refine .flatten fun code hcode => ?_
  obtain ⟨x, -, rfl⟩ := List.mem_map.mp hcode
  exact closed_copy (.inFrame _) (.inFrame _) _

theorem Admitted.block (h : Admitted c) (hb : b ∈ c.func.layout) (next : Option BlockId) (ls : Labels) :
    (c.block b next ls).Settles (OddSize c.func) fun y =>
      Labelled (Onward c.func b) ls y.1 y.2 := by
  have hvalues : ∀ y ∈ c.func.valuesOf b, y.2.op ≠ .phi → y.2.op ≠ .param →
      (c.func.valueText y.1).Answers ∧ ∃ ts home, Codable c (OddSize c.func) y.2 ts home := by
    intro y hy hphi _
    obtain ⟨v, hv, rfl⟩ := List.mem_map.mp hy
    exact ⟨h.valueText hb hv, h.codable hb hv hphi⟩
  unfold Context.block
  dsimp only
  refine (labelled_values (Onward c.func b) hvalues ls).bind
    fun y _ hy => ?_
  refine (h.terminator hb next).bind fun term _ hterm => settles_ok ?_
  have hhead : Labelled (Onward c.func b) ls (.mark (blockMark b) :: c.takes b) ls :=
    .of_closed (closed_takes c b).mark
  exact (hhead.append hy).append (.of_closed hterm)

theorem Admitted.blocks (h : Admitted c) {order : List BlockId} (ho : ∀ b ∈ order, c.func.Reached b)
    (ls : Labels) : (c.blocks order ls).Settles (OddSize c.func) fun y =>
      Labelled (Entry c.func) ls y.1 y.2 := by
  induction order generalizing ls with
  | nil => exact settles_ok (.of_closed .nil)
  | cons b order ih =>
    obtain ⟨hb, hrest⟩ := List.forall_mem_cons.mp ho
    unfold Context.blocks
    refine (h.block (h.consistent.flow.reached_mem hb) order.head? ls).bind fun first _ hfirst => ?_
    refine (ih hrest first.2).bind fun more _ hmore => settles_ok (Labelled.append ?_ hmore)
    exact ⟨hfirst.closed.mono fun l hl => hl.imp_right fun ⟨s, hs, heq⟩ => ⟨s, hb.step hs, heq⟩,
      hfirst.kept, hfirst.present⟩

theorem emitted_storeParams {ps : List (Ty × ValueId)} {ints : List Reg} (vecs : Nat)
    (hsize : ∀ y ∈ ps, Whole y.1.size ∨ odd y.1.size)
    (hroom : (classify (ps.map Prod.fst)).1 ≤ ints.length) : Emitted odd (c.storeParams ps ints vecs) := by
  induction ps generalizing ints vecs with
  | nil => exact .pure .nil
  | cons y ps ih =>
    obtain ⟨t, v⟩ := y
    obtain ⟨ht, hrest⟩ := List.forall_mem_cons.mp hsize
    have hcount : (classify (((t, v) :: ps).map Prod.fst)).1 =
        (if inVectorReg t then 0 else 1) + (classify (ps.map Prod.fst)).1 := by
      simp only [classify, List.map_cons, List.filter_cons]
      cases inVectorReg t <;> simp [Nat.add_comm]
    rw [hcount] at hroom
    unfold Context.storeParams
    split
    · next hreg =>
      rw [if_pos hreg, Nat.zero_add] at hroom
      exact .append (emitted_storeX _ (.inFrame _) ht) (ih _ hrest hroom)
    · next hreg =>
      rw [if_neg hreg] at hroom
      cases ints with
      | nil =>
        rw [List.length_nil] at hroom
        omega
      | cons r ints =>
        rw [List.length_cons] at hroom
        rw [size_of_inReg hreg] at ht
        exact .append (emitted_storeInt _ (.inFrame _) (wide_or_odd ht (kind_size_ne _)))
          (ih _ hrest (by omega))

theorem zip_fst_sublist (ts : List Ty) (vs : List ValueId) : ((ts.zip vs).map Prod.fst).Sublist ts := by
  induction ts generalizing vs with
  | nil => exact .slnil
  | cons t ts ih =>
    cases vs with
    | nil => exact List.nil_sublist _
    | cons v vs => exact (ih vs).cons_cons t

theorem Admitted.prologue (h : Admitted c) : Emitted (OddSize c.func) c.prologue := by
  unfold Context.prologue
  dsimp only
  refine .bind (emitted_storeParams 0 (fun y hy => ?_) ?_) fun params hparams => .pure (.append ?_ hparams)
  · exact (Moves.parameter (List.of_mem_zip hy).1).size
  · have hroom := h.regs.params
    simp only [exceedsRegs, Bool.or_eq_false_iff, decide_eq_false_iff_not] at hroom
    have hle := ((zip_fst_sublist c.func.params c.func.paramValues).filter (!inVectorReg ·)).length_le
    exact Nat.le_trans hle (Nat.le_of_not_lt hroom.1)
  · refine .all ?_
    split <;> rfl

/-- The code of a function mentions its own labels and those of its read-only data. -/
theorem Admitted.function (h : Admitted c) : c.function.Settles (OddSize c.func) fun y =>
    Closed (fun l => ∃ g, (g, l) ∈ y.2.globals) y.1 ∧ ∀ e ∈ y.2.globals, e.1.isSome = true := by
  have hflow := h.consistent.flow
  have horder : c.func.reversePostOrder = .ok (c.func.reversePostOrderFrom c.func.start) := by
    rw [Func.reversePostOrder, hflow.entry_eq]
    rfl
  have hpost := postordered hflow horder
  have hbody := h.blocks (fun b hb => (hpost.mem_iff b).mp hb) { next := c.func.numBlocks }
  have hmade : c.function.Settles (OddSize c.func) fun y =>
      Closed (fun l => (∃ g, (g, l) ∈ y.2.globals) ∨ Entry c.func l) y.1 ∧
        ∀ e ∈ y.2.globals, e.1.isSome = true := by
    unfold Context.function
    rw [horder, ok_bind]
    refine Settles.bind h.prologue fun entry _ hentry => hbody.bind fun y _ hy => settles_ok ⟨?_, ?_⟩
    · exact .append (hentry.mono fun _ hl => hl.elim) hy.closed
    · exact fun e he => (hy.present e he).resolve_left List.not_mem_nil
  rcases hmade with ⟨⟨prog, ls⟩, hprog, hclosed, hsome⟩ | hrest
  · refine .inl ⟨_, hprog, fun i l hi hl => ?_, hsome⟩
    -- the label of a block that has code is bound where that begins
    rcases hclosed i l hi hl with hl | hl | ⟨s, hs, rfl⟩
    · exact .inl hl
    · exact .inr hl
    · obtain ⟨-, entry, body, -, rfl, -, hplaces⟩ := function_places hflow hprog
      obtain ⟨p, hp⟩ := hplaces s hs
      obtain ⟨pre, rfl⟩ := hp.stands
      refine .inl (mem_marks.mpr ?_)
      simp
  · exact .inr hrest

end function

/-! ## The outcome -/

variable {f : Func}

/-- Code whose labels are all bound can be put together. -/
theorem assembles {prog : Code} {ls : Labels}
    (hclosed : Closed (fun l => ∃ g, (g, l) ∈ ls.globals) prog)
    (hsome : ∀ e ∈ ls.globals, e.1.isSome = true) :
    ∃ full, ls.globals.foldlM appendData (prog.foldl assemble {}) = .ok full ∧ full.finish.Answers := by
  obtain ⟨hbinds, hfixups⟩ := assembled prog {}
  obtain ⟨full, hfull, hsame, hdata⟩ := appended hsome (prog.foldl assemble {})
  refine ⟨full, hfull, Assembler.finish_answers fun x hx => hdata _ ?_⟩
  rw [hsame] at hx
  obtain ⟨i, hi, hl⟩ := (hfixups x hx).resolve_left List.not_mem_nil
  exact (hclosed i _ hi hl).imp_left fun hl => hbinds _ (.inr hl)

/-- A consistent function whose vectors have shapes that can be built is compiled or turned down, for
every processor and every limit; or code generation stops at the load or store of a type that travels
through registers and has a size that no register has. Where there is no such type, it does not. -/
theorem generate_settles (hf : f.Consistent) (ht : f.TypesValid) (cpu : Features) (limit : Int) :
    ((generate f cpu limit).Answers ∨ (generate f cpu limit).TurnedDown ∨
      ∃ t, Moves f t ∧ t.size ∉ [1, 2, 4, 8, 16] ∧ (generate f cpu limit).StuckAt t.size) ∧
    ((∀ t, Moves f t → t.size ∈ [1, 2, 4, 8, 16]) →
      (generate f cpu limit).Answers ∨ (generate f cpu limit).TurnedDown) := by
  have hsettles : (generate f cpu limit).Settles (OddSize f) fun _ => True := by
    unfold generate
    dsimp only
    refine (settles_check hf.verified).of_none.bind fun _ _ hregs => ?_
    split
    · exact .inr (.inl ((turnedDown_fail _).bind _))
    have hadmitted : Admitted { func := f, frame := .ofFunc f, cpu } := ⟨hf, ht, hregs⟩
    refine hadmitted.function.bind fun y _ hy => ?_
    obtain ⟨full, hfull, bytes, hbytes⟩ := assembles hy.1 hy.2
    dsimp only
    rw [hfull, ok_bind, hbytes]
    exact settles_ok trivial
  rcases hsettles with ⟨out, hout, -⟩ | hdown | ⟨n, ⟨t, hmoves, rfl, hodd⟩, hstuck⟩
  · exact ⟨.inl ⟨out, hout⟩, fun _ => .inl ⟨out, hout⟩⟩
  · exact ⟨.inr (.inl hdown), fun _ => .inr hdown⟩
  · exact ⟨.inr (.inr ⟨t, hmoves, hodd, hstuck⟩), fun hwhole => absurd (hwhole t hmoves) hodd⟩

/-- Three bytes can be a vector, and no register holds three bytes. -/
def threefold : Func where
  name := "threefold"
  ret := .void
  params := [.vec .i8 3]
  values := #[{ op := .param, type := .vec .i8 3, block := some 0 }]
  blocks := #[{ values := [0], kind := .ret }]
  layout := [0]
  paramValues := [0]

/-- Without constants, calls and intrinsics only parameters and results travel. -/
theorem Moves.of_bare {t : Ty} (h : Moves f t) (hbare : ∀ b ∈ f.layout, ∀ v ∈ (f.block b).values,
    (f.value v).op ∉ [.const, .call, .intrinsic]) :
    t ∈ f.params ∨ ∃ b ∈ f.layout, (f.block b).kind = .ret ∧
      ∃ v, (f.block b).control = .value v ∧ (f.value v).type = t := by
  cases h with
  | parameter h => exact .inl h
  | returned hb hk hc => exact .inr ⟨_, hb, hk, _, hc, rfl⟩
  | constant hb hv hop | argument hb hv hop | result hb hv hop | operand hb hv hop | outcome hb hv hop =>
    exact absurd (by simp [hop]) (hbare _ hb _ hv)

theorem generate_settles_threefold :
    threefold.Consistent ∧ threefold.TypesValid ∧ (generate threefold {} 0).StuckAt 3 ∧
    roomy.Consistent ∧ roomy.TypesValid ∧
      ((generate roomy {} 0).Answers ∨ (generate roomy {} 0).TurnedDown) := by
  have hodd : threefold.Consistent := by decide +kernel
  have htypes : threefold.TypesValid := by decide +kernel
  have hroomy : roomy.Consistent := by decide +kernel
  have htypes' : roomy.TypesValid := by decide +kernel
  have hstuck : generate threefold {} 0 = .error (.refusal (.storeWidth 3)) := by rfl
  obtain ⟨hends, -⟩ := generate_settles hodd htypes {} 0
  refine ⟨hodd, htypes, ?_, hroomy, htypes', (generate_settles hroomy htypes' {} 0).2 fun t ht => ?_⟩
  · rcases hends with ⟨out, hout⟩ | ⟨e, he, -⟩ | ⟨t, ht, hsize, hat⟩
    · rw [hout] at hstuck
      cases hstuck
    · rw [he] at hstuck
      cases hstuck
    · -- the parameter is all that this function moves
      rcases ht.of_bare (by decide) with hparam | ⟨b, hb, -, v, hv, -⟩
      · obtain rfl := List.mem_singleton.mp hparam
        exact hat
      · obtain rfl := List.mem_singleton.mp hb
        cases hv
  · have hfit : (∀ t ∈ roomy.params, t.size ∈ [1, 2, 4, 8, 16]) ∧ ∀ b ∈ roomy.layout,
        (roomy.block b).kind = .ret → (roomy.operandType (roomy.block b).control).size ∈ [1, 2, 4, 8, 16] := by
      decide
    rcases ht.of_bare (by decide) with hparam | ⟨b, hb, hk, v, hv, rfl⟩
    · exact hfit.1 t hparam
    · have hsize := hfit.2 b hb hk
      rwa [hv] at hsize

end Lower

end SsaJit
