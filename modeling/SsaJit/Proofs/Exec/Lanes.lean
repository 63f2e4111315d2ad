import SsaJit.Proofs.Exec.Edit
import SsaJit.Proofs.Ssa.Fold

/-! The meaning in which values are lanes and pure operations are what folding makes of them. All else,
memory and calls and the operations of one processor, is a parameter. While a good function runs, every
value that can be read fits its type, and what is computed from lanes equals what folding its operands
gives. -/

namespace SsaJit

/-- What instructions do that folding says nothing about. -/
structure World where
  Mem : Type
  Stop : Type
  exec : ValueId → Value → List Ty → List (List UInt64) → Mem →
    Except Stop (List UInt64 × Mem)
  /-- Results have the lanes of their type. -/
  fits : ∀ v y ts xs m r, exec v y ts xs m = .ok r → y.type.Fits r.1

/-- What folding makes of an operation on these operands, if it is one that can be folded. -/
def Value.fold? (y : Value) (ts : List Ty) (xs : List (List UInt64)) : Option (List UInt64) :=
  if y.isPure = true ∧ y.op ≠ .intrinsic then ((Func.operationOf y ts).fold xs).toOption.join
  else none

theorem Value.fold?_eq_some {y : Value} {ts : List Ty} {xs : List (List UInt64)}
    {r : List UInt64} : y.fold? ts xs = some r ↔
      (y.isPure = true ∧ y.op ≠ .intrinsic) ∧ (Func.operationOf y ts).fold xs = .ok (some r) := by
  unfold fold?
  split
  · next h =>
    rw [and_iff_right h]
    cases (Func.operationOf y ts).fold xs with
    | error e => simp [Except.toOption]
    | ok x => simp [Except.toOption]
  · next h => simp [h]

/-- The operations that folding knows. -/
def Op.isFoldable : Op → Bool
  | .store | .call | .load | .alloca | .phi | .param | .invalid | .intrinsic => false
  | _ => true

/-- What folding makes of an operation that it knows. Whether the value is marked volatile does not
matter here: the mark is there for memory accesses. -/
def Value.eval? (y : Value) (ts : List Ty) (xs : List (List UInt64)) : Option (List UInt64) :=
  if y.op.isFoldable then ((Func.operationOf y ts).fold xs).toOption.join else none

theorem Value.eval?_eq_some {y : Value} {ts : List Ty} {xs : List (List UInt64)}
    {r : List UInt64} : y.eval? ts xs = some r ↔
      y.op.isFoldable = true ∧ (Func.operationOf y ts).fold xs = .ok (some r) := by
  unfold eval?
  split
  · next h =>
    rw [and_iff_right h]
    cases (Func.operationOf y ts).fold xs with
    | error e => simp [Except.toOption]
    | ok x => simp [Except.toOption]
  · next h => simp [h]

theorem Op.isFoldable_of_pure {y : Value} (hpure : y.isPure = true) (hop : y.op ≠ .intrinsic) :
    y.op.isFoldable = true := by
  unfold Value.isPure at hpure
  cases h : y.op <;> simp_all [isFoldable]

theorem Op.isFoldable_ne {op : Op} (h : op.isFoldable = true) : op ≠ .phi ∧ op ≠ .param ∧
    op ≠ .store ∧ op ≠ .alloca ∧ op ≠ .load ∧ op ≠ .call := by
  refine ⟨?_, ?_, ?_, ?_, ?_, ?_⟩ <;> rintro rfl <;> cases h

/-- A constant bit is set if its pattern is not zero. -/
theorem Value.bit_constLanes {y : Value} (hop : y.op = .const) (hty : y.type = .i1) :
    ((y.bare.constLanes.getD []).headD 0 != 0) = decide (y.aux ≠ 0) := by
  have hconst : y.bare.isConst = true := by simp [bare, isConst, hop]
  have hvec : y.bare.type.isVector = false := by simp [bare, hty, Ty.isVector]
  have haux : y.bare.aux = y.aux := rfl
  simp only [constLanes, hconst, hvec, haux, Bool.not_true, Bool.false_eq_true, if_false,
    Option.getD_some, List.headD_cons]
  rw [Bool.eq_iff_iff, bne_iff_ne, decide_eq_true_iff]
  refine not_congr ⟨fun h => congrArg UInt64.toInt64 h, fun h => ?_⟩
  rw [h]
  rfl

theorem Ty.fits_zeros (t : Ty) : t.Fits (List.replicate t.numLanes 0) := by
  refine ⟨List.length_replicate, fun w hw => ?_⟩
  rw [List.eq_of_mem_replicate hw]
  exact Kind.cut_zero _

namespace World

/-- The meaning of instructions on lanes. -/
abbrev interp (W : World) : Interp where
  Val := List UInt64
  Mem := W.Mem
  Stop := W.Stop
  blank := []
  const y := y.constLanes.getD []
  exec v y ts xs m := match y.eval? ts xs with
    | some r => .ok (r, m)
    | none => W.exec v y ts xs m
  holds x := x.headD 0 != 0
  holds_const _ hop hty := Value.bit_constLanes hop hty

/-- The world in which all that folding does not know gives zeros. -/
def zeros : World where
  Mem := Unit
  Stop := Empty
  exec _ y _ _ m := .ok (List.replicate y.type.numLanes 0, m)
  fits _ y _ _ _ r h := by
    obtain rfl := Except.ok.inj h
    exact y.type.fits_zeros

end World

namespace Func

variable {W : World} {f g : Func} {b c d : BlockId} {u v w a : ValueId} {o : Operand} {strict : Prop}
  {s t : W.interp.State} {pre post : List ValueId} {env : ValueId → List UInt64}

/-- A value is what it is made of: a constant its lanes, and any other value what folding its operands
gives. -/
structure Folded (W : World) (f : Func) (v : ValueId) (env : ValueId → List UInt64) : Prop where
  const : ∀ r, (f.value v).constLanes = some r → env v = r
  folded : ∀ r, (f.value v).bare.eval? ((f.value v).reads.map f.operandType)
    ((f.value v).reads.map (W.interp.read env)) = some r → env v = r

/-- What is known of a value while a good function runs. -/
structure Computed (W : World) (f : Func) (v : ValueId) (env : ValueId → List UInt64) : Prop
    extends Folded W f v env where
  fits : (f.value v).type.Fits (env v)

theorem eval?_phi {y : Value} {ts : List Ty} {xs : List (List UInt64)} (h : y.op = .phi) :
    y.eval? ts xs = none := by
  simp [Value.eval?, Op.isFoldable, h]

theorem eval?_const {y : Value} {ts : List Ty} {xs : List (List UInt64)} (h : y.op = .const) :
    y.eval? ts xs = none := by
  simp [Value.eval?, Operation.fold, operationOf, h, Op.isFoldable, Op.isBinary, Op.isCast,
    Except.toOption]

theorem constLanes_op {y : Value} {r : List UInt64} (h : y.constLanes = some r) :
    y.op = .const := by
  unfold Value.constLanes at h
  split at h
  · cases h
  · next hc => simpa [Value.isConst] using hc

/-- What an instruction reads can change no more when it has been computed. -/
theorem Before.behind (h : f.Before (.value a) v d) (hr : f.Reached d)
    (hd : (f.value v).block = some d) (hphi : (f.value v).op ≠ .phi) : f.Behind a v := by
  obtain ⟨a', ha, h⟩ := h
  obtain rfl : a = a' := by simpa using ha
  rcases h with h | ⟨_, h⟩
  · exact .inr (.inl h)
  · refine .inr (.inr ⟨d, hd, ?_⟩)
    rw [if_neg hphi]
    exact h hr

theorem reads_congr (hs : f.Ssa) (hd : (f.value v).block = some d) (hr : f.Reached d)
    (hphi : (f.value v).op ≠ .phi) {I : Interp} {env env' : ValueId → I.Val}
    (henv : ∀ a, f.Behind a v → env a = env' a) :
    (f.value v).reads.map (I.read env) = (f.value v).reads.map (I.read env') := by
  obtain ⟨hdl, hv⟩ := (hs.listing.listed v d).mp hd
  refine List.map_congr_left fun o ho => ?_
  obtain ⟨a, rfl, hbefore⟩ := hs.reads_value hdl hv hphi ho
  exact henv a (hbefore.behind hr hd hphi)

/-- The operands of an instruction fit their types when it runs. -/
theorem reads_fit (h : f.Good strict) (hb : b ∈ f.layout) (hr : f.Reached b)
    (hvals : (f.block b).values = pre ++ u :: post) (hphi : (f.value u).op ≠ .phi)
    (hH : f.Holding (f.Computed W) b pre s) :
    List.Forall₂ Ty.Fits ((f.value u).reads.map f.operandType)
      ((f.value u).reads.map (W.interp.read s.env)) := by
  have hu : u ∈ (f.block b).values := by rw [hvals]; simp
  rw [List.forall₂_map_left_iff, List.forall₂_map_right_iff, List.forall₂_same]
  intro o ho
  obtain ⟨a, rfl, hbefore⟩ := h.ssa.reads_value hb hu hphi ho
  have hstore : (f.value a).op ≠ .store := by
    unfold Value.reads at ho
    split at ho
    · simp at ho
    · exact h.tidy.noStore_arg hb hu ho a rfl
  exact (hH a (hbefore.known h.ssa.listing hb hr hvals hstore)).fits

/-- Constants have lanes. -/
theorem Good.const_lanes (h : f.Good strict) (hb : b ∈ f.layout) (hv : v ∈ (f.block b).values)
    (hconst : (f.value v).op = .const) : ∃ r, (f.value v).constLanes = some r := by
  have hty := h.ssa.typed hb hv (by simp [hconst])
  simp only [WellTyped, hconst, Op.isBinary, Op.isCast, Bool.false_eq_true, if_false] at hty
  have hvalid := h.tidy.types b hb v hv
  simp only [Value.constLanes, Value.isConst, hconst, beq_self_eq_true, Bool.not_true,
    Bool.false_eq_true, if_false]
  split
  · next hvec =>
    cases hl : (f.value v).lanes with
    | some r => exact ⟨r, rfl⟩
    | none =>
      -- a vector has two lanes at least, so the empty list is too short
      have hlen := hty hvec
      rw [hl] at hlen
      cases htype : (f.value v).type with
      | scalar k => simp [htype, Ty.isVector] at hvec
      | vec e n =>
        rw [htype] at hlen hvalid
        simp only [Option.getD_none, List.length_nil, Ty.numLanes] at hlen
        have := hvalid.2.1
        omega
  · exact ⟨_, rfl⟩

/-- What folding an instruction gives fits its type. -/
theorem Good.eval?_fits (h : f.Good strict) (hb : b ∈ f.layout) (hu : u ∈ (f.block b).values)
    {xs : List (List UInt64)} {r : List UInt64}
    (hxs : List.Forall₂ Ty.Fits ((f.value u).reads.map f.operandType) xs)
    (hfold : (f.value u).bare.eval? ((f.value u).reads.map f.operandType) xs = some r) :
    (f.value u).type.Fits r := by
  obtain ⟨hknown, hok⟩ := Value.eval?_eq_some.mp hfold
  have hknown : (f.value u).op.isFoldable = true := hknown
  obtain ⟨hphi, hparam, -⟩ := Op.isFoldable_ne hknown
  have hreads : (f.value u).reads = (f.value u).args := if_neg hparam
  rw [hreads] at hxs hok
  have hvalid : ∀ t ∈ f.argTypes (f.value u), t.Valid := by
    intro t ht
    obtain ⟨o, ho, rfl⟩ := List.mem_map.mp ht
    obtain ⟨a, rfl⟩ := (h.ssa.before hb hu hphi hparam ho).isValue
    rcases (h.ssa.before hb hu hphi hparam ho).listed h.ssa.listing with hstore | ⟨d, hd, ha⟩
    · exact absurd hstore (h.tidy.noStore_arg hb hu ho a rfl)
    · exact h.tidy.types d hd a ha
  obtain ⟨l, hl, hfits⟩ := fold_fits (h.ssa.typed hb hu hphi) (h.tidy.types b hb u hu) hvalid hxs
  exact hfits r (Except.ok.inj (hl.symm.trans hok))

/-- What an instruction that is no constant computes. -/
theorem exec_interp (hphi : (f.value u).op ≠ .phi) (hconst : (f.value u).op ≠ .const)
    (hstore : (f.value u).op ≠ .store) (hx : f.exec s u = .ok t) :
    (∃ r, (f.value u).bare.eval? ((f.value u).reads.map f.operandType)
        ((f.value u).reads.map (W.interp.read s.env)) = some r ∧ t.env u = r ∧ t.mem = s.mem) ∨
      (f.value u).bare.eval? ((f.value u).reads.map f.operandType)
        ((f.value u).reads.map (W.interp.read s.env)) = none ∧ (f.value u).type.Fits (t.env u) := by
  unfold exec at hx
  rw [if_neg hphi] at hx
  unfold Interp.perform at hx
  rw [if_neg (show (f.value u).bare.op ≠ .const from hconst)] at hx
  have hassign : ∀ r : List UInt64 × W.Mem,
      (Interp.State.assign (I := W.interp) s u (f.value u).bare.op r).env u = r.1 := by
    intro r
    simp only [Interp.State.assign]
    rw [if_neg (show (f.value u).bare.op ≠ .store from hstore)]
    exact Function.update_self ..
  generalize hexec : W.interp.exec u (f.value u).bare ((f.value u).reads.map f.operandType)
    ((f.value u).reads.map s.get) s.mem = x at hx
  cases hfold : (f.value u).bare.eval? ((f.value u).reads.map f.operandType)
      ((f.value u).reads.map (W.interp.read s.env)) with
  | some r =>
    have hr : x = .ok (r, s.mem) := by
      rw [← hexec]
      simp only [World.interp]
      erw [hfold]
    rw [hr] at hx
    obtain rfl := Except.ok.inj hx
    exact .inl ⟨r, rfl, hassign _, rfl⟩
  | none =>
    refine .inr ⟨rfl, ?_⟩
    have hr : W.exec u (f.value u).bare ((f.value u).reads.map f.operandType)
        ((f.value u).reads.map s.get) s.mem = x := by
      rw [← hexec]
      simp only [World.interp]
      erw [hfold]
    cases x with
    | error why => cases hx
    | ok r =>
      obtain rfl := Except.ok.inj hx
      rw [hassign]
      exact W.fits _ (f.value u).bare _ _ _ _ hr

/-- What a constant is when it has been computed. -/
theorem exec_const (hconst : (f.value u).op = .const) (hx : f.exec s u = .ok t) :
    t.env u = (f.value u).constLanes.getD [] := by
  unfold exec Interp.perform at hx
  rw [if_neg (by simp [hconst]), if_pos (show (f.value u).bare.op = .const from hconst)] at hx
  obtain rfl := Except.ok.inj hx
  have hstore : (f.value u).bare.op ≠ .store := by
    rw [show (f.value u).bare.op = .const from hconst]
    decide
  simp only [Interp.State.assign, if_neg hstore, Function.update_self]
  rfl

/-- Folding the operands of the value gives these lanes. -/
def Makes (W : World) (f : Func) (v : ValueId) (env : ValueId → List UInt64) (r : List UInt64) :
    Prop :=
  (f.value v).bare.eval? ((f.value v).reads.map f.operandType)
    ((f.value v).reads.map (W.interp.read env)) = some r

/-- An instruction whose operands fold does nothing but take the lanes. -/
theorem exec_of_makes {r : List UInt64} (h : Makes W f v s.env r) :
    f.exec s v = .ok (s.assign v (f.value v).op (r, s.mem)) := by
  obtain ⟨hop, -⟩ := Value.eval?_eq_some.mp h
  have hop : (f.value v).op.isFoldable = true := hop
  have hconst : (f.value v).op ≠ .const := fun heq => by
    cases (eval?_const (y := (f.value v).bare) heq).symm.trans h
  have hexec : W.interp.exec v (f.value v).bare ((f.value v).reads.map f.operandType)
      ((f.value v).reads.map s.get) s.mem = .ok (r, s.mem) := by
    unfold Makes at h
    simp only [World.interp]
    erw [h]
  unfold exec Interp.perform
  rw [if_neg (Op.isFoldable_ne hop).1, if_neg (show (f.value v).bare.op ≠ .const from hconst), hexec]
  rfl

/-- While a function runs, all that can be read is what it is made of. -/
theorem folded_invariant (W : World) (hs : f.Ssa) :
    Invariant W.interp f f.Reached (f.Folded W) where
  reached _ hb := hb
  start := .refl _ _
  frame v d env env' _ hd hr henv hc := by
    have hv : env v = env' v := henv v (.inl rfl)
    refine ⟨fun r hr => hv ▸ hc.const r hr, fun r hfold => ?_⟩
    by_cases hphi : (f.value v).op = .phi
    · rw [eval?_phi (y := (f.value v).bare) hphi] at hfold
      cases hfold
    · rw [← hv]
      refine hc.folded r ?_
      rw [reads_congr (I := W.interp) hs hd hr hphi henv]
      exact hfold
  value b pre u post s t hb hvals hphi hstore _ hx := by
    have hbl := hs.flow.reached_mem hb
    have hu : u ∈ (f.block b).values := by rw [hvals]; simp
    by_cases hconst : (f.value u).op = .const
    · refine ⟨fun r hr => by rw [exec_const hconst hx, hr]; rfl, fun r hfold => ?_⟩
      rw [eval?_const (y := (f.value u).bare) hconst] at hfold
      cases hfold
    · have hreads : (f.value u).reads.map (W.interp.read t.env) =
          (f.value u).reads.map (W.interp.read s.env) := by
        refine List.map_congr_left fun o ho => ?_
        obtain ⟨a, rfl, hbefore⟩ := hs.reads_value hbl hu hphi ho
        exact exec_env hx (hbefore.ne hs.listing hbl hb hu hstore)
      refine ⟨fun r hr => absurd (constLanes_op hr) hconst, fun r hfold => ?_⟩
      rw [hreads] at hfold
      rcases exec_interp hphi hconst hstore hx with ⟨r', hfold', hr, -⟩ | ⟨hnone, -⟩
      · exact hr.trans (Option.some.inj (hfold'.symm.trans hfold))
      · cases hnone.symm.trans hfold
  edge b s p hb _ hp := by
    obtain ⟨i, j, _, hf, _⟩ := leave_eq_ok hp
    exact Reach.step hb (follow_next hf)
  phi b s p _ _ _ v _ hphi := by
    refine ⟨fun r hr => ?_, fun r hfold => ?_⟩
    · rw [constLanes_op hr] at hphi
      cases hphi
    · rw [eval?_phi (y := (f.value v).bare) hphi] at hfold
      cases hfold

/-- While a good function runs, all that can be read fits its type and is what it is made of. -/
theorem computed_invariant (W : World) (h : f.Good strict) :
    Invariant W.interp f f.Reached (f.Computed W) where
  reached _ hb := hb
  start := .refl _ _
  frame v d env env' hstore hd hr henv hc :=
    ⟨(folded_invariant W h.ssa).frame v d env env' hstore hd hr henv hc.toFolded,
      henv v (.inl rfl) ▸ hc.fits⟩
  value b pre u post s t hb hvals hphi hstore hH hx := by
    have hbl := h.ssa.flow.reached_mem hb
    have hu : u ∈ (f.block b).values := by rw [hvals]; simp
    have hfolded := (folded_invariant W h.ssa).value b pre u post s t hb hvals hphi hstore
      (fun x hk => (hH x hk).toFolded) hx
    refine ⟨hfolded, ?_⟩
    by_cases hconst : (f.value u).op = .const
    · obtain ⟨r, hr⟩ := h.const_lanes hbl hu hconst
      rw [hfolded.const r hr]
      exact constLanes_fits h.fit hbl hu hr
    · rcases exec_interp hphi hconst hstore hx with ⟨r, hfold, hr, _⟩ | ⟨-, hfits⟩
      · rw [hr]
        exact h.eval?_fits hbl hu (reads_fit h hbl hb hvals hphi hH) hfold
      · exact hfits
  edge b s p hb _ hp := by
    obtain ⟨i, j, _, hf, _⟩ := leave_eq_ok hp
    exact Reach.step hb (follow_next hf)
  phi b s p hb hH hp v hv hphi := by
    refine ⟨(folded_invariant W h.ssa).phi b s p hb (fun x hk => (hH x hk).toFolded) hp v hv hphi, ?_⟩
    obtain ⟨i, j, _, hf, hp2⟩ := leave_eq_ok hp
    have hbl := h.ssa.flow.reached_mem hb
    have hcl := h.ssa.flow.succs_mem b hbl p.1 (follow_next hf)
    obtain ⟨a, harg, hty, hend⟩ := h.ssa.phi_arg hcl hv hphi hf
    have hstore : (f.value a).op ≠ .store :=
      h.tidy.noStore_arg hcl hv (List.mem_of_getElem? harg) a rfl
    have henv : p.2.env v = s.env a := by
      rw [hp2, enter_phi hv hphi, List.getD_eq_getElem?_getD, harg]
      rfl
    rw [henv, ← hty]
    exact (hH a (hend.known h.ssa.listing hb hstore)).fits

end Func
end SsaJit
