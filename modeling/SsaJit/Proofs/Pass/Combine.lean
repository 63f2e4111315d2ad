import SsaJit.Pass.Combine
import SsaJit.Proofs.Pass.Basic

/-! Combining instructions keeps functions good: whatever is put for a value is one of its operands,
one of theirs, or a constant of the same type. -/

namespace SsaJit.Func

variable {f g : Func} {b c d : BlockId} {u v w x id : ValueId} {o : Operand} {strict : Prop}

/-! ## Operands of typed values -/

theorem args_one {y : Value} {s : Ty} (hval : ∀ o ∈ y.args, ∃ v, o = .value v)
    (h : f.argTypes y = [s]) : ∃ a, y.args = [.value a] ∧ (f.value a).type = s := by
  obtain ⟨vs, hvs⟩ := exists_values hval
  rw [argTypes, hvs] at h
  obtain ⟨a, rfl⟩ := List.length_eq_one_iff.mp (by simpa using congrArg List.length h)
  exact ⟨a, hvs, by simpa [operandType] using h⟩

theorem args_two {y : Value} {s t : Ty} (hval : ∀ o ∈ y.args, ∃ v, o = .value v)
    (h : f.argTypes y = [s, t]) : ∃ a c, y.args = [.value a, .value c] ∧
      (f.value a).type = s ∧ (f.value c).type = t := by
  obtain ⟨vs, hvs⟩ := exists_values hval
  rw [argTypes, hvs] at h
  obtain ⟨a, c, rfl⟩ := List.length_eq_two.mp (by simpa using congrArg List.length h)
  exact ⟨a, c, hvs, by simpa [operandType] using h⟩

theorem args_three {y : Value} {s t r : Ty} (hval : ∀ o ∈ y.args, ∃ v, o = .value v)
    (h : f.argTypes y = [s, t, r]) : ∃ a c e, y.args = [.value a, .value c, .value e] ∧
      (f.value a).type = s ∧ (f.value c).type = t ∧ (f.value e).type = r := by
  obtain ⟨vs, hvs⟩ := exists_values hval
  rw [argTypes, hvs] at h
  obtain ⟨a, c, e, rfl⟩ := List.length_eq_three.mp (by simpa using congrArg List.length h)
  exact ⟨a, c, e, hvs, by simpa [operandType] using h⟩

theorem WellTyped.binary {y : Value} {ts : List Ty} {home : Prop} (h : WellTyped y ts home)
    (hop : y.op.isBinary = true) : ts = [y.type, y.type] := by
  rw [WellTyped, if_pos hop] at h
  exact h.1

theorem Op.isBinary_of_commutative {op : Op} (h : op.isCommutative = true) :
    op.isBinary = true := by
  cases op <;> first | rfl | cases h

theorem Op.isFloatBinary_of_commutative {op : Op} (h : op.isCommutative = true) (hadd : op ≠ .fadd)
    (hmul : op ≠ .fmul) : op.isFloatBinary = false := by
  cases op <;> first | rfl | exact absurd rfl hadd | exact absurd rfl hmul | cases h

/-- A value that can stand for another one where that one stands. -/
structure Serves (f : Func) (w v : ValueId) (b : BlockId) : Prop where
  before : f.Before (.value w) v b
  type : (f.value w).type = (f.value v).type
  noStore : (f.value w).op ≠ .store

theorem Serves.listed (h : f.Serves w v b) (hs : f.Ssa) : ∃ d ∈ f.layout, w ∈ (f.block d).values :=
  (h.before.listed hs.listing).resolve_left h.noStore

theorem isBinary_ne {op : Op} (h : op.isBinary = true) :
    op ≠ .phi ∧ op ≠ .param ∧ op ≠ .store := by
  refine ⟨?_, ?_, ?_⟩ <;> rintro rfl <;> simp [Op.isBinary] at h

/-- The result of a binary operation is not void. -/
theorem WellTyped.ne_void {y : Value} {ts : List Ty} {home : Prop} (h : WellTyped y ts home)
    (hop : y.op.isBinary = true) : y.type ≠ .void := by
  rw [WellTyped, if_pos hop] at h
  intro heq
  rw [heq] at h
  split at h
  · cases h.2
  · cases h.2

theorem Plain.binary_args (h : f.Plain) (hb : b ∈ f.layout) (hv : v ∈ (f.block b).values)
    (hop : (f.value v).op.isBinary = true) :
    ∃ a c, (f.value v).args = [.value a, .value c] ∧ f.Serves a v b ∧ f.Serves c v b := by
  obtain ⟨hphi, hparam, -⟩ := isBinary_ne hop
  have hty := h.ssa.typed hb hv hphi
  obtain ⟨a, c, hargs, ha, hc⟩ := args_two
    (fun o ho => (h.ssa.before hb hv hphi hparam ho).isValue) (hty.binary hop)
  have hserves : ∀ x, .value x ∈ (f.value v).args → (f.value x).type = (f.value v).type →
      f.Serves x v b := fun x hx hxt =>
    ⟨h.ssa.before hb hv hphi hparam hx, hxt,
      fun hstore => hty.ne_void hop (hxt ▸ h.stores b hb v hv x hx hstore)⟩
  exact ⟨a, c, hargs, hserves a (by simp [hargs]) ha, hserves c (by simp [hargs]) hc⟩

section

variable (h : f.Good strict) (hb : b ∈ f.layout) (hv : v ∈ (f.block b).values)
include h hb hv

theorem Good.argValues (hphi : (f.value v).op ≠ .phi) (hparam : (f.value v).op ≠ .param) :
    ∀ o ∈ (f.value v).args, ∃ a, o = .value a :=
  fun _ ho => (h.ssa.before hb hv hphi hparam ho).isValue

theorem Good.binary_args (hop : (f.value v).op.isBinary = true) :
    ∃ a c, (f.value v).args = [.value a, .value c] ∧ f.Serves a v b ∧ f.Serves c v b :=
  h.plain.binary_args hb hv hop

end

/-! ## Other operands for binary operations -/

section setBinary

variable {op : Op} {k : Value → Value} (hb : b ∈ f.layout) (hv : v ∈ (f.block b).values)
  (hop : (f.value v).op.isBinary = true) (hop' : op.isBinary = true)
  (hk : k (f.value v) = { f.value v with op := op, args := [.value a, .value c] })
include hb hv hop hop' hk

/-- Other operands for a binary operation, and another operation of the same sort. -/
theorem Plain.setBinary (h : f.Plain) (hfloat : op.isFloatBinary = (f.value v).op.isFloatBinary)
    (ha : f.Serves a v b) (hc : f.Serves c v b) :
    (f.modifyValue v k).Plain ∧ Keeps f (f.modifyValue v k) := by
  obtain ⟨hphi, hparam, hstore⟩ := isBinary_ne hop
  obtain ⟨hphi', hparam', hstore'⟩ := isBinary_ne hop'
  have hlt := h.ssa.listing.lt hb hv
  refine ⟨⟨h.ssa.modifyValue hb hv (by rw [hk]) (by rw [hk]) ⟨hphi, hparam, hstore⟩
    (by rw [hk]; exact hphi') ?_ ?_, fun d hd u hu x hx hxs => ?_⟩, .modifyValue hlt (by rw [hk])⟩
  · rw [hk]
    simp only [List.mem_cons, List.not_mem_nil, or_false]
    rintro o (rfl | rfl)
    · exact ha.before
    · exact hc.before
  · have hty := h.ssa.typed hb hv hphi
    rw [WellTyped, if_pos hop] at hty
    rw [hk, WellTyped, if_pos hop', hfloat]
    refine ⟨?_, hty.2⟩
    simp [argTypes, operandType, ha.type, hc.type]
  · have hval : ∀ x, (f.modifyValue v k).value x =
        if x = v then { f.value v with op := op, args := [.value a, .value c] } else f.value x :=
      fun x => by rw [value_modifyValue hlt, hk]
    have hxv : x ≠ v := by
      rintro rfl
      rw [hval, if_pos rfl] at hxs
      exact hstore' hxs
    rw [hval, if_neg hxv] at hxs ⊢
    rw [hval] at hx
    split at hx
    · simp only [List.mem_cons, List.not_mem_nil, or_false, Operand.value.injEq] at hx
      rcases hx with rfl | rfl
      · exact absurd hxs ha.noStore
      · exact absurd hxs hc.noStore
    · exact h.stores d hd u hu x hx hxs

omit hop in
theorem Tidy.setBinary (h : f.Tidy strict) (hf : f.Ssa) (ha : f.Serves a v b) (hc : f.Serves c v b) :
    (f.modifyValue v k).Tidy strict := by
  obtain ⟨-, hparam', hstore'⟩ := isBinary_ne hop'
  refine h.modifyValue hf hb hv ?_ (by rw [hk]; exact hstore') ?_
  · rw [hk]
    refine ⟨fun ls hls w hw => ?_, (h.value hb hv).type, fun _ heq => absurd heq hparam'⟩
    have hconst : op ≠ .const := by rintro rfl; simp [Op.isBinary] at hop'
    simp [Value.constLanes, Value.isConst, hconst] at hls
  · rw [hk]
    simp only [List.mem_cons, List.not_mem_nil, or_false]
    rintro o (rfl | rfl) y hy
    · obtain rfl : a = y := by simpa using hy
      exact ha.noStore
    · obtain rfl : c = y := by simpa using hy
      exact hc.noStore

end setBinary

/-! ## Constants to the right -/

/-- The function with the two operands of a value turned round. -/
def turned (f : Func) (v a c : ValueId) : Func :=
  f.modifyValue v fun y => { y with args := [.value c, .value a] }

/-- Nothing was done, or the operands of a commutative operation were turned round. -/
inductive Commuted (f : Func) (v : ValueId) : Func → Prop
  | left : Commuted f v f
  | turned {a c : ValueId} (hop : (f.value v).op.isCommutative = true)
      (hargs : (f.value v).args = [.value a, .value c]) : Commuted f v (f.turned v a c)

theorem commuteConst_spec (h : f.Plain) (hb : b ∈ f.layout) (hv : v ∈ (f.block b).values) :
    ∃ g, f.commuteConst v = .ok g ∧ Commuted f v g := by
  unfold commuteConst
  by_cases hcomm : (f.value v).op.isCommutative = true
  · obtain ⟨a, c, hargs, -⟩ := h.binary_args hb hv (Op.isBinary_of_commutative hcomm)
    have h0 : f.argument (f.value v) 0 = .ok (f.value a) := argument_eq (by simp [hargs])
    have h1 : f.argument (f.value v) 1 = .ok (f.value c) := argument_eq (by simp [hargs])
    simp only [hcomm, h0, h1, Bool.not_true, Bool.false_eq_true, if_false, Outcome.ok_bind]
    split
    · exact ⟨f, rfl, .left⟩
    split
    · exact ⟨f, rfl, .left⟩
    refine ⟨_, rfl, ?_⟩
    rw [modifyValue_congr (q := fun y => { y with args := [.value c, .value a] }) (by rw [hargs])]
    exact .turned hcomm hargs
  · simp only [hcomm]
    exact ⟨f, rfl, .left⟩

theorem value_turned {a c : ValueId} (hv : v < f.numValues) :
    (f.turned v a c).value v = { f.value v with args := [.value c, .value a] } := by
  rw [turned, value_modifyValue hv, if_pos rfl]

theorem Commuted.plain (hc : Commuted f v g) (h : f.Plain) (hb : b ∈ f.layout)
    (hv : v ∈ (f.block b).values) : g.Plain ∧ Keeps f g ∧ v ∈ (g.block b).values := by
  cases hc with
  | left => exact ⟨h, .refl f, hv⟩
  | turned hcomm hargs =>
    have hbin := Op.isBinary_of_commutative hcomm
    obtain ⟨a, c, hargs', ha, hc⟩ := h.binary_args hb hv hbin
    obtain ⟨rfl, rfl⟩ := by simpa [hargs] using hargs'
    obtain ⟨hplain, hkeeps⟩ := h.setBinary (k := fun y => { y with args := [.value _, .value _] })
      hb hv hbin hbin rfl rfl hc ha
    refine ⟨hplain, hkeeps, ?_⟩
    rwa [Func.turned, block_modifyValue]

theorem Commuted.tidy (hc : Commuted f v g) (h : f.Tidy strict) (hf : f.Plain) (hb : b ∈ f.layout)
    (hv : v ∈ (f.block b).values) : g.Tidy strict := by
  cases hc with
  | left => exact h
  | turned hcomm hargs =>
    have hbin := Op.isBinary_of_commutative hcomm
    obtain ⟨a, c, hargs', ha, hc⟩ := hf.binary_args hb hv hbin
    obtain ⟨rfl, rfl⟩ := by simpa [hargs] using hargs'
    exact h.setBinary (k := fun y => { y with args := [.value _, .value _] })
      hb hv hbin rfl hf.ssa hc ha

theorem Commuted.good (hc : Commuted f v g) (h : f.Good strict) (hb : b ∈ f.layout)
    (hv : v ∈ (f.block b).values) : g.Good strict ∧ Keeps f g ∧ v ∈ (g.block b).values := by
  obtain ⟨hplain, hkeeps, hvg⟩ := hc.plain h.plain hb hv
  exact ⟨⟨hplain.ssa, hc.tidy h.tidy h.plain hb hv⟩, hkeeps, hvg⟩

theorem Commuted.op (hc : Commuted f v g) (hv : v < f.numValues) :
    (g.value v).op = (f.value v).op := by
  cases hc with
  | left => rfl
  | turned => rw [value_turned hv]

/-! ## Folding -/

theorem constOperands_spec (f : Func) (vs : List ValueId) :
    ∃ r, f.constOperands (vs.map .value) = .ok r ∧ ∀ ls, r = some ls →
      List.Forall₂ (fun a l => (f.value a).constLanes = some l) vs ls := by
  induction vs with
  | nil => exact ⟨some [], rfl, by simp⟩
  | cons a vs ih =>
    obtain ⟨r, hr, hall⟩ := ih
    simp only [List.map_cons, constOperands, find, Outcome.ok_bind, hr]
    cases hl : (f.value a).constLanes with
    | none => exact ⟨none, rfl, by simp⟩
    | some lanes =>
      refine ⟨r.map (lanes :: ·), rfl, fun ls hls => ?_⟩
      obtain ⟨rest, hrest, rfl⟩ := Option.map_eq_some_iff.mp hls
      exact .cons hl (hall rest hrest)

theorem Good.listed_arg (h : f.Good strict) (hb : b ∈ f.layout) (hv : v ∈ (f.block b).values)
    (hphi : (f.value v).op ≠ .phi) (hparam : (f.value v).op ≠ .param)
    (ha : .value x ∈ (f.value v).args) : ∃ d ∈ f.layout, x ∈ (f.block d).values :=
  ((h.ssa.before hb hv hphi hparam ha).listed h.ssa.listing).resolve_left
    (h.tidy.noStore_arg hb hv ha x rfl)

/-- The operands of the value are constants, and folding them gives these lanes. -/
structure FoldsTo (f : Func) (v : ValueId) (lanes : List UInt64) : Prop where
  pure : (f.value v).isPure = true
  const : (f.value v).op ≠ .const
  intrinsic : (f.value v).op ≠ .intrinsic
  fold : ∃ (vs : List ValueId) (ls : List (List UInt64)), (f.value v).args = vs.map .value ∧
    List.Forall₂ (fun a l => (f.value a).constLanes = some l) vs ls ∧
    (operationOf (f.value v) (f.argTypes (f.value v))).fold ls = .ok (some lanes)

section folding

variable (h : f.Good strict) (hb : b ∈ f.layout) (hv : v ∈ (f.block b).values)
include h hb hv

/-- Constant operands fit their types. -/
theorem Good.consts_fit (hphi : (f.value v).op ≠ .phi) (hparam : (f.value v).op ≠ .param)
    {vs : List ValueId} {ls : List (List UInt64)} (hargs : (f.value v).args = vs.map .value)
    (hls : List.Forall₂ (fun a l => (f.value a).constLanes = some l) vs ls) :
    (∀ t ∈ f.argTypes (f.value v), t.Valid) ∧
      List.Forall₂ Ty.Fits (f.argTypes (f.value v)) ls := by
  have hlisted : ∀ a ∈ vs, ∃ d ∈ f.layout, a ∈ (f.block d).values := fun a ha =>
    h.listed_arg hb hv hphi hparam (by rw [hargs]; exact List.mem_map_of_mem ha)
  have htypes : f.argTypes (f.value v) = vs.map fun a => (f.value a).type := by
    rw [argTypes, hargs, List.map_map]
    rfl
  rw [htypes]
  refine ⟨fun t ht => ?_, ?_⟩
  · obtain ⟨a, ha, rfl⟩ := List.mem_map.mp ht
    obtain ⟨d, hd, had⟩ := hlisted a ha
    exact h.tidy.types d hd a had
  · rw [List.forall₂_map_left_iff]
    refine List.forall₂_iff_get.mpr ⟨hls.length_eq, fun i hi hi' => ?_⟩
    obtain ⟨d, hd, had⟩ := hlisted _ (List.get_mem vs ⟨i, hi⟩)
    exact constLanes_fits h.fit hd had (hls.get hi hi')

theorem FoldsTo.fits {lanes : List UInt64} (hfold : f.FoldsTo v lanes) :
    (f.value v).type.Fits lanes := by
  obtain ⟨hphi, hparam, -⟩ := isPure_op hfold.pure
  obtain ⟨vs, ls, hargs, hls, hfold⟩ := hfold.fold
  obtain ⟨hvalid, hfits⟩ := h.consts_fit hb hv hphi hparam hargs hls
  obtain ⟨r, hr, hall⟩ := fold_fits (h.ssa.typed hb hv hphi) (h.tidy.types b hb v hv) hvalid hfits
  exact hall lanes (Except.ok.inj (hr.symm.trans hfold))

theorem foldValue_spec (hphi : (f.value v).op ≠ .phi) (hparam : (f.value v).op ≠ .param) :
    ∃ r, f.foldValue (f.value v) = .ok r ∧ ∀ lanes, r = some lanes →
      ∃ (vs : List ValueId) (ls : List (List UInt64)), (f.value v).args = vs.map .value ∧
        List.Forall₂ (fun a l => (f.value a).constLanes = some l) vs ls ∧
        (operationOf (f.value v) (f.argTypes (f.value v))).fold ls = .ok (some lanes) := by
  have hval := h.argValues hb hv hphi hparam
  obtain ⟨vs, hvs⟩ := exists_values hval
  obtain ⟨r, hr, hall⟩ := constOperands_spec f vs
  have hop := operation_eq (f := f) hval
  unfold foldValue
  rw [hvs, hr]
  cases r with
  | none => exact ⟨none, rfl, by simp⟩
  | some ls =>
    obtain ⟨hvalid, hfits⟩ := h.consts_fit hb hv hphi hparam hvs (hall ls rfl)
    obtain ⟨l, hl, -⟩ := fold_fits (h.ssa.typed hb hv hphi) (h.tidy.types b hb v hv) hvalid hfits
    simp only [hop, Outcome.ok_bind]
    refine ⟨l, hl, fun lanes hlanes => ⟨vs, ls, rfl, hall ls rfl, ?_⟩⟩
    rw [hl, hlanes]

end folding

/-! ## Operands that a value equals -/

theorem isSplat_spec (f : Func) (a : ValueId) (w : UInt64) : ∃ r, f.isSplat (.value a) w = .ok r := by
  unfold isSplat
  simp only [find, Outcome.ok_bind]
  cases (f.value a).constLanes with
  | none => exact ⟨_, rfl⟩
  | some lanes => exact ⟨_, rfl⟩

/-- The right operand that leaves the left one as it is. -/
def neutral? : Op → Option UInt64
  | .add | .sub | .xor | .or | .shl | .lshr | .ashr => some 0
  | .mul | .sdiv | .udiv => some 1
  | .and => some (-1)
  | _ => none

/-- The right operand that the left one does not matter to. -/
def absorbing? : Op → Option UInt64
  | .mul | .and => some 0
  | _ => none

/-- Conversions there and back. -/
inductive Undoes : Op → Op → Prop
  | bitcast : Undoes .bitcast .bitcast
  | zext : Undoes .trunc .zext
  | sext : Undoes .trunc .sext
  | pointer : Undoes .inttoptr .ptrtoint

/-- Why a value is taken to be equal to one of its operands, or to one of theirs. -/
inductive EqualTo (f : Func) (y : Value) : ValueId → Prop
  | neutral {a c : ValueId} {n : UInt64} (hargs : y.args = [.value a, .value c])
      (hop : neutral? y.op = some n) (hc : f.isSplat (.value c) n = .ok true) : EqualTo f y a
  | absorbing {a c : ValueId} {n : UInt64} (hargs : y.args = [.value a, .value c])
      (hop : absorbing? y.op = some n) (hc : f.isSplat (.value c) n = .ok true) : EqualTo f y c
  | same {a : ValueId} (hargs : y.args = [.value a, .value a]) (hop : y.op = .and ∨ y.op = .or) :
      EqualTo f y a
  | copied {a : ValueId} (hargs : y.args = [.value a]) (hop : y.op = .copy) : EqualTo f y a
  | either {c a : ValueId} (hargs : y.args = [.value c, .value a, .value a])
      (hop : y.op = .select) : EqualTo f y a
  | chosen {c a e : ValueId} (hargs : y.args = [.value c, .value a, .value e])
      (hop : y.op = .select) (hscalar : (f.value c).type.isVector = false)
      (hconst : (f.value c).isConst = true) : EqualTo f y (if (f.value c).aux ≠ 0 then a else e)
  | recast {a : ValueId} (hargs : y.args = [.value a]) (hop : y.op = .bitcast) : EqualTo f y a
  | undone {a e : ValueId} (hargs : y.args = [.value a]) (hinner : (f.value a).args = [.value e])
      (hop : Undoes y.op (f.value a).op) : EqualTo f y e

/-- No operand is known to be equal, or one that can stand for the value. -/
def Equals (f : Func) (v : ValueId) (b : BlockId) (r : Outcome Operand) : Prop :=
  ∃ o, r = .ok o ∧
    (o = .missing ∨ ∃ w, o = .value w ∧ f.Serves w v b ∧ f.EqualTo (f.value v) w)

theorem equals_missing : Equals f v b (.ok .missing) := ⟨_, rfl, .inl rfl⟩

theorem equals_value (h : f.Serves w v b) (heq : f.EqualTo (f.value v) w) :
    Equals f v b (.ok (.value w)) :=
  ⟨_, rfl, .inr ⟨w, rfl, h, heq⟩⟩

/-- Vectors of pointers are not valid. -/
theorem eq_ptr_of_elemKind {t : Ty} (ht : t.Valid) (h : t.elemKind = .ptr) : t = .ptr := by
  cases t with
  | scalar k => exact congrArg Ty.scalar h
  | vec e n =>
    obtain rfl : e = .ptr := h
    simp [Ty.Valid, Ty.laneKind] at ht

theorem castRule?_ptrtoint {s t : Ty} (h : castRule? .ptrtoint s t = none) :
    s.elemKind = .ptr := by
  simp only [castRule?, reduceCtorEq, if_false] at h
  split at h
  · cases h
  · split at h
    · next hok => simp at hok; exact hok.1
    · cases h

theorem castRule?_inttoptr {s t : Ty} (h : castRule? .inttoptr s t = none) :
    t.elemKind = .ptr := by
  simp only [castRule?, reduceCtorEq, if_false] at h
  split at h
  · cases h
  · split at h
    · next hok => simp at hok; exact hok.2
    · cases h

section equalOperand

variable (h : f.Good strict) (hb : b ∈ f.layout) (hv : v ∈ (f.block b).values)
include h hb hv

theorem equalOperand_binary (hop : (f.value v).op.isBinary = true) :
    Equals f v b (f.equalOperand (f.value v)) := by
  obtain ⟨a, c, hargs, ha, hc⟩ := h.binary_args hb hv hop
  have hneutral : ∀ {n}, neutral? (f.value v).op = some n → f.isSplat (.value c) n = .ok true →
      Equals f v b (.ok (.value a)) := fun hop hs => equals_value ha (.neutral hargs hop hs)
  have habsorbing : ∀ {n}, absorbing? (f.value v).op = some n →
      f.isSplat (.value c) n = .ok true → Equals f v b (.ok (.value c)) :=
    fun hop hs => equals_value hc (.absorbing hargs hop hs)
  have hsame : a = c → (f.value v).op = .and ∨ (f.value v).op = .or →
      Equals f v b (.ok (.value a)) :=
    fun hac hop => equals_value ha (.same (by rw [hargs, hac]) hop)
  have hsplat := isSplat_spec f c
  unfold equalOperand
  simp only [hargs, List.headD_cons]
  cases hf : (f.value v).op <;> simp only [hf, Op.isBinary, Bool.false_eq_true] at hop ⊢
  case mul =>
    obtain ⟨r, hr⟩ := hsplat 1
    obtain ⟨s, hs⟩ := hsplat 0
    cases r <;> cases s <;> simp only [hr, hs] <;> first
      | exact hneutral (by rw [hf]; rfl) hr
      | exact habsorbing (by rw [hf]; rfl) hs
      | exact equals_missing
  case and =>
    obtain ⟨r, hr⟩ := hsplat (-1)
    obtain ⟨s, hs⟩ := hsplat 0
    by_cases hac : a = c
    · cases r <;> simpa [hr, hac] using hac ▸ hsame hac (.inl hf)
    · cases r <;> cases s <;> simp [hr, hs, hac] <;> first
        | exact hneutral (by rw [hf]; rfl) hr
        | exact habsorbing (by rw [hf]; rfl) hs
        | exact equals_missing
  case or =>
    obtain ⟨s, hs⟩ := hsplat 0
    by_cases hac : a = c
    · cases s <;> simpa [hs, hac] using hac ▸ hsame hac (.inr hf)
    · cases s <;> simp [hs, hac] <;> first
        | exact hneutral (by rw [hf]; rfl) hs
        | exact equals_missing
  case sdiv | udiv =>
    obtain ⟨s, hs⟩ := hsplat 1
    cases s <;> simp only [hs] <;> first
      | exact hneutral (by rw [hf]; rfl) hs
      | exact equals_missing
  case add | sub | xor | shl | lshr | ashr =>
    obtain ⟨s, hs⟩ := hsplat 0
    cases s <;> simp only [hs] <;> first
      | exact hneutral (by rw [hf]; rfl) hs
      | exact equals_missing
  all_goals exact equals_missing

omit hv in
/-- The operand of a cast that is itself an operand can be read where that one is. -/
theorem innerCast {a d : Nat} (hbefore : f.Before (.value a) v b) (hstore : (f.value a).op ≠ .store)
    (hd : d ∈ f.layout) (had : a ∈ (f.block d).values) (hcast : (f.value a).op.isCast = true) :
    ∃ e, (f.value a).args = [.value e] ∧ f.Before (.value e) v b ∧ (f.value e).op ≠ .store ∧
      (∃ d ∈ f.layout, e ∈ (f.block d).values) ∧
      castRule? (f.value a).op (f.value e).type (f.value a).type = none := by
  have hp : (f.value a).op ≠ .phi := fun heq => by simp [heq, Op.isCast] at hcast
  have hq : (f.value a).op ≠ .param := fun heq => by simp [heq, Op.isCast] at hcast
  have hbin : (f.value a).op.isBinary ≠ true := by
    rw [Op.isBinary_of_isCast hcast]
    exact Bool.false_ne_true
  have hty := h.ssa.typed hd had hp
  rw [WellTyped, if_neg hbin, if_pos hcast] at hty
  obtain ⟨t, ht, hr⟩ := hty
  obtain ⟨e, hea, he⟩ := args_one (h.argValues hd had hp hq) ht
  have hme : .value e ∈ (f.value a).args := by simp [hea]
  exact ⟨e, hea, .trans h.ssa.listing hb hd had hstore (h.ssa.before hd had hp hq hme) hbefore,
    h.tidy.noStore_arg hd had hme e rfl, h.listed_arg hd had hp hq hme, he ▸ hr⟩

theorem equalOperand_cast (hop : (f.value v).op.isCast = true)
    (hbin : (f.value v).op.isBinary ≠ true) : Equals f v b (f.equalOperand (f.value v)) := by
  have hphi : (f.value v).op ≠ .phi := fun heq => by simp [heq, Op.isCast] at hop
  have hparam : (f.value v).op ≠ .param := fun heq => by simp [heq, Op.isCast] at hop
  have hty := h.ssa.typed hb hv hphi
  rw [WellTyped, if_neg hbin, if_pos hop] at hty
  obtain ⟨s, hs, hrule⟩ := hty
  obtain ⟨a, hargs, ha⟩ := args_one (h.argValues hb hv hphi hparam) hs
  have hmem : .value a ∈ (f.value v).args := by simp [hargs]
  have hbefore := h.ssa.before hb hv hphi hparam hmem
  obtain ⟨d, hd, had⟩ := h.listed_arg hb hv hphi hparam hmem
  have hstore : (f.value a).op ≠ .store := h.tidy.noStore_arg hb hv hmem a rfl
  have hinner := fun hcast => innerCast h hb hbefore hstore hd had hcast
  have hval : ∀ e, f.find (.value e) = .ok (f.value e) := fun _ => rfl
  unfold equalOperand
  simp only [hargs]
  cases hf : (f.value v).op <;> simp only [hf, Op.isCast, Bool.false_eq_true] at hop ⊢
  case bitcast =>
    simp only [hval, Outcome.ok_bind]
    split
    · next heq => exact equals_value ⟨hbefore, heq, hstore⟩ (.recast hargs hf)
    split
    · next hb =>
      obtain ⟨e, hea, hbe, hse, _, _⟩ := hinner (by simp [hb, Op.isCast])
      simp only [hea, Outcome.at?, List.getElem?_cons_zero, Outcome.ok_bind, hval]
      split
      · next heq =>
        exact equals_value ⟨hbe, heq, hse⟩ (.undone hargs hea (by rw [hf, hb]; exact .bitcast))
      · exact equals_missing
    · exact equals_missing
  case trunc =>
    simp only [hval, Outcome.ok_bind]
    split
    · next hz =>
      obtain ⟨e, hea, hbe, hse, _, _⟩ := hinner (by rcases hz with hz | hz <;> simp [hz, Op.isCast])
      simp only [hea, Outcome.at?, List.getElem?_cons_zero, Outcome.ok_bind, hval]
      split
      · next heq =>
        refine equals_value ⟨hbe, heq, hse⟩ (.undone hargs hea ?_)
        rcases hz with hz | hz
        · rw [hf, hz]
          exact .zext
        · rw [hf, hz]
          exact .sext
      · exact equals_missing
    · exact equals_missing
  case inttoptr =>
    simp only [hval, Outcome.ok_bind]
    split
    · next hp =>
      obtain ⟨e, hea, hbe, hse, ⟨d', hd', hed⟩, hre⟩ := hinner (by simp [hp, Op.isCast])
      simp only [hea, Outcome.at?, List.getElem?_cons_zero]
      refine equals_value ⟨hbe, ?_, hse⟩ (.undone hargs hea (by rw [hf, hp]; exact .pointer))
      rw [hf] at hrule
      rw [hp] at hre
      rw [eq_ptr_of_elemKind (h.tidy.types d' hd' e hed) (castRule?_ptrtoint hre),
        eq_ptr_of_elemKind (h.tidy.types b hb v hv) (castRule?_inttoptr hrule)]
    · exact equals_missing
  all_goals exact equals_missing

theorem equalOperand_spec : Equals f v b (f.equalOperand (f.value v)) := by
  by_cases hbin : (f.value v).op.isBinary = true
  · exact equalOperand_binary h hb hv hbin
  by_cases hcast : (f.value v).op.isCast = true
  · exact equalOperand_cast h hb hv hcast hbin
  by_cases hcopy : (f.value v).op = .copy
  · have hty := h.ssa.typed hb hv (by simp [hcopy])
    simp only [WellTyped, hcopy, Op.isBinary, Op.isCast, Bool.false_eq_true, if_false] at hty
    obtain ⟨a, hargs, ha⟩ := args_one (h.argValues hb hv (by simp [hcopy]) (by simp [hcopy])) hty
    have hmem : .value a ∈ (f.value v).args := by simp [hargs]
    have hres : f.equalOperand (f.value v) = .ok (.value a) := by
      simp [equalOperand, hargs, hcopy]
    rw [hres]
    exact equals_value ⟨h.ssa.before hb hv (by simp [hcopy]) (by simp [hcopy]) hmem, ha,
      h.tidy.noStore_arg hb hv hmem a rfl⟩ (.copied hargs hcopy)
  by_cases hsel : (f.value v).op = .select
  · have hty := h.ssa.typed hb hv (by simp [hsel])
    simp only [WellTyped, hsel, Op.isBinary, Op.isCast, Bool.false_eq_true, if_false] at hty
    obtain ⟨s, hty, _⟩ := hty
    obtain ⟨a, c, e, hargs, _, hc, he⟩ :=
      args_three (h.argValues hb hv (by simp [hsel]) (by simp [hsel])) hty
    have hserve : ∀ w, .value w ∈ (f.value v).args → (f.value w).type = (f.value v).type →
        f.Serves w v b := fun w hw hwt =>
      ⟨h.ssa.before hb hv (by simp [hsel]) (by simp [hsel]) hw, hwt,
        h.tidy.noStore_arg hb hv hw w rfl⟩
    have hyes := hserve c (by simp [hargs]) hc
    have hno := hserve e (by simp [hargs]) he
    unfold equalOperand
    simp only [hargs, hsel, Outcome.at?, List.getElem?_cons_zero, List.getElem?_cons_succ,
      Outcome.ok_bind, find]
    split
    · next hce =>
      exact equals_value hyes (.either (by rw [hargs, Operand.value.inj hce]) hsel)
    split
    · next hcond =>
      simp only [Bool.and_eq_true, Bool.not_eq_true'] at hcond
      have hchosen := EqualTo.chosen hargs hsel hcond.1 hcond.2
      split
      · next haux => exact equals_value hyes (by rwa [if_pos haux] at hchosen)
      · next haux => exact equals_value hno (by rwa [if_neg haux] at hchosen)
    · exact equals_missing
  · have hres : f.equalOperand (f.value v) = .ok .missing := by
      unfold equalOperand
      cases hargs : (f.value v).args with
      | nil => rfl
      | cons o rest =>
        cases hf : (f.value v).op <;> simp_all [Op.isBinary, Op.isCast]
    rw [hres]
    exact equals_missing

end equalOperand

/-! ## One value -/

theorem equalConst?_spec (h : f.Good strict) (hb : b ∈ f.layout) (hv : v ∈ (f.block b).values)
    {lanes : List UInt64} (hl : equalConst? (f.value v) = some lanes) :
    (f.value v).op ≠ .phi ∧ (f.value v).op ≠ .param ∧ (f.value v).op ≠ .store ∧
      lanes.length = (f.value v).type.numLanes ∧
      ∀ w ∈ lanes, (f.value v).type.elemKind.cut ((f.value v).type.elemKind.canon w) =
        (f.value v).type.elemKind.canon w := by
  have hzero : ∀ w ∈ splat (f.value v).type 0,
      (f.value v).type.elemKind.cut ((f.value v).type.elemKind.canon w) =
        (f.value v).type.elemKind.canon w := by
    intro w hw
    obtain rfl := List.eq_of_mem_replicate hw
    simp
  have hlen : ∀ w, (splat (f.value v).type w).length = (f.value v).type.numLanes :=
    fun w => List.length_replicate
  unfold equalConst? at hl
  split at hl
  · split at hl
    · cases hl
    · cases hf : (f.value v).op <;> simp only [hf, reduceCtorEq] at hl
      case sub | xor =>
        obtain rfl := Option.some.inj hl
        exact ⟨by simp, by simp, by simp, hlen 0, hzero⟩
      case icmp =>
        have hty := h.ssa.typed hb hv (by simp [hf])
        simp only [WellTyped, hf, Op.isBinary, Op.isCast, Bool.false_eq_true, if_false] at hty
        obtain ⟨s, hs, hmask, _⟩ := hty
        obtain ⟨a, c, hargs, ha, _⟩ :=
          args_two (h.argValues hb hv (by simp [hf]) (by simp [hf])) hs
        obtain ⟨d, hd, had⟩ := h.listed_arg hb hv (by simp [hf]) (by simp [hf])
          (x := a) (by simp [hargs])
        have hsize := (maskType_spec (ha ▸ h.tidy.types d hd a had) hmask).2
        obtain ⟨w, rfl⟩ : ∃ w, lanes = splat (f.value v).type w := by
          split at hl
          all_goals first | exact ⟨_, (Option.some.inj hl).symm⟩ | cases hl
        exact ⟨by simp, by simp, by simp, hlen w, fun w _ => Kind.cut_canon hsize⟩
  · cases hl

theorem replaceByConst_good (h : f.Good strict) (hb : b ∈ f.layout) (hv : v ∈ (f.block b).values)
    (hphi : (f.value v).op ≠ .phi) (hparam : (f.value v).op ≠ .param)
    (hstore : (f.value v).op ≠ .store) {lanes : List UInt64}
    (hl : lanes.length = (f.value v).type.numLanes)
    (hfit : ∀ w ∈ lanes, (f.value v).type.elemKind.cut ((f.value v).type.elemKind.canon w) =
      (f.value v).type.elemKind.canon w) :
    ((f.withConst b v lanes).replaceValue v (.value f.numValues)).Good strict ∧
      Keeps f ((f.withConst b v lanes).replaceValue v (.value f.numValues)) :=
  ⟨⟨replaceByConst_ssa h.ssa hb hv hphi hparam hstore hl,
    replaceByConst_tidy h.ssa h.tidy hb hv hphi hparam hstore hl hfit⟩,
    replaceByConst_keeps h.ssa hb hv hphi hparam hstore hl⟩

theorem Serves.replaceValue (hs : f.Serves w v b) (h : f.Good strict) (hb : b ∈ f.layout)
    (hr : f.Reached b) (hv : v ∈ (f.block b).values) (hstore : (f.value v).op ≠ .store) :
    (f.replaceValue v (.value w)).Good strict ∧ Keeps f (f.replaceValue v (.value w)) := by
  have hc := Covers.of_before h.ssa.listing hb hv hstore hs.type hs.before
  have hne := hs.before.ne h.ssa.listing hb hr hv hstore
  exact ⟨⟨h.ssa.replaceValue hb hv hne hc, h.tidy.replaceValue h.ssa hb hv hc hs.noStore⟩,
    .replaceValue h.ssa hb hv hc⟩

theorem equalOperand_store (hop : (f.value v).op = .store) :
    f.equalOperand (f.value v) = .ok .missing := by
  unfold equalOperand
  cases (f.value v).args with
  | nil => rfl
  | cons o rest => simp [hop]

/-- Combine a value whose folding has been tried. -/
def combineFolded (f : Func) (v : ValueId) : Option (List UInt64) → Optimized
  | some lanes => do return (← f.replaceByConst v lanes, true)
  | none => do
    match ← f.equalOperand (f.value v) with
    | .missing =>
      match equalConst? (f.value v) with
      | some lanes => return (← f.replaceByConst v lanes, true)
      | none => return (f, false)
    | w => return (f.replaceValue v w, true)

/-- The lanes of a value that is to be folded and can be. -/
def tryFold (f : Func) (v : ValueId) : Outcome (Option (List UInt64)) :=
  if (f.value v).isPure && (f.value v).op != .const && (f.value v).op != .intrinsic
    then f.foldValue (f.value v) else .ok none

theorem combineValue_eq :
    f.combineValue v = f.commuteConst v >>= fun k => k.tryFold v >>= k.combineFolded v := by
  unfold combineValue combineFolded tryFold
  refine congrArg (f.commuteConst v >>= ·) (funext fun k => ?_)
  simp only
  split <;> rfl

theorem tryFold_spec (h : f.Good strict) (hb : b ∈ f.layout) (hv : v ∈ (f.block b).values) :
    ∃ r, f.tryFold v = .ok r ∧ ∀ lanes, r = some lanes → f.FoldsTo v lanes := by
  unfold tryFold
  split
  · next hp =>
    simp only [Bool.and_eq_true, bne_iff_ne] at hp
    obtain ⟨⟨hpure, hconst⟩, hintr⟩ := hp
    obtain ⟨hphi, hparam, -⟩ := isPure_op hpure
    obtain ⟨r, hr, hall⟩ := foldValue_spec h hb hv hphi hparam
    exact ⟨r, hr, fun lanes hl => ⟨hpure, hconst, hintr, hall lanes hl⟩⟩
  · exact ⟨none, rfl, by simp⟩

/-- What a function becomes when one value is combined. -/
inductive Combined (f : Func) (b : BlockId) (v : ValueId) : Func → Prop
  | left : Combined f b v f
  | folded {lanes : List UInt64} (h : f.FoldsTo v lanes) :
      Combined f b v ((f.withConst b v lanes).replaceValue v (.value f.numValues))
  | operand {w : ValueId} (hs : f.Serves w v b) (heq : f.EqualTo (f.value v) w)
      (hstore : (f.value v).op ≠ .store) : Combined f b v (f.replaceValue v (.value w))
  | constant {lanes : List UInt64} (h : equalConst? (f.value v) = some lanes) :
      Combined f b v ((f.withConst b v lanes).replaceValue v (.value f.numValues))

theorem Combined.good (hc : Combined f b v g) (h : f.Good strict) (hb : b ∈ f.layout)
    (hr : f.Reached b) (hv : v ∈ (f.block b).values) : g.Good strict ∧ Keeps f g := by
  cases hc with
  | left => exact ⟨h, .refl f⟩
  | folded hfold =>
    obtain ⟨hphi, hparam, hstore, -⟩ := isPure_op hfold.pure
    have hfits := hfold.fits h hb hv
    exact replaceByConst_good h hb hv hphi hparam hstore hfits.1 hfits.cut_canon
  | operand hs _ hstore => exact hs.replaceValue h hb hr hv hstore
  | constant hl =>
    obtain ⟨hphi, hparam, hstore, hlen, hfit⟩ := equalConst?_spec h hb hv hl
    exact replaceByConst_good h hb hv hphi hparam hstore hlen hfit

theorem combineValue_spec (h : f.Good strict) (hb : b ∈ f.layout) (hv : v ∈ (f.block b).values) :
    ∃ k g ch, f.combineValue v = .ok (g, ch) ∧ Commuted f v k ∧ Combined k b v g := by
  obtain ⟨k, hk, hcomm⟩ := commuteConst_spec h.plain hb hv
  obtain ⟨hgood, hkeep, hvk⟩ := hcomm.good h hb hv
  have hbk : b ∈ k.layout := hkeep.graph.layout ▸ hb
  refine ⟨k, ?_⟩
  rw [combineValue_eq, hk]
  obtain ⟨r, hr, hall⟩ := tryFold_spec hgood hbk hvk
  simp only [Outcome.ok_bind, hr, combineFolded]
  cases r with
  | some lanes =>
    have hfold := hall lanes rfl
    simp only [replaceByConst_eq hgood.ssa hbk hvk (hfold.fits hgood hbk hvk).1]
    exact ⟨_, true, rfl, hcomm, .folded hfold⟩
  | none =>
    obtain ⟨o, ho, hor⟩ := equalOperand_spec hgood hbk hvk
    simp only [ho, Outcome.ok_bind]
    rcases hor with rfl | ⟨w, rfl, hs, heq⟩
    · cases hl : equalConst? (k.value v) with
      | none => exact ⟨k, false, rfl, hcomm, .left⟩
      | some lanes =>
        obtain ⟨-, -, -, hlen, -⟩ := equalConst?_spec hgood hbk hvk hl
        simp only [replaceByConst_eq hgood.ssa hbk hvk hlen]
        exact ⟨_, true, rfl, hcomm, .constant hl⟩
    · have hstore : (k.value v).op ≠ .store := fun hop => by
        rw [equalOperand_store hop] at ho
        cases ho
      exact ⟨_, true, rfl, hcomm, .operand hs heq hstore⟩

/-! ## The whole function -/

/-- A property of good functions that combining one value keeps is kept when all are combined. -/
theorem combine_keeps {P : Func → Prop}
    (hstep : ∀ k m g b v, P k → k.Good strict → b ∈ k.layout → k.Reached b → v ∈ (k.block b).values →
      (k.value v).volatile = false → Commuted k v m → Combined m b v g → P g)
    (h : f.Good strict) (hP : P f) :
    ∃ g ch, f.combine = .ok (g, ch) ∧ g.Good strict ∧ P g := by
  refine sweep_keeps (P := fun k => k.Good strict ∧ P k) (fun y => y.block.isNone || y.volatile)
    combineValue (fun y hy => (Bool.or_eq_false_iff.mp hy).1) (fun k hk => hk.1.ssa)
    (fun k b v hk hb hr hv hskip => ?_) ⟨h, hP⟩
  obtain ⟨m, g, ch, hg, hcomm, hcomb⟩ := combineValue_spec hk.1 hb hv
  obtain ⟨hm, hkm, hvm⟩ := hcomm.good hk.1 hb hv
  obtain ⟨hgood, hmg⟩ := hcomb.good hm (hkm.graph.layout ▸ hb) (hkm.graph.reached.mpr hr) hvm
  have hPg := hstep k m g b v hk.2 hk.1 hb hr hv (Bool.or_eq_false_iff.mp hskip).2 hcomm hcomb
  exact ⟨g, ch, hg, ⟨hgood, hPg⟩, hkm.trans hmg⟩

theorem combine_good (h : f.Good strict) : ∃ g ch, f.combine = .ok (g, ch) ∧ g.Good strict := by
  obtain ⟨g, ch, hg, hgood, -⟩ := combine_keeps (P := fun _ => True) (by simp) h trivial
  exact ⟨g, ch, hg, hgood⟩

end SsaJit.Func
