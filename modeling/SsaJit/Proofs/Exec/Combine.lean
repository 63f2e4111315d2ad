import SsaJit.Proofs.Exec.Equal
import SsaJit.Proofs.Exec.Pure

/-! Combining instructions leaves functions running as before, if no floats are added or multiplied and
no pointer goes through an integer of fewer bits. Each value that is replaced has the lanes of what is
put for it whenever it can be read, and computing it has no effect. -/

namespace SsaJit.Func

variable {W : World} {f g : Func} {b c d : BlockId} {u v w a e : ValueId} {o : Operand}
  {strict : Prop} {env : ValueId → List UInt64} {s t : W.interp.State} {pre post : List ValueId}

/-! ## One value for another -/

section

variable (h : f.Good strict) (hb : b ∈ f.layout) (hv : v ∈ (f.block b).values)
include h hb hv

omit hv in
theorem seen_of_holding (hr : f.Reached b) (hvals : (f.block b).values = pre ++ v :: post)
    (hH : f.Holding (f.Computed W) b pre s) : Seen W f b v s.env :=
  fun a ha hstore => hH a (ha.known h.ssa.listing hb hr hvals hstore)

/-- A value that can stand for another one and is what folding makes of that one's operands equals it
whenever that one can be read. -/
theorem paired_invariant (hs : f.Serves w v b) (hr : f.Reached b)
    (hop : (f.value v).op.isFoldable = true)
    (hmakes : ∀ env, Seen W f b v env → Makes W f v env (env w)) :
    Invariant W.interp f f.Reached fun x env => f.Computed W x env ∧ (x = v → env v = env w) := by
  obtain ⟨hphi, -, hstore, -⟩ := Op.isFoldable_ne hop
  refine (computed_invariant W h).paired h.ssa hb hv hr hphi hstore hs.before
    fun pre post s t _ hvals hH hx => ?_
  rw [exec_of_makes (hmakes s.env (seen_of_holding h hb hr hvals hH))] at hx
  obtain rfl := Except.ok.inj hx
  simp only [Interp.State.assign, if_neg hstore, Function.update_self]

/-- A function runs as before when what folding makes of a value is put for it. -/
theorem Good.alike_of_makes (hs : f.Serves w v b) (hr : f.Reached b)
    (hop : (f.value v).op.isFoldable = true)
    (hmakes : ∀ env, Seen W f b v env → Makes W f v env (env w)) :
    Alike W.interp f (f.replaceValue v (.value w)) := by
  have hstore := (Op.isFoldable_ne hop).2.2.1
  have hne : w ≠ v := hs.before.ne h.ssa.listing hb hr hv hstore
  refine ((paired_invariant h hb hv hs hr hop hmakes).lockstep_replaceValue h.ssa hb hv hne
    (.of_before h.ssa.listing hb hv hstore hs.type hs.before) hstore
    (fun _ _ _ _ hH hv _ => (hH v hv).2 rfl) fun pre post s _ hvals hH => ?_).alike
  exact ⟨_, exec_of_makes (hmakes s.env
    (seen_of_holding h hb hr hvals fun x hx => (hH x hx).1)), rfl⟩

/-- A function runs as before when a value that folds to constant lanes gives way to a constant. -/
theorem Good.alike_of_makes_const {lanes : List UInt64} (hr : f.Reached b)
    (hop : (f.value v).op.isFoldable = true) (hl : lanes.length = (f.value v).type.numLanes)
    (hfit : ∀ w ∈ lanes, (f.value v).type.elemKind.cut ((f.value v).type.elemKind.canon w) =
      (f.value v).type.elemKind.canon w)
    (hmakes : ∀ env, Seen W (f.withConst b v lanes) b v env →
      Makes W (f.withConst b v lanes) v env (lanes.map (f.value v).type.elemKind.canon)) :
    Alike W.interp f ((f.withConst b v lanes).replaceValue v (.value f.numValues)) := by
  obtain ⟨hphi, hparam, -⟩ := Op.isFoldable_ne hop
  obtain ⟨hval, hmem, -⟩ := withConst_old lanes h.ssa hb hv
  have hnew : (f.withConst b v lanes).value f.numValues =
      { constOf (f.value v).type lanes with block := some b } := by
    rw [withConst, value_inserted, if_pos rfl]
  have hgood : (f.withConst b v lanes).Good strict :=
    ⟨withConst_ssa h.ssa hb hv hphi hparam hl, withConst_tidy h.ssa h.tidy hb hv hl hfit⟩
  have hs : (f.withConst b v lanes).Serves f.numValues v b := by
    refine ⟨withConst_before h.ssa hb hv, ?_, ?_⟩
    · rw [hnew, hval]
      exact constOf_type
    · rw [hnew]
      exact (constOf_op ▸ by decide : (constOf (f.value v).type lanes).op ≠ .store)
  have hput : Lockstep W.interp (· ≠ f.numValues) f (f.withConst b v lanes) :=
    lockstep_inserted h.ssa hb (Nat.le_of_lt (List.idxOf_lt_length_of_mem hv)) constOf_op
  refine hput.alike.trans (hgood.alike_of_makes hb hmem hs
      ((sameGraph_inserted (h.ssa.flow.lt b hb)).reached.mpr hr) (by rwa [hval]) fun env hseen => ?_)
  have hlanes : env f.numValues = lanes.map (f.value v).type.elemKind.canon := by
    refine (hseen _ hs.before hs.noStore).const _ ?_
    rw [hnew]
    exact constLanes_constOf hl
  rw [hlanes]
  exact hmakes env hseen

/-- What folded before folds when there is one constant more. -/
theorem FoldsTo.withConst {lanes ls : List UInt64} (hfold : f.FoldsTo v lanes) :
    (f.withConst b v ls).FoldsTo v lanes := by
  obtain ⟨hphi, hparam, -⟩ := isPure_op hfold.pure
  obtain ⟨hval, -, -⟩ := withConst_old ls h.ssa hb hv
  obtain ⟨vs, rs, hargs, hconst, hfolds⟩ := hfold.fold
  have hold : ∀ a ∈ vs, (f.withConst b v ls).value a = f.value a := fun a ha => by
    have hmem : .value a ∈ (f.value v).args := by
      rw [hargs]
      exact List.mem_map_of_mem ha
    rw [Func.withConst, value_inserted, if_neg (h.ssa.before hb hv hphi hparam hmem).ne_numValues]
  refine ⟨by rw [hval]; exact hfold.pure, by rw [hval]; exact hfold.const,
    by rw [hval]; exact hfold.intrinsic, vs, rs, by rw [hval, hargs], ?_, ?_⟩
  · refine List.forall₂_iff_get.mpr ⟨hconst.length_eq, fun i hi hi' => ?_⟩
    rw [hold _ (List.get_mem vs ⟨i, hi⟩)]
    exact hconst.get hi hi'
  · have htypes : (f.withConst b v ls).argTypes (f.value v) = f.argTypes (f.value v) := by
      rw [argTypes, argTypes, hargs, List.map_map, List.map_map]
      refine List.map_congr_left fun a ha => ?_
      simp only [Function.comp, operandType, hold a ha]
    rw [hval, htypes]
    exact hfolds

end

/-! ## One step -/

theorem EqualTo.isFoldable {y : Value} (heq : f.EqualTo y w) : y.op.isFoldable = true := by
  cases heq with
  | neutral _ hop _ => cases hf : y.op <;> simp_all [neutral?, Op.isFoldable]
  | absorbing _ hop _ => cases hf : y.op <;> simp_all [absorbing?, Op.isFoldable]
  | same _ hop => rcases hop with hf | hf <;> rw [hf] <;> rfl
  | copied _ hop | either _ hop | chosen _ hop | recast _ hop => rw [hop]; rfl
  | undone _ _ hop => exact Op.isFoldable_of_cast hop.isCast.1

theorem equalConst?_isFoldable {y : Value} {lanes : List UInt64}
    (hl : equalConst? y = some lanes) : y.op.isFoldable = true := by
  rcases equalConst?_cases hl with ⟨_, _, hop | hop, _⟩ | ⟨_, _, hop, _⟩ <;> rw [hop] <;> rfl

section

variable (h : f.Good strict) (hb : b ∈ f.layout) (hr : f.Reached b)
include h hb hr

/-- Turning round the operands of an operation that does not mind changes nothing. -/
theorem Commuted.alike (hc : Commuted f v g) (hv : v ∈ (f.block b).values)
    (hadd : (f.value v).op ≠ .fadd) (hmul : (f.value v).op ≠ .fmul) : Alike W.interp f g := by
  cases hc with
  | left => exact .refl f
  | turned hcomm hargs =>
    next a c =>
    have hlt := h.ssa.listing.lt hb hv
    have hbin := Op.isBinary_of_commutative hcomm
    have hfold := Op.isFoldable_of_binary hbin
    have hphi := (Op.isFoldable_ne hfold).1
    obtain ⟨a', c', hargs', ha, hc⟩ := h.binary_args hb hv hbin
    obtain ⟨rfl, rfl⟩ : a' = a ∧ c' = c := by simpa [hargs] using hargs'.symm
    have htype : ∀ x, ((f.turned v a' c').value x).type = (f.value x).type := fun x => by
      rw [Func.turned, value_modifyValue hlt]
      split
      · next heq => rw [heq]
      · rfl
    refine ((computed_invariant W h).lockstep_modifyValue h.ssa hb hv rfl hphi hphi
      fun pre post s _ hvals hH => ?_).alike
    have hseen := seen_of_holding h hb hr hvals hH
    have hfits : ∀ {x}, f.Serves x v b → (s.env x).length = (f.value v).type.numLanes :=
      fun hx => by rw [← hx.type]; exact (hseen _ hx.before hx.noStore).fits.1
    obtain ⟨r, hthere, hback⟩ := fold_commuted [(f.value v).type, (f.value v).type]
      hcomm hadd hmul (hfits ha) (hfits hc)
    have hm : Makes W f v s.env r := makes_of_fold (l := [a', c']) hfold hargs
      (by simpa only [List.map_cons, List.map_nil, ha.type, hc.type] using hthere)
    have hval := value_turned (f := f) (v := v) (a := a') (c := c') hlt
    have hm' : Makes W (f.turned v a' c') v s.env r := by
      refine makes_of_fold (l := [c', a']) (by rw [hval]; exact hfold) (by rw [hval]; rfl) ?_
      simp only [List.map_cons, List.map_nil, htype, ha.type, hc.type, hval]
      exact hback
    change (f.turned v a' c').exec s v = f.exec s v
    rw [exec_of_makes hm, exec_of_makes hm', hval]

/-- Combining a value changes nothing. -/
theorem Combined.alike (hc : Combined f b v g) (hv : v ∈ (f.block b).values)
    (hptr : f.PointersWhole) : Alike W.interp f g := by
  cases hc with
  | left => exact .refl f
  | folded hfold =>
    have hfits := hfold.fits h hb hv
    have hop := Op.isFoldable_of_pure hfold.pure hfold.intrinsic
    obtain ⟨hphi, hparam, -⟩ := isPure_op hfold.pure
    obtain ⟨-, hmem, -⟩ := withConst_old _ h.ssa hb hv
    refine h.alike_of_makes_const hb hv hr hop hfits.1 hfits.cut_canon fun env hseen => ?_
    rw [hfits.map_canon]
    exact (hfold.withConst h hb hv).makes ⟨withConst_ssa h.ssa hb hv hphi hparam hfits.1,
      withConst_tidy h.ssa h.tidy hb hv hfits.1 hfits.cut_canon⟩ hb hmem hseen
  | operand hs heq _ =>
    exact h.alike_of_makes hb hv hs hr heq.isFoldable fun env hseen =>
      heq.makes h hb hv hptr hs.type hseen
  | constant hl =>
    obtain ⟨hphi, hparam, -, hlen, hfit⟩ := equalConst?_spec h hb hv hl
    obtain ⟨hval, hmem, -⟩ := withConst_old _ h.ssa hb hv
    refine h.alike_of_makes_const hb hv hr (equalConst?_isFoldable hl) hlen hfit fun env hseen => ?_
    have hmakes := equalConst?_makes ⟨withConst_ssa h.ssa hb hv hphi hparam hlen,
      withConst_tidy h.ssa h.tidy hb hv hlen hfit⟩ hb hmem (by rw [hval]; exact hl) hseen
    rwa [hval] at hmakes

end

/-! ## The whole function -/

/-- No floats are added or multiplied. -/
def NoFloatSums (f : Func) : Prop :=
  ∀ b ∈ f.layout, ∀ v ∈ (f.block b).values, (f.value v).op ≠ .fadd ∧ (f.value v).op ≠ .fmul

/-- Every value of `g` is a constant, or one of `f` that reads operands of the same types. -/
def Descends (f g : Func) : Prop :=
  ∀ b ∈ g.layout, ∀ v ∈ (g.block b).values, (g.value v).op = .const ∨
    (∃ c ∈ f.layout, v ∈ (f.block c).values) ∧ (g.value v).op = (f.value v).op ∧
      (g.value v).type = (f.value v).type ∧
      ((f.value v).op ≠ .param → g.argTypes (g.value v) = f.argTypes (f.value v))

instance : Decidable f.NoFloatSums := inferInstanceAs (Decidable (∀ b ∈ f.layout, _))

theorem Descends.noFloatSums (h : Descends f g) (hf : f.NoFloatSums) : g.NoFloatSums := by
  intro b hb v hv
  rcases h b hb v hv with hop | ⟨⟨c, hc, hvc⟩, hop, -⟩
  · rw [hop]
    decide
  · rw [hop]
    exact hf c hc v hvc

theorem Descends.pointersWhole (h : Descends f g) (hf : f.PointersWhole) : g.PointersWhole := by
  intro b hb u hu hto c hc v hv hfrom htypes
  rcases h b hb u hu with hop | ⟨⟨b', hb', hu'⟩, hop, htype, -⟩
  · rw [hop] at hto
    cases hto
  rcases h c hc v hv with hop' | ⟨⟨c', hc', hv'⟩, hop', -, htypes'⟩
  · rw [hop'] at hfrom
    cases hfrom
  have hfrom : (f.value v).op = .inttoptr := hop'.symm.trans hfrom
  rw [htype]
  exact hf b' hb' u hu' (hop ▸ hto) c' hc' v hv' hfrom
    (by rw [← htypes' (by simp [hfrom]), htypes, htype])

theorem descends_refl (f : Func) : Descends f f :=
  fun b hb _ hv => .inr ⟨⟨b, hb, hv⟩, rfl, rfl, fun _ => rfl⟩

theorem Descends.trans {k : Func} (h₁ : Descends f g) (h₂ : Descends g k) : Descends f k := by
  intro b hb v hv
  rcases h₂ b hb v hv with hop | ⟨⟨c, hc, hvc⟩, hop, htype, htypes⟩
  · exact .inl hop
  rcases h₁ c hc v hvc with hop' | ⟨hin, hop', htype', htypes'⟩
  · exact .inl (hop.trans hop')
  · exact .inr ⟨hin, hop.trans hop', htype.trans htype',
      fun hparam => (htypes (hop' ▸ hparam)).trans (htypes' hparam)⟩

theorem descends_replaceValue (h : f.Ssa) (hb : b ∈ f.layout) (hv : v ∈ (f.block b).values)
    (hc : f.Covers w v) : Descends f (f.replaceValue v (.value w)) := by
  intro c hcl u hu
  have hgraph := (Keeps.replaceValue h hb hv hc).graph
  have hcl' : c ∈ f.layout := hgraph.layout ▸ hcl
  have hu' : u ∈ (f.block c).values := by
    rw [values_replaceValue h hb hv] at hu
    split at hu
    · next heq => exact heq ▸ List.mem_of_mem_erase hu
    · exact hu
  have hval := value_replaceValue_of_mem (w := w) h hb hv hcl' hu'
  refine .inr ⟨⟨c, hcl', hu'⟩, by rw [hval], by rw [hval], fun _ => ?_⟩
  rw [hval, argTypes, argTypes, List.map_map]
  refine List.map_congr_left fun o _ => ?_
  rw [Function.comp, operandType_replaceValue h hb hv, hc.operandType_swap]

theorem descends_withConst {lanes : List UInt64} (h : f.Ssa) (hb : b ∈ f.layout)
    (hv : v ∈ (f.block b).values) : Descends f (f.withConst b v lanes) := by
  intro c hc u hu
  by_cases hnew : u = f.numValues
  · subst hnew
    left
    rw [withConst, value_inserted, if_pos rfl]
    exact constOf_op
  · have hu' : u ∈ (f.block c).values := by
      rw [withConst, block_inserted (h.flow.lt b hb)] at hu
      split at hu
      · next heq =>
        subst heq
        have hi := Nat.le_of_lt (List.idxOf_lt_length_of_mem hv)
        exact ((List.mem_insertIdx hi).mp hu).resolve_left hnew
      · exact hu
    have hval : (f.withConst b v lanes).value u = f.value u := by
      rw [withConst, value_inserted, if_neg hnew]
    refine .inr ⟨⟨c, hc, hu'⟩, by rw [hval], by rw [hval], fun hparam => ?_⟩
    rw [hval]
    refine List.map_congr_left fun o ho => operandType_inserted fun a ha => ?_
    subst ha
    by_cases hphi : (f.value u).op = .phi
    · obtain ⟨_, p, _, hend⟩ := h.arg_pred hc hu' hphi ho
      exact hend.ne_numValues
    · exact (h.before hc hu' hphi hparam ho).ne_numValues

theorem Commuted.descends (hc : Commuted f v g) (h : f.Good strict) (hb : b ∈ f.layout)
    (hv : v ∈ (f.block b).values) : Descends f g := by
  cases hc with
  | left => exact descends_refl f
  | turned hcomm hargs =>
    next x y =>
    have hlt := h.ssa.listing.lt hb hv
    have htype : ∀ o, (f.turned v x y).operandType o = f.operandType o := by
      intro o
      cases o with
      | value a =>
        change ((f.turned v x y).value a).type = (f.value a).type
        rw [Func.turned, value_modifyValue hlt]
        split
        · next heq => rw [heq]
        · rfl
      | missing => rfl
      | foreign n => rfl
    intro c hcl u hu
    refine .inr ⟨⟨c, hcl, hu⟩, ?_⟩
    by_cases huv : u = v
    · subst huv
      have hty := (h.ssa.typed hb hv fun heq => by simp [heq, Op.isCommutative] at hcomm).binary
        (Op.isBinary_of_commutative hcomm)
      rw [value_turned hlt]
      refine ⟨rfl, rfl, fun _ => ?_⟩
      simp only [argTypes, hargs, List.map_cons, List.map_nil, List.cons.injEq, and_true] at hty
      simp only [argTypes, hargs, List.map_cons, List.map_nil, htype, hty.1, hty.2]
    · have hval : (f.turned v x y).value u = f.value u := by
        rw [Func.turned, value_modifyValue hlt, if_neg huv]
      rw [hval]
      exact ⟨rfl, rfl, fun _ => List.map_congr_left fun o _ => htype o⟩

theorem Combined.descends (hc : Combined f b v g) (h : f.Good strict) (hb : b ∈ f.layout)
    (hv : v ∈ (f.block b).values) : Descends f g := by
  have hconst : ∀ lanes : List UInt64, (f.value v).op ≠ .phi → (f.value v).op ≠ .param →
      (f.value v).op ≠ .store → lanes.length = (f.value v).type.numLanes →
      Descends f ((f.withConst b v lanes).replaceValue v (.value f.numValues)) := by
    intro lanes hphi hparam hstore hl
    obtain ⟨-, hmem, -⟩ := withConst_old lanes h.ssa hb hv
    exact (descends_withConst h.ssa hb hv).trans (descends_replaceValue
      (withConst_ssa h.ssa hb hv hphi hparam hl) hb hmem
      (withConst_covers h.ssa hb hv hphi hparam hstore hl))
  cases hc with
  | left => exact descends_refl f
  | folded hfold =>
    obtain ⟨hphi, hparam, hstore, -⟩ := isPure_op hfold.pure
    exact hconst _ hphi hparam hstore (hfold.fits h hb hv).1
  | operand hs _ hstore =>
    exact descends_replaceValue h.ssa hb hv
      (.of_before h.ssa.listing hb hv hstore hs.type hs.before)
  | constant hl =>
    obtain ⟨hphi, hparam, hstore, hlen, -⟩ := equalConst?_spec h hb hv hl
    exact hconst _ hphi hparam hstore hlen

/-- What combining instructions keeps of a function without sums of floats whose pointers stay whole. -/
structure Combining (W : World) (f g : Func) : Prop where
  alike : Alike W.interp f g
  noSums : g.NoFloatSums
  pointers : g.PointersWhole

theorem Combining.step {k : Func} (hk : Combining W f k) (h : k.Good strict) (hb : b ∈ k.layout)
    (hr : k.Reached b) (hv : v ∈ (k.block b).values) {m : Func} (hcomm : Commuted k v m)
    (hcomb : Combined m b v g) : Combining W f g := by
  obtain ⟨hm, hkm, hvm⟩ := hcomm.good h hb hv
  have hbm : b ∈ m.layout := hkm.graph.layout ▸ hb
  have hrm : m.Reached b := hkm.graph.reached.mpr hr
  obtain ⟨hadd, hmul⟩ := hk.noSums b hb v hv
  have hdm := hcomm.descends h hb hv
  have hdg := hdm.trans (hcomb.descends hm hbm hvm)
  exact ⟨(hk.alike.trans (hcomm.alike h hb hr hv hadd hmul)).trans
    (hcomb.alike hm hbm hrm hvm (hdm.pointersWhole hk.pointers)),
    hdg.noFloatSums hk.noSums, hdg.pointersWhole hk.pointers⟩

/-- Combining instructions comes to an answer, and the function runs as before. -/
theorem combine_alike (W : World) (h : f.Consistent) (hconsts : f.ConstsFit) (htypes : f.TypesValid)
    (hstores : f.StoresUnused) (hsums : f.NoFloatSums) (hptr : f.PointersWhole) :
    ∃ g ch, f.combine = .ok (g, ch) ∧ Alike W.interp f g := by
  have hgood : f.Good False := ⟨h.ssa, hconsts, htypes, hstores, False.elim, False.elim⟩
  obtain ⟨g, ch, hg, -, hk⟩ := combine_keeps (P := Combining W f)
    (fun k m g b v hk hgood hb hr hv _ hcomm hcomb => hk.step hgood hb hr hv hcomm hcomb)
    hgood ⟨.refl f, hsums, hptr⟩
  exact ⟨g, ch, hg, hk.alike⟩

/-- A sum with the constant on the left, made wider and narrower, and its difference with itself. -/
def roundabout : Func where
  name := "roundabout"
  ret := .i32
  params := [.i32]
  values := #[
    { op := .param, type := .i32, block := some 0 },
    { op := .const, type := .i32, block := some 0, aux := 5 },
    { op := .add, type := .i32, block := some 0, args := [.value 1, .value 0] },
    { op := .zext, type := .i64, block := some 0, args := [.value 2] },
    { op := .trunc, type := .i32, block := some 0, args := [.value 3] },
    { op := .xor, type := .i32, block := some 0, args := [.value 4, .value 4] },
    { op := .add, type := .i32, block := some 0, args := [.value 4, .value 5] }]
  blocks := #[{ values := [0, 1, 2, 3, 4, 5, 6], kind := .ret, control := .value 6 }]
  layout := [0]
  paramValues := [0]

/-- Of it all the sum is left, with the constant on the right. -/
theorem combine_alike_roundabout : ∃ g ch, roundabout.combine = .ok (g, ch) ∧
    Alike World.zeros.interp roundabout g ∧ (g.block 0).control = .value 2 ∧
      (g.value 2).args = [.value 0, .value 1] := by
  obtain ⟨g, ch, hg, halike⟩ := combine_alike World.zeros (f := roundabout) (by decide +kernel)
    (by decide +kernel) (by decide +kernel) (by decide +kernel) (by decide +kernel)
    (by decide +kernel)
  have hrun : roundabout.combine.toOption.map
      (fun r => ((r.1.block 0).control, (r.1.value 2).args)) =
        some (.value 2, [.value 0, .value 1]) := by decide +kernel
  rw [hg] at hrun
  obtain ⟨hcontrol, hargs⟩ := Prod.mk.inj (Option.some.inj hrun)
  exact ⟨g, ch, hg, halike, hcontrol, hargs⟩

end SsaJit.Func
