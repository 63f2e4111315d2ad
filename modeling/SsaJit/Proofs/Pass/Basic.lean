import Mathlib.Data.List.TakeWhile
import SsaJit.Proofs.Ssa.Fold
import SsaJit.Proofs.Ssa.Tidy

/-! The steps that several optimisations share: reading operands, putting constants in, and putting
a constant for a value. -/

namespace SsaJit.Func

variable {f g : Func} {b c d : BlockId} {u v w x : ValueId} {o : Operand}

/-! ## Reading operands -/

theorem Before.isValue (h : f.Before o u b) : ∃ v, o = .value v := ⟨h.choose, h.choose_spec.1⟩

/-- An operand that can be read is a listed value or a store. -/
theorem Before.listed (h : f.Before (.value v) u b) (hl : f.Listing) :
    (f.value v).op = .store ∨ ∃ d ∈ f.layout, v ∈ (f.block d).values := by
  obtain ⟨w, hw, h⟩ := h
  obtain rfl : v = w := by simpa using hw
  rcases h with h | ⟨h, _⟩
  · exact .inl h
  · obtain ⟨d, hd⟩ := Option.isSome_iff_exists.mp h
    exact .inr ⟨d, (hl.listed v d).mp hd⟩

theorem AtEnd.listed (h : f.AtEnd (.value v) b) (hl : f.Listing) :
    (f.value v).op = .store ∨ ∃ d ∈ f.layout, v ∈ (f.block d).values := by
  obtain ⟨w, hw, h⟩ := h
  obtain rfl : v = w := by simpa using hw
  rcases h with h | ⟨d, hd, _⟩
  · exact .inl h
  · exact .inr ⟨d, (hl.listed v d).mp hd⟩

/-- What can be read is in the table. -/
theorem Before.lt (h : f.Before (.value v) u b) : v < f.numValues := by
  obtain ⟨w, hw, h⟩ := h
  obtain rfl : v = w := by simpa using hw
  by_contra hge
  rw [value_of_le (Nat.le_of_not_lt hge)] at h
  rcases h with h | ⟨h, -⟩ <;> cases h

theorem AtEnd.lt (h : f.AtEnd (.value v) b) : v < f.numValues := by
  obtain ⟨w, hw, h⟩ := h
  obtain rfl : v = w := by simpa using hw
  by_contra hge
  rw [value_of_le (Nat.le_of_not_lt hge)] at h
  rcases h with h | ⟨d, h, -⟩ <;> cases h

/-- The operands of a listed value that is neither a phi nor a parameter. -/
theorem Ssa.before (h : f.Ssa) (hb : b ∈ f.layout) (hv : v ∈ (f.block b).values)
    (hphi : (f.value v).op ≠ .phi) (hparam : (f.value v).op ≠ .param)
    (ho : o ∈ (f.value v).args) : f.Before o v b :=
  (h.values b hb v hv hphi).1 hparam o ho

theorem Ssa.typed (h : f.Ssa) (hb : b ∈ f.layout) (hv : v ∈ (f.block b).values)
    (hphi : (f.value v).op ≠ .phi) :
    WellTyped (f.value v) (f.argTypes (f.value v)) (b = f.start) :=
  (h.values b hb v hv hphi).2

theorem argument_eq {y : Value} {i : Nat} (h : y.args[i]? = some (.value v)) :
    f.argument y i = .ok (f.value v) := by
  simp [argument, Outcome.at?, h, find]

/-- Operands that are values, by their numbers. -/
theorem exists_values {l : List Operand} (h : ∀ o ∈ l, ∃ v, o = .value v) :
    ∃ vs : List ValueId, l = vs.map .value := by
  induction l with
  | nil => exact ⟨[], rfl⟩
  | cons o l ih =>
    obtain ⟨v, rfl⟩ := h o List.mem_cons_self
    obtain ⟨vs, rfl⟩ := ih fun o ho => h o (List.mem_cons_of_mem _ ho)
    exact ⟨v :: vs, rfl⟩

theorem isPure_op {y : Value} (h : y.isPure = true) : y.op ≠ .phi ∧ y.op ≠ .param ∧
    y.op ≠ .store ∧ y.op ≠ .alloca ∧ y.op ≠ .load ∧ y.op ≠ .call := by
  unfold Value.isPure at h
  refine ⟨?_, ?_, ?_, ?_, ?_, ?_⟩ <;> intro heq <;> simp [heq] at h

/-- Some block of the function lists the value. -/
def IsListed (f : Func) (v : ValueId) : Prop := ∃ b ∈ f.layout, v ∈ (f.block b).values

theorem operation_of {y : Value} {ts : List Ty} (hts : List.Forall₂ f.OfType y.args ts) :
    f.operation y = .ok (operationOf y ts) := by
  have hmap : y.args.mapM (fun o => do return (← f.find o).type) = .ok ts := by
    rw [Outcome.mapM_eq_ok]
    refine hts.imp fun o t ht => ?_
    obtain ⟨a, ha, htype⟩ := ht
    simp [ha, htype]
  simp only [operation, hmap, Outcome.ok_bind]
  rfl

theorem operation_eq {y : Value} (hval : ∀ o ∈ y.args, ∃ v, o = .value v) :
    f.operation y = .ok (operationOf y (f.argTypes y)) :=
  operation_of (ofType_argTypes hval)

/-! ## Behind the phis -/

theorem firstNonPhi_eq : f.firstNonPhi b = ((f.block b).values.takeWhile fun v =>
    (f.value v).op == .phi || (f.value v).op == .param).length := by
  rw [firstNonPhi, valuesOf, List.takeWhile_map, List.length_map]
  rfl

theorem firstNonPhi_le : f.firstNonPhi b ≤ (f.block b).values.length := by
  rw [firstNonPhi_eq]
  exact (List.takeWhile_prefix _).length_le

theorem drop_firstNonPhi : (f.block b).values.drop (f.firstNonPhi b) =
    (f.block b).values.dropWhile fun v => (f.value v).op == .phi || (f.value v).op == .param := by
  have hsplit := List.takeWhile_append_dropWhile (l := (f.block b).values)
    (p := fun v => (f.value v).op == .phi || (f.value v).op == .param)
  conv_lhs => rw [← hsplit, firstNonPhi_eq]
  exact List.drop_left

/-- No phi stands behind the phis. -/
theorem Ssa.no_phi_behind (h : f.Ssa) (hb : b ∈ f.layout) :
    ∀ p ∈ (f.block b).values.drop (f.firstNonPhi b), (f.value p).op ≠ .phi := by
  intro p hp hop
  cases hd : (f.block b).values.drop (f.firstNonPhi b) with
  | nil => simp [hd] at hp
  | cons x l =>
    rw [hd] at hp
    have hx : ((f.value x).op == .phi || (f.value x).op == .param) = false := by
      have := List.head?_dropWhile_not
        (fun v => (f.value v).op == .phi || (f.value v).op == .param) (f.block b).values
      rw [← drop_firstNonPhi, hd] at this
      simpa using this
    have hx : (f.value x).op ≠ .phi ∧ (f.value x).op ≠ .param := by simpa using hx
    rcases List.mem_cons.mp hp with rfl | hp
    · exact hx.1 hop
    · have hsub : [x, p].Sublist (f.block b).values := by
        have hs : (x :: l).Sublist (f.block b).values := hd ▸ List.drop_sublist _ _
        exact ((List.singleton_sublist.mpr hp).cons_cons x).trans hs
      exact (h.phisFirst b hb x p hsub hop).elim hx.1 hx.2

/-- What is neither a phi nor a parameter stands behind the phis. -/
theorem mem_behind (hu : u ∈ (f.block b).values) (hphi : (f.value u).op ≠ .phi)
    (hparam : (f.value u).op ≠ .param) : u ∈ (f.block b).values.drop (f.firstNonPhi b) := by
  rw [drop_firstNonPhi]
  rw [← List.takeWhile_append_dropWhile (l := (f.block b).values)
    (p := fun v => (f.value v).op == .phi || (f.value v).op == .param), List.mem_append] at hu
  refine hu.resolve_left fun hu => ?_
  have := List.mem_takeWhile_imp hu
  simp [hphi, hparam] at this

/-! ## Constants -/

/-- A constant of a type with the given lanes, cut to the type. -/
def constOf (t : Ty) (lanes : List UInt64) : Value :=
  if t.isVector then
    { op := .const, type := t, lanes := some ((lanes.take t.numLanes).map (laneCut t).canon) }
  else { op := .const, type := t, aux := (t.kind.canon (lanes.headD 0)).toInt64 }

section constOf

variable {t : Ty} {lanes : List UInt64}

@[simp] theorem constOf_op : (constOf t lanes).op = .const := by unfold constOf; split <;> rfl
@[simp] theorem constOf_type : (constOf t lanes).type = t := by unfold constOf; split <;> rfl
@[simp] theorem constOf_args : (constOf t lanes).args = [] := by unfold constOf; split <;> rfl

theorem insertConst_eq {i : Nat} (hi : i ≤ (f.block b).values.length)
    (hl : lanes.length = t.numLanes) :
    f.insertConst b i t lanes = .ok (f.inserted b i (constOf t lanes), f.numValues) := by
  unfold insertConst constOf
  split
  · rw [constLanesFor, if_neg (by omega)]
    exact insertValue_eq hi
  · next hvec =>
    cases t with
    | scalar k =>
      match lanes, hl with
      | [w], _ => exact insertValue_eq hi
    | vec e n => simp [Ty.isVector] at hvec

theorem constLanes_constOf (hl : lanes.length = t.numLanes) :
    (constOf t lanes).constLanes = some (lanes.map t.elemKind.canon) := by
  cases t with
  | scalar k =>
    match lanes, hl with
    | [w], _ => simp [constOf, Ty.isVector, Value.constLanes, Value.isConst, Ty.elemKind, Ty.kind]
  | vec e n =>
    simp only [constOf, Ty.isVector, Value.constLanes, Value.isConst, if_true]
    simp [← hl, laneCut, Ty.elemKind]

theorem constOf_wellTyped {home : Prop} (hl : lanes.length = t.numLanes) :
    WellTyped (constOf t lanes) [] home := by
  simp only [WellTyped, constOf_op, Op.isBinary, Op.isCast]
  intro hvec
  have hvec : t.isVector = true := by simpa using hvec
  simp [constOf, hvec, hl]

theorem constOf_tidy {strict : Prop} (hl : lanes.length = t.numLanes) (ht : t.Valid)
    (hfit : ∀ w ∈ lanes, t.elemKind.cut (t.elemKind.canon w) = t.elemKind.canon w) :
    TidyValue strict (constOf t lanes) := by
  refine ⟨fun ls hls w hw => ?_, by simpa using ht, fun _ hp => by simp at hp⟩
  rw [constLanes_constOf hl] at hls
  obtain rfl := Option.some.inj hls
  obtain ⟨y, hy, rfl⟩ := List.mem_map.mp hw
  rw [constOf_type]
  exact hfit y hy

end constOf

/-! ## Places -/

theorem indexIn_eq (hv : v ∈ (f.block b).values) :
    f.indexIn b v = ((f.block b).values.idxOf v : Int) := by
  have hfind : (f.block b).values.findIdx? (· == v) = some ((f.block b).values.idxOf v) := by
    rw [List.findIdx?_eq_some_iff_findIdx_eq]
    exact ⟨List.idxOf_lt_length_of_mem hv, rfl⟩
  simp [indexIn, hfind]

theorem drop_idxOf {l : List ValueId} (hv : v ∈ l) :
    l.drop (l.idxOf v) = v :: l.drop (l.idxOf v + 1) := by
  have hlt := List.idxOf_lt_length_of_mem hv
  rw [List.drop_eq_getElem_cons hlt, List.getElem_idxOf hlt]

/-- No phi follows a value that is neither a phi nor a parameter. -/
theorem Ssa.no_phi_from (h : f.Ssa) (hb : b ∈ f.layout) (hv : v ∈ (f.block b).values)
    (hphi : (f.value v).op ≠ .phi) (hparam : (f.value v).op ≠ .param) :
    ∀ p ∈ (f.block b).values.drop ((f.block b).values.idxOf v), (f.value p).op ≠ .phi := by
  intro p hp hop
  rw [drop_idxOf hv] at hp
  rcases List.mem_cons.mp hp with rfl | hp
  · exact hphi hop
  · have hsub : [v, p].Sublist (f.block b).values := by
      have hd : (v :: (f.block b).values.drop ((f.block b).values.idxOf v + 1)).Sublist
          (f.block b).values := by
        rw [← drop_idxOf hv]
        exact List.drop_sublist _ _
      exact ((List.singleton_sublist.mpr hp).cons_cons v).trans hd
    exact (h.phisFirst b hb v p hsub hop).elim hphi hparam

theorem sublist_insertIdx_idxOf {l : List ValueId} (hv : v ∈ l) :
    [w, v].Sublist (l.insertIdx (l.idxOf v) w) := by
  rw [insertIdx_split (Nat.le_of_lt (List.idxOf_lt_length_of_mem hv)), drop_idxOf hv]
  exact (List.Sublist.cons_cons w (List.singleton_sublist.mpr List.mem_cons_self)).trans
    (List.sublist_append_right _ _)

/-! ## What edits keep -/

/-- The form is in order, and the data fits its types. -/
structure Fit (f : Func) : Prop where
  ssa : f.Ssa
  consts : f.ConstsFit
  types : f.TypesValid

/-- The form and the data are in order. -/
structure Good (f : Func) (strict : Prop) : Prop where
  ssa : f.Ssa
  tidy : f.Tidy strict

theorem Good.fit {strict : Prop} (h : f.Good strict) : f.Fit := ⟨h.ssa, h.tidy.consts, h.tidy.types⟩

theorem constLanes_fits (h : f.Fit) (hb : b ∈ f.layout) (hv : v ∈ (f.block b).values)
    {lanes : List UInt64} (hl : (f.value v).constLanes = some lanes) :
    (f.value v).type.Fits lanes := by
  refine ⟨?_, h.consts b hb v hv lanes hl⟩
  unfold Value.constLanes at hl
  by_cases hc : (f.value v).isConst = true
  · have hop : (f.value v).op = .const := by simpa [Value.isConst] using hc
    have hty := h.ssa.typed hb hv (by simp [hop])
    simp only [WellTyped, hop, Op.isBinary, Op.isCast] at hty
    simp only [hc, Bool.not_true, Bool.false_eq_true, if_false] at hl
    split at hl
    · next hvec => simpa [hl] using hty hvec
    · next hvec =>
      obtain rfl := Option.some.inj hl
      cases ht : (f.value v).type with
      | scalar k => rfl
      | vec e n => simp [ht, Ty.isVector] at hvec
  · simp [hc] at hl

theorem Ssa.length_const (hs : f.Ssa) (hb : b ∈ f.layout) (hv : v ∈ (f.block b).values)
    (hconst : (f.value v).op = .const) :
    ((f.value v).constLanes.getD []).length = (f.value v).type.numLanes := by
  have hwell := hs.typed hb hv (by simp [hconst])
  simp only [WellTyped, hconst, Op.isBinary, Op.isCast, Bool.false_eq_true, if_false] at hwell
  simp only [Value.constLanes, Value.isConst, hconst, beq_self_eq_true, Bool.not_true,
    Bool.false_eq_true, if_false]
  split
  · next hvec => exact hwell hvec
  · next hvec =>
    cases htype : (f.value v).type with
    | scalar k => rfl
    | vec e n => simp [htype, Ty.isVector] at hvec

/-- Operands that are stores are void. -/
def StoresVoid (f : Func) : Prop :=
  ∀ b ∈ f.layout, ∀ v ∈ (f.block b).values, ∀ a, .value a ∈ (f.value v).args →
    (f.value a).op = .store → (f.value a).type = .void

theorem Consistent.storesVoid (h : f.Consistent) : f.StoresVoid := by
  intro b hb v hv a ha hstore
  obtain ⟨a', d, heq, hd⟩ := args_listed h.verified hb hv ha
  obtain rfl : a = a' := by simpa using heq
  obtain ⟨hdl, had⟩ := (h.listed a d).mp hd
  have hty := h.ssa.typed hdl had (by simp [hstore])
  simp only [WellTyped, hstore, Op.isBinary, Op.isCast] at hty
  exact hty.1

theorem Pruned.storesVoid {keep : ValueId → Bool} (h : Pruned f g keep) (hf : f.StoresVoid) :
    g.StoresVoid := by
  intro b hb v hv a ha hstore
  obtain ⟨hb, hv, heq⟩ := h.mem hb hv
  rw [heq] at ha
  exact (h.operandType (o := .value a)).trans (hf b hb v hv a ha (h.op ▸ hstore))

theorem StoresVoid.inserted {i : Nat} {y : Value} (h : f.StoresVoid) (hf : f.Ssa) (hb : b ∈ f.layout)
    (hi : i ≤ (f.block b).values.length) (hargs : y.args = []) (hstore : y.op ≠ .store) :
    (f.inserted b i y).StoresVoid := by
  intro c hc v hv a ha hst
  rw [value_inserted] at hst ⊢
  have hne : a ≠ f.numValues := by
    rintro rfl
    exact hstore (by simpa using hst)
  rw [if_neg hne] at hst ⊢
  rcases mem_inserted hf hb hi hv with ⟨hv, heq⟩ | heq
  · rw [heq] at ha
    exact h c hc v hv a ha hst
  · simp [heq, hargs] at ha

/-- The form is in order, and whatever stands for a store is void: what the verifier sees to, and less
than builders promise. -/
structure Plain (f : Func) : Prop where
  ssa : f.Ssa
  stores : f.StoresVoid

theorem Consistent.plain (h : f.Consistent) : f.Plain := ⟨h.ssa, h.storesVoid⟩

theorem Good.plain {strict : Prop} (h : f.Good strict) : f.Plain :=
  ⟨h.ssa, fun b hb v hv a ha hstore => absurd hstore ((h.tidy.stores b hb).1 v hv a ha)⟩

/-- `g` has the graph of `f`, and its values stand where they stood unless they were taken out. -/
structure Keeps (f g : Func) : Prop where
  graph : SameGraph f g
  numValues : f.numValues ≤ g.numValues
  block : ∀ v < f.numValues, (g.value v).block = (f.value v).block ∨ (g.value v).block = none

namespace Keeps

theorem refl (f : Func) : Keeps f f :=
  ⟨.refl f, Nat.le_refl _, fun _ _ => .inl rfl⟩

theorem trans {k : Func} (h₁ : Keeps f g) (h₂ : Keeps g k) : Keeps f k where
  graph := h₁.graph.trans h₂.graph
  numValues := Nat.le_trans h₁.numValues h₂.numValues
  block v hv := by
    rcases h₂.block v (Nat.lt_of_lt_of_le hv h₁.numValues) with h | h
    · rw [h]
      exact h₁.block v hv
    · exact .inr h

theorem modifyValue {k : Value → Value} (hv : v < f.numValues)
    (hk : (k (f.value v)).block = (f.value v).block) : Keeps f (f.modifyValue v k) where
  graph := sameGraph_modifyValue
  numValues := by simp
  block x _ := by
    rw [value_modifyValue hv]
    split
    · next heq => exact .inl (by rw [hk, heq])
    · exact .inl rfl

theorem inserted {i : Nat} {y : Value} (hb : b < f.numBlocks) : Keeps f (f.inserted b i y) where
  graph := sameGraph_inserted hb
  numValues := by simp
  block v hv := by
    rw [value_inserted, if_neg (Nat.ne_of_lt hv)]
    exact .inl rfl

theorem replaceUses {old new : Operand} (ht : InTables f f.layout) :
    Keeps f (f.replaceUses old new) where
  graph := sameGraph_replaceUses ht
  numValues := Nat.le_of_eq (numValues_replaceUses ht).symm
  block v _ := by
    obtain ⟨a, ha⟩ := replaceUses_head old new ht v
    rw [ha]
    exact .inl rfl

theorem removeValue (h : f.Ssa) (hb : b ∈ f.layout) (hv : v ∈ (f.block b).values) :
    Keeps f (f.removeValue b v) where
  graph := (pruned_removeValue h hb hv).graph
  numValues := by simp
  block x _ := by
    rw [value_removeValue (h.listing.lt hb hv) hv]
    split
    · exact .inr rfl
    · exact .inl rfl

theorem replaceValue (h : f.Ssa) (hb : b ∈ f.layout) (hv : v ∈ (f.block b).values)
    (hc : f.Covers w v) : Keeps f (f.replaceValue v (.value w)) := by
  have ht := h.inTables
  rw [replaceValue_eq h hb hv]
  exact (replaceUses ht).trans (removeValue (h.replaceUses hc) (by rwa [layout_replaceUses ht])
    (by rwa [values_replaceUses ht]))

end Keeps

/-- Replacing a value changes operands and takes the value out; the rest is as it was. -/
theorem replaceValue_head (h : f.Ssa) (hb : b ∈ f.layout) (hv : v ∈ (f.block b).values)
    (x : ValueId) : ∃ a, (f.replaceValue v (.value w)).value x =
      { f.value x with args := a, block := if x = v then none else (f.value x).block } := by
  have ht := h.inTables
  obtain ⟨a, ha⟩ := replaceUses_head (.value v) (.value w) ht x
  have hlt : v < (f.replaceUses (.value v) (.value w)).numValues := by
    rw [numValues_replaceUses ht]
    exact h.listing.lt hb hv
  rw [replaceValue_eq h hb hv, value_removeValue hlt (by rwa [values_replaceUses ht])]
  by_cases hxv : x = v
  · subst hxv
    exact ⟨a, by rw [if_pos rfl, if_pos rfl, ha]⟩
  · exact ⟨a, by rw [if_neg hxv, if_neg hxv, ha]⟩

theorem values_replaceValue (h : f.Ssa) (hb : b ∈ f.layout) (hv : v ∈ (f.block b).values) :
    ((f.replaceValue v (.value w)).block c).values =
      if c = b then (f.block b).values.erase v else (f.block c).values := by
  have ht := h.inTables
  have hlt : b < (f.replaceUses (.value v) (.value w)).numBlocks := by
    rw [numBlocks_replaceUses ht]
    exact h.flow.lt b hb
  rw [replaceValue_eq h hb hv, block_removeValue hlt (by rwa [values_replaceUses ht])]
  split
  · rw [values_replaceUses ht]
  · exact values_replaceUses ht

theorem numValues_replaceValue (h : f.Ssa) (hb : b ∈ f.layout) (hv : v ∈ (f.block b).values) :
    (f.replaceValue v (.value w)).numValues = f.numValues := by
  rw [replaceValue_eq h hb hv, numValues_removeValue, numValues_replaceUses h.inTables]

theorem mem_of_mem_replaceValue (h : f.Ssa) (hb : b ∈ f.layout) (hv : v ∈ (f.block b).values)
    (hx : x ∈ ((f.replaceValue v (.value w)).block c).values) : x ∈ (f.block c).values := by
  rw [values_replaceValue h hb hv] at hx
  split at hx
  · next heq => exact heq ▸ List.mem_of_mem_erase hx
  · exact hx

theorem value_replaceValue_of_mem (h : f.Ssa) (hb : b ∈ f.layout) (hv : v ∈ (f.block b).values)
    (hc : c ∈ f.layout) (hx : x ∈ (f.block c).values) :
    (f.replaceValue v (.value w)).value x = { f.value x with
      args := (f.value x).args.map (swap (.value v) (.value w)),
      block := if x = v then none else (f.value x).block } := by
  have ht := h.inTables
  have hlt : v < (f.replaceUses (.value v) (.value w)).numValues := by
    rw [numValues_replaceUses ht]
    exact h.listing.lt hb hv
  rw [replaceValue_eq h hb hv, value_removeValue hlt (by rwa [values_replaceUses ht]),
    value_replaceUses_of_mem ht hc hx]
  by_cases hxv : x = v
  · subst hxv
    rw [if_pos rfl, if_pos rfl, value_replaceUses_of_mem ht hc hx]
  · rw [if_neg hxv, if_neg hxv]

theorem control_replaceValue (h : f.Ssa) (hb : b ∈ f.layout) (hv : v ∈ (f.block b).values)
    (hc : c ∈ f.layout) : ((f.replaceValue v (.value w)).block c).control =
      swap (.value v) (.value w) (f.block c).control ∧
    ((f.replaceValue v (.value w)).block c).kind = (f.block c).kind := by
  have ht := h.inTables
  have hlt : b < (f.replaceUses (.value v) (.value w)).numBlocks := by
    rw [numBlocks_replaceUses ht]
    exact h.flow.lt b hb
  rw [replaceValue_eq h hb hv, block_removeValue hlt (by rwa [values_replaceUses ht])]
  split
  · next heq =>
    subst heq
    rw [block_replaceUses ht, if_pos hc]
    exact ⟨rfl, rfl⟩
  · rw [block_replaceUses ht, if_pos hc]
    exact ⟨rfl, rfl⟩

theorem operandType_replaceValue (h : f.Ssa) (hb : b ∈ f.layout) (hv : v ∈ (f.block b).values) :
    (f.replaceValue v (.value w)).operandType o = f.operandType o := by
  cases o with
  | value x =>
    obtain ⟨a, ha⟩ := replaceValue_head (w := w) h hb hv x
    change ((f.replaceValue v (.value w)).value x).type = (f.value x).type
    rw [ha]
  | missing => rfl
  | foreign k => rfl

/-- A value of the block that was not taken out is still there. -/
theorem Keeps.listed (h : Keeps f g) (hf : f.Listing) (hg : g.Listing) (hb : b ∈ f.layout)
    (hv : v ∈ (f.block b).values) (hsome : (g.value v).block.isNone = false) :
    v ∈ (g.block b).values := by
  have hblock := (hf.listed v b).mpr ⟨hb, hv⟩
  rcases h.block v (hf.lt hb hv) with heq | heq
  · exact ((hg.listed v b).mp (heq.trans hblock)).2
  · simp [heq] at hsome

theorem Ssa.reversePostOrder (h : f.Ssa) :
    ∃ l, f.reversePostOrder = .ok l ∧ Postordered f f.start l := by
  refine ⟨_, ?_, reversePostOrderFrom_spec h.flow.wired.linkage.lt⟩
  simp [Func.reversePostOrder, h.flow.entry_eq]

theorem Before.ne (h : f.Before (.value w) v b) (hl : f.Listing) (hb : b ∈ f.layout)
    (hr : f.Reached b) (hv : v ∈ (f.block b).values) (hstore : (f.value v).op ≠ .store) :
    w ≠ v := by
  rintro rfl
  obtain ⟨v', hv', h⟩ := h
  obtain rfl : w = v' := by simpa using hv'
  obtain ⟨_, h⟩ := h.resolve_left hstore
  obtain ⟨d, hd, h⟩ := h hr
  obtain rfl : b = d := Option.some.inj (((hl.listed w b).mpr ⟨hb, hv⟩).symm.trans hd)
  rcases h with ⟨_, h⟩ | ⟨h, _⟩
  · exact Nat.lt_irrefl _ ((sublist_pair_iff (hl.nodup b hb)).mp h).2.2
  · exact h rfl

/-! ## A constant for a value -/

section replaceByConst

variable {lanes : List UInt64}

/-- The function with a constant of the value's type just before the value. -/
def withConst (f : Func) (b : BlockId) (v : ValueId) (lanes : List UInt64) : Func :=
  f.inserted b ((f.block b).values.idxOf v) (constOf (f.value v).type lanes)

theorem withConst_ssa (h : f.Ssa) (hb : b ∈ f.layout) (hv : v ∈ (f.block b).values)
    (hphi : (f.value v).op ≠ .phi) (hparam : (f.value v).op ≠ .param)
    (hl : lanes.length = (f.value v).type.numLanes) : (f.withConst b v lanes).Ssa :=
  h.inserted hb (Nat.le_of_lt (List.idxOf_lt_length_of_mem hv)) (by simp) (by simp)
    (constOf_wellTyped hl) (h.no_phi_from hb hv hphi hparam)

theorem withConst_tidy {strict : Prop} (h : f.Ssa) (ht : f.Tidy strict) (hb : b ∈ f.layout)
    (hv : v ∈ (f.block b).values) (hl : lanes.length = (f.value v).type.numLanes)
    (hfit : ∀ w ∈ lanes, (f.value v).type.elemKind.cut ((f.value v).type.elemKind.canon w) =
      (f.value v).type.elemKind.canon w) : (f.withConst b v lanes).Tidy strict :=
  ht.inserted h hb (Nat.le_of_lt (List.idxOf_lt_length_of_mem hv))
    (constOf_tidy hl (ht.types b hb v hv) hfit) (by simp) (by simp)

theorem withConst_old (lanes : List UInt64) (h : f.Ssa) (hb : b ∈ f.layout) (hv : v ∈ (f.block b).values) :
    (f.withConst b v lanes).value v = f.value v ∧
      v ∈ ((f.withConst b v lanes).block b).values ∧ f.numValues ≠ v := by
  have hne : v ≠ f.numValues := Nat.ne_of_lt (h.listing.lt hb hv)
  refine ⟨by rw [withConst, value_inserted, if_neg hne], ?_, hne.symm⟩
  rw [withConst, block_inserted (h.flow.lt b hb), if_pos rfl]
  exact (List.sublist_insertIdx _ _ _).subset hv

/-- The new constant can be read where the value stands. -/
theorem withConst_before (h : f.Ssa) (hb : b ∈ f.layout) (hv : v ∈ (f.block b).values) :
    (f.withConst b v lanes).Before (.value f.numValues) v b := by
  have hblock : ((f.withConst b v lanes).value f.numValues).block = some b := by
    rw [withConst, value_inserted, if_pos rfl]
  refine ⟨_, rfl, .inr ⟨by rw [hblock]; rfl, fun _ => ⟨b, hblock, .inl ⟨rfl, ?_⟩⟩⟩⟩
  rw [withConst, block_inserted (h.flow.lt b hb), if_pos rfl]
  exact sublist_insertIdx_idxOf hv

theorem withConst_covers (h : f.Ssa) (hb : b ∈ f.layout) (hv : v ∈ (f.block b).values)
    (hphi : (f.value v).op ≠ .phi) (hparam : (f.value v).op ≠ .param)
    (hstore : (f.value v).op ≠ .store) (hl : lanes.length = (f.value v).type.numLanes) :
    (f.withConst b v lanes).Covers f.numValues v := by
  obtain ⟨hval, hmem, _⟩ := withConst_old lanes h hb hv
  refine .of_before (withConst_ssa h hb hv hphi hparam hl).listing hb hmem (by rwa [hval]) ?_
    (withConst_before h hb hv)
  rw [hval, withConst, value_inserted, if_pos rfl]
  exact constOf_type

theorem replaceByConst_eq (h : f.Ssa) (hb : b ∈ f.layout) (hv : v ∈ (f.block b).values)
    (hl : lanes.length = (f.value v).type.numLanes) : f.replaceByConst v lanes =
      .ok ((f.withConst b v lanes).replaceValue v (.value f.numValues)) := by
  have hblock := (h.listing.listed v b).mpr ⟨hb, hv⟩
  have hins := insertConst_eq (f := f) (b := b) (t := (f.value v).type)
    (Nat.le_of_lt (List.idxOf_lt_length_of_mem hv)) hl
  simp [replaceByConst, hblock, Outcome.need, indexIn_eq hv, hins, withConst]

theorem replaceByConst_ssa (h : f.Ssa) (hb : b ∈ f.layout) (hv : v ∈ (f.block b).values)
    (hphi : (f.value v).op ≠ .phi) (hparam : (f.value v).op ≠ .param)
    (hstore : (f.value v).op ≠ .store) (hl : lanes.length = (f.value v).type.numLanes) :
    ((f.withConst b v lanes).replaceValue v (.value f.numValues)).Ssa := by
  obtain ⟨_, hmem, hne⟩ := withConst_old lanes h hb hv
  exact (withConst_ssa h hb hv hphi hparam hl).replaceValue hb hmem hne
    (withConst_covers h hb hv hphi hparam hstore hl)

theorem replaceByConst_tidy {strict : Prop} (h : f.Ssa) (ht : f.Tidy strict) (hb : b ∈ f.layout)
    (hv : v ∈ (f.block b).values) (hphi : (f.value v).op ≠ .phi)
    (hparam : (f.value v).op ≠ .param) (hstore : (f.value v).op ≠ .store)
    (hl : lanes.length = (f.value v).type.numLanes)
    (hfit : ∀ w ∈ lanes, (f.value v).type.elemKind.cut ((f.value v).type.elemKind.canon w) =
      (f.value v).type.elemKind.canon w) :
    ((f.withConst b v lanes).replaceValue v (.value f.numValues)).Tidy strict := by
  obtain ⟨_, hmem, _⟩ := withConst_old lanes h hb hv
  refine (withConst_tidy h ht hb hv hl hfit).replaceValue
    (withConst_ssa h hb hv hphi hparam hl) hb hmem
    (withConst_covers h hb hv hphi hparam hstore hl) ?_
  rw [withConst, value_inserted, if_pos rfl]
  simp

theorem replaceByConst_keeps (h : f.Ssa) (hb : b ∈ f.layout) (hv : v ∈ (f.block b).values)
    (hphi : (f.value v).op ≠ .phi) (hparam : (f.value v).op ≠ .param)
    (hstore : (f.value v).op ≠ .store) (hl : lanes.length = (f.value v).type.numLanes) :
    Keeps f ((f.withConst b v lanes).replaceValue v (.value f.numValues)) := by
  obtain ⟨_, hmem, _⟩ := withConst_old lanes h hb hv
  exact (Keeps.inserted (h.flow.lt b hb)).trans
    (.replaceValue (withConst_ssa h hb hv hphi hparam hl) hb hmem
      (withConst_covers h hb hv hphi hparam hstore hl))

end replaceByConst

/-! ## Going through the values -/

/-- Take a step at a value that is not skipped. -/
def stepAt (skip : Value → Bool) (step : Func → ValueId → Optimized) (s : Func × Bool)
    (v : ValueId) : Optimized :=
  if skip (s.1.value v) then .ok s
  else step s.1 v >>= fun r => .ok (r.1, s.2 || r.2)

/-- A step that keeps a property of functions in order keeps it when it is taken at every value of the
reachable blocks. -/
theorem sweep_keeps {P : Func → Prop} (skip : Value → Bool) (step : Func → ValueId → Optimized)
    (hskip : ∀ y, skip y = false → y.block.isNone = false) (hP : ∀ k, P k → k.Ssa)
    (hstep : ∀ k b v, P k → b ∈ k.layout → k.Reached b → v ∈ (k.block b).values →
      skip (k.value v) = false → ∃ g ch, step k v = .ok (g, ch) ∧ P g ∧ Keeps k g) (h : P f) :
    ∃ g ch, (f.reversePostOrder >>= fun rpo => rpo.foldlM (fun (s : Func × Bool) b =>
      (s.1.block b).values.foldlM (stepAt skip step) s) (f, false)) = .ok (g, ch) ∧ P g := by
  obtain ⟨rpo, hrpo, hpost⟩ := (hP f h).reversePostOrder
  rw [hrpo]
  have hrun := Outcome.foldlM_keeps (b := (f, false)) (l := rpo)
    (P := fun s : Func × Bool => P s.1 ∧ Keeps f s.1)
    (g := fun s b => (s.1.block b).values.foldlM (stepAt skip step) s) ?_ ⟨h, .refl f⟩
  · obtain ⟨⟨g, ch⟩, hg, hPg, _⟩ := hrun
    exact ⟨g, ch, hg, hPg⟩
  rintro ⟨k, ch⟩ b hb ⟨hk, hfk⟩
  have hssa := hP k hk
  have hr : k.Reached b := hfk.graph.reached.mpr ((hpost.mem_iff b).mp hb)
  have hbk : b ∈ k.layout := hssa.flow.reached_mem hr
  have hinner := Outcome.foldlM_keeps (b := (k, ch)) (l := (k.block b).values)
    (P := fun s : Func × Bool => P s.1 ∧ Keeps k s.1) (g := stepAt skip step) ?_ ⟨hk, .refl k⟩
  · obtain ⟨⟨g, ch'⟩, hg, hPg, hkg⟩ := hinner
    exact ⟨(g, ch'), hg, hPg, hfk.trans hkg⟩
  rintro ⟨m, ch'⟩ v hv ⟨hm, hkm⟩
  cases hs : skip (m.value v) with
  | true => exact ⟨(m, ch'), by simp [stepAt, hs], hm, hkm⟩
  | false =>
    have hv' := hkm.listed hssa.listing (hP m hm).listing hbk hv (hskip _ hs)
    obtain ⟨g, more, hg, hPg, hmg⟩ := hstep m b v hm (hkm.graph.layout ▸ hbk)
      (hkm.graph.reached.mpr hr) hv' hs
    exact ⟨(g, ch' || more), by simp [stepAt, hs, hg], hPg, hkm.trans hmg⟩

end SsaJit.Func
