import SsaJit.Proofs.Ssa.Rewrite

/-! The edits that keep the control-flow graph also keep what builders promise of the data. -/

namespace SsaJit.Func

variable {f g : Func} {b c d : BlockId} {u v w x : ValueId} {o : Operand} {strict : Prop}

/-- Every listed value has the property. -/
def Each (f : Func) (P : Value → Prop) : Prop :=
  ∀ b ∈ f.layout, ∀ v ∈ (f.block b).values, P (f.value v)

/-- What builders promise of one value. -/
structure TidyValue (strict : Prop) (y : Value) : Prop where
  consts : ∀ lanes, y.constLanes = some lanes → ∀ w ∈ lanes, y.type.elemKind.cut w = w
  type : y.type.Valid
  params : strict → y.op = .param → y.args = []

theorem Tidy.value (h : f.Tidy strict) (hb : b ∈ f.layout) (hv : v ∈ (f.block b).values) :
    TidyValue strict (f.value v) :=
  ⟨h.consts b hb v hv, h.types b hb v hv, fun hs => h.params hs b hb v hv⟩

theorem tidy_of (hvals : f.Each (TidyValue strict)) (hstores : f.StoresUnused)
    (hends : strict → f.EndsBare) : f.Tidy strict where
  consts b hb v hv := (hvals b hb v hv).consts
  types b hb v hv := (hvals b hb v hv).type
  params hs b hb v hv := (hvals b hb v hv).params hs
  stores := hstores
  ends := hends

theorem Tidy.each (h : f.Tidy strict) : f.Each (TidyValue strict) := fun _ hb _ hv => h.value hb hv

theorem storesUnused_of
    (hargs : ∀ b ∈ f.layout, ∀ v ∈ (f.block b).values, ∀ o ∈ (f.value v).args, f.NoStore o)
    (hctl : ∀ b ∈ f.layout, f.NoStore (f.block b).control) : f.StoresUnused := fun b hb =>
  ⟨fun v hv w hw => hargs b hb v hv _ hw w rfl, fun w hw => hctl b hb w hw⟩

theorem StoresUnused.arg (h : f.StoresUnused) (hb : b ∈ f.layout) (hv : v ∈ (f.block b).values)
    (ho : o ∈ (f.value v).args) : f.NoStore o := by
  rintro w rfl
  exact (h b hb).1 v hv w ho

theorem StoresUnused.control (h : f.StoresUnused) (hb : b ∈ f.layout) :
    f.NoStore (f.block b).control := fun w hw => (h b hb).2 w hw

theorem Tidy.noStore_arg (h : f.Tidy strict) (hb : b ∈ f.layout) (hv : v ∈ (f.block b).values)
    (ho : o ∈ (f.value v).args) : f.NoStore o := h.stores.arg hb hv ho

theorem TidyValue.with_args {y : Value} (h : TidyValue strict y) {s : Operand → Operand} :
    TidyValue strict { y with args := y.args.map s } :=
  ⟨h.consts, h.type, fun hs hp => by simp [h.params hs hp]⟩

theorem NoStore.swap (h : f.NoStore o) (hw : (f.value w).op ≠ .store) :
    f.NoStore (swap (.value v) (.value w) o) := by
  unfold Func.swap
  split
  · rintro x hx
    obtain rfl : w = x := by simpa using hx
    exact hw
  · exact h

theorem Tidy.replaceUses (h : f.Tidy strict) (ht : InTables f f.layout) (hw : (f.value w).op ≠ .store) :
    (f.replaceUses (.value v) (.value w)).Tidy strict := by
  have hop : ∀ {o}, f.NoStore o → (f.replaceUses (.value v) (.value w)).NoStore o := by
    intro o ho x hx
    obtain ⟨a, ha⟩ := replaceUses_head (.value v) (.value w) ht x
    rw [ha]
    exact ho x hx
  refine tidy_of (fun b hb x hx => ?_) (storesUnused_of (fun b hb x hx o ho => ?_) fun b hb => ?_)
    fun hs b hb hbr hret => ?_
  · rw [layout_replaceUses ht] at hb
    rw [values_replaceUses ht] at hx
    rw [value_replaceUses_of_mem ht hb hx]
    exact (h.value hb hx).with_args
  · rw [layout_replaceUses ht] at hb
    rw [values_replaceUses ht] at hx
    rw [value_replaceUses_of_mem ht hb hx] at ho
    obtain ⟨o', ho', rfl⟩ := List.mem_map.mp ho
    exact hop ((h.noStore_arg hb hx ho').swap hw)
  · rw [layout_replaceUses ht] at hb
    rw [block_replaceUses ht, if_pos hb]
    exact hop ((h.stores.control hb).swap hw)
  · rw [layout_replaceUses ht] at hb
    rw [kind_replaceUses ht] at hbr hret
    rw [block_replaceUses ht, if_pos hb]
    exact swap_ne_missing.mpr (h.ends hs b hb hbr hret)

section pruned

variable {keep : ValueId → Bool}

theorem Pruned.mem (h : Pruned f g keep) (hb : b ∈ g.layout) (hv : v ∈ (g.block b).values) :
    b ∈ f.layout ∧ v ∈ (f.block b).values ∧ g.value v = f.value v := by
  rw [h.graph.layout] at hb
  rw [h.values b hb, List.mem_filter] at hv
  exact ⟨hb, hv.1, h.kept v hv.2⟩

theorem Pruned.each {P : Value → Prop} (h : Pruned f g keep) (hf : f.Each P) : g.Each P := by
  intro b hb v hv
  obtain ⟨hb, hv, heq⟩ := h.mem hb hv
  rw [heq]
  exact hf b hb v hv

theorem Pruned.storesUnused (h : Pruned f g keep) (hf : f.StoresUnused) : g.StoresUnused := by
  have hop : ∀ {o}, f.NoStore o → g.NoStore o := fun ho x hx => h.op ▸ ho x hx
  refine storesUnused_of (fun b hb v hv o ho => ?_) fun b hb => ?_
  · obtain ⟨hb, hv, heq⟩ := h.mem hb hv
    rw [heq] at ho
    exact hop (hf.arg hb hv ho)
  · rw [h.control]
    exact hop (hf.control (h.graph.layout ▸ hb))

theorem Pruned.tidy (h : Pruned f g keep) (hf : f.Tidy strict) : g.Tidy strict := by
  refine tidy_of (h.each hf.each) (h.storesUnused hf.stores) fun hs b hb hbr hret => ?_
  rw [h.kind] at hbr hret
  rw [h.control]
  exact hf.ends hs b (h.graph.layout ▸ hb) hbr hret

end pruned

theorem Tidy.replaceValue (h : f.Tidy strict) (hf : f.Ssa) (hb : b ∈ f.layout)
    (hv : v ∈ (f.block b).values) (hc : f.Covers w v) (hw : (f.value w).op ≠ .store) :
    (f.replaceValue v (.value w)).Tidy strict := by
  have ht := hf.inTables
  rw [replaceValue_eq hf hb hv]
  exact (pruned_removeValue (hf.replaceUses hc) (by rwa [layout_replaceUses ht])
    (by rwa [values_replaceUses ht])).tidy (h.replaceUses ht hw)

section inserted

variable {i : Nat} {y : Value} (hf : f.Ssa) (hb : b ∈ f.layout)
  (hi : i ≤ (f.block b).values.length)
include hf hb hi

theorem mem_inserted (hx : x ∈ ((f.inserted b i y).block c).values) :
    x ∈ (f.block c).values ∧ (f.inserted b i y).value x = f.value x ∨
      (f.inserted b i y).value x = { y with block := some b } := by
  rw [value_inserted]
  by_cases hxn : x = f.numValues
  · exact .inr (if_pos hxn)
  · refine .inl ⟨?_, if_neg hxn⟩
    rw [block_inserted (hf.flow.lt b hb)] at hx
    split at hx
    · next heq =>
      subst heq
      simpa [List.mem_insertIdx hi, hxn] using hx
    · exact hx

theorem Each.inserted {P : Value → Prop} (h : f.Each P) (hy : P { y with block := some b }) :
    (f.inserted b i y).Each P := by
  intro c hc x hx
  rcases mem_inserted hf hb hi hx with ⟨hx, heq⟩ | heq
  · rw [heq]
    exact h c hc x hx
  · rwa [heq]

theorem StoresUnused.inserted (h : f.StoresUnused) (hargs : y.args = []) (hstore : y.op ≠ .store) :
    (f.inserted b i y).StoresUnused := by
  have hop : ∀ {o}, f.NoStore o → (f.inserted b i y).NoStore o := by
    intro o ho x hx
    rw [value_inserted]
    split
    · exact hstore
    · exact ho x hx
  refine storesUnused_of (fun c hc x hx o ho => ?_) fun c hc => ?_
  · rcases mem_inserted hf hb hi hx with ⟨hx, heq⟩ | heq
    · rw [heq] at ho
      exact hop (h.arg hc hx ho)
    · simp [heq, hargs] at ho
  · rw [(end_inserted (hf.flow.lt b hb)).2]
    exact hop (h.control hc)

theorem Tidy.inserted (h : f.Tidy strict) (hy : TidyValue strict y) (hargs : y.args = [])
    (hstore : y.op ≠ .store) : (f.inserted b i y).Tidy strict := by
  refine tidy_of (h.each.inserted hf hb hi ⟨hy.consts, hy.type, hy.params⟩)
    (h.stores.inserted hf hb hi hargs hstore) fun hs c hc hbr hret => ?_
  obtain ⟨hkind, hctl⟩ := end_inserted (f := f) (c := c) (hf.flow.lt b hb) (i := i) (y := y)
  rw [hkind] at hbr hret
  rw [hctl]
  exact h.ends hs c hc hbr hret

end inserted

theorem Tidy.modifyValue {k : Value → Value} (h : f.Tidy strict) (hf : f.Ssa) (hb : b ∈ f.layout)
    (hv : v ∈ (f.block b).values) (hk : TidyValue strict (k (f.value v)))
    (hstore : (k (f.value v)).op ≠ .store)
    (hargs : ∀ o ∈ (k (f.value v)).args, f.NoStore o) : (f.modifyValue v k).Tidy strict := by
  have hlt := hf.listing.lt hb hv
  have hop : ∀ {o}, f.NoStore o → (f.modifyValue v k).NoStore o := by
    intro o ho x hx
    rw [value_modifyValue hlt]
    split
    · exact hstore
    · exact ho x hx
  refine tidy_of (fun c hc x hx => ?_)
    (storesUnused_of (fun c hc x hx o ho => ?_) fun c hc => hop (h.stores.control hc)) h.ends
  · rw [value_modifyValue hlt]
    split
    · exact hk
    · exact h.value hc hx
  · rw [value_modifyValue hlt] at ho
    split at ho
    · exact hop (hargs o ho)
    · exact hop (h.noStore_arg hc hx ho)

end SsaJit.Func
