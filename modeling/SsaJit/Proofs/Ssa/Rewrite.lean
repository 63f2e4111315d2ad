import SsaJit.Pass.Basic
import SsaJit.Proofs.Ssa.Frame

/-! Edits that keep the control-flow graph, and that they keep the form: putting one value for
another, taking values out, putting one in, and changing one. -/

namespace SsaJit.Func

variable {f g : Func} {b c d : BlockId} {u v w x : ValueId} {o : Operand}

theorem Ssa.inTables (h : f.Ssa) : InTables f f.layout :=
  fun b hb => ⟨h.flow.lt b hb, fun _ hv => h.listing.lt hb hv⟩

/-- Each argument of a phi belongs to a predecessor. -/
theorem Ssa.arg_pred (h : f.Ssa) (hb : b ∈ f.layout) (hv : v ∈ (f.block b).values)
    (hphi : (f.value v).op = .phi) (ho : o ∈ (f.value v).args) :
    f.operandType o = (f.value v).type ∧ ∃ p ∈ (f.block b).preds, f.AtEnd o p := by
  obtain ⟨hlen, hall⟩ := h.phis b hb v hv hphi
  obtain ⟨i, hi⟩ := List.getElem?_of_mem ho
  have hlt : i < (f.block b).preds.length := hlen ▸ (List.getElem?_eq_some_iff.mp hi).1
  have hz : (o, (f.block b).preds[i]) ∈ (f.value v).args.zip (f.block b).preds := by
    refine List.mem_of_getElem? (i := i) ?_
    rw [List.getElem?_zip_eq_some]
    exact ⟨hi, List.getElem?_eq_getElem hlt⟩
  exact ⟨(hall _ hz).1, _, List.getElem_mem hlt, (hall _ hz).2⟩

/-! ## Putting one value for another -/

section replaceUses

variable {old new : Operand}

theorem sameGraph_replaceUses (ht : InTables f f.layout) :
    SameGraph f (f.replaceUses old new) where
  layout := layout_replaceUses ht
  numBlocks := numBlocks_replaceUses ht
  succs b := by rw [block_replaceUses ht]; split <;> rfl
  preds b := by rw [block_replaceUses ht]; split <;> rfl
  own b := by rw [block_replaceUses ht]; split <;> rfl

theorem values_replaceUses (ht : InTables f f.layout) :
    ((f.replaceUses old new).block b).values = (f.block b).values := by
  rw [block_replaceUses ht]; split <;> rfl

theorem kind_replaceUses (ht : InTables f f.layout) :
    ((f.replaceUses old new).block b).kind = (f.block b).kind := by
  rw [block_replaceUses ht]; split <;> rfl

/-- Only operands change. -/
theorem replaceUses_head (old new : Operand) (ht : InTables f f.layout) (x : ValueId) :
    ∃ a, (f.replaceUses old new).value x = { f.value x with args := a } := by
  rw [value_replaceUses ht]
  split
  · exact ⟨_, rfl⟩
  · exact ⟨_, rfl⟩

theorem value_replaceUses_of_mem (ht : InTables f f.layout) (hb : b ∈ f.layout)
    (hx : x ∈ (f.block b).values) : (f.replaceUses old new).value x =
      { f.value x with args := (f.value x).args.map (swap old new) } := by
  rw [value_replaceUses ht, if_pos ⟨b, hb, hx⟩]

theorem stays_replaceUses (ht : InTables f f.layout) (x : ValueId) :
    Stays f (f.replaceUses old new) x := by
  obtain ⟨a, ha⟩ := replaceUses_head old new ht x
  exact .of_eq (by rw [ha]) (by rw [ha])

theorem operandType_replaceUses (ht : InTables f f.layout) :
    (f.replaceUses old new).operandType o = f.operandType o := by
  cases o with
  | value x =>
    obtain ⟨a, ha⟩ := replaceUses_head old new ht x
    rw [operandType, ha]
    rfl
  | missing => rfl
  | foreign k => rfl

end replaceUses

theorem Covers.operandType_swap (h : f.Covers w v) :
    f.operandType (swap (.value v) (.value w) o) = f.operandType o := by
  unfold swap
  split
  · next ho => rw [ho]; exact h.type
  · rfl

theorem Covers.atEnd_swap (h : f.Covers w v) (ho : f.AtEnd o b) :
    f.AtEnd (swap (.value v) (.value w) o) b := by
  unfold swap
  split
  · next heq => exact h.atEnd b (heq ▸ ho)
  · exact ho

theorem swap_ne_missing : swap (.value v) (.value w) o = .missing ↔ o = .missing := by
  unfold swap
  split
  · next ho => simp [ho]
  · rfl

theorem wellTyped_args (a : List Operand) {y : Value} {ts : List Ty} {home : Prop} :
    WellTyped { y with args := a } ts home ↔ WellTyped y ts home := Iff.rfl

theorem wellTyped_param {y : Value} {ts : List Ty} {home : Prop} (h : y.op = .param) :
    WellTyped y ts home := by
  simp [WellTyped, h, Op.isBinary, Op.isCast]

section covered

variable (h : f.Ssa) (hc : f.Covers w v)

include h

theorem op_replaceUses : ((f.replaceUses (.value v) (.value w)).value x).op = (f.value x).op := by
  obtain ⟨a, ha⟩ := replaceUses_head (.value v) (.value w) h.inTables x
  rw [ha]

include hc

/-- What could be read at the end of a block can be read there with the one value for the other. -/
theorem atEnd_replaceUses (ho : f.AtEnd o b) :
    (f.replaceUses (.value v) (.value w)).AtEnd (swap (.value v) (.value w) o) b :=
  (hc.atEnd_swap ho).stays (sameGraph_replaceUses h.inTables).narrows
    fun y _ => stays_replaceUses h.inTables y

theorem phiWell_replaceUses (hb : b ∈ f.layout) (hx : x ∈ (f.block b).values)
    (hp : (f.value x).op = .phi) : (f.replaceUses (.value v) (.value w)).PhiWell b x := by
  have ht := h.inTables
  obtain ⟨hlen, hargs⟩ := h.phis b hb x hx hp
  unfold PhiWell
  rw [value_replaceUses_of_mem ht hb hx, (sameGraph_replaceUses ht).preds]
  refine ⟨by simpa using hlen, fun y hy => ?_⟩
  rw [List.zip_map_left, List.mem_map] at hy
  obtain ⟨z, hz, rfl⟩ := hy
  obtain ⟨hty, hz⟩ := hargs z hz
  exact ⟨(operandType_replaceUses ht).trans (hc.operandType_swap.trans hty),
    atEnd_replaceUses h hc hz⟩

theorem valueWell_replaceUses (hb : b ∈ f.layout) (hx : x ∈ (f.block b).values)
    (hp : (f.value x).op ≠ .phi) : (f.replaceUses (.value v) (.value w)).ValueWell b x := by
  have ht := h.inTables
  have hg : SameGraph f (f.replaceUses (.value v) (.value w)) := sameGraph_replaceUses ht
  obtain ⟨hbefore, htyped⟩ := h.values b hb x hx hp
  have htypes : (f.replaceUses (.value v) (.value w)).argTypes
      { f.value x with args := (f.value x).args.map (swap (.value v) (.value w)) } =
      f.argTypes (f.value x) := by
    simp only [argTypes, List.map_map]
    refine List.map_congr_left fun o _ => ?_
    rw [Function.comp, operandType_replaceUses ht, hc.operandType_swap]
  unfold ValueWell
  rw [value_replaceUses_of_mem ht hb hx, hg.start, htypes, wellTyped_args]
  refine ⟨fun hparam o ho => ?_, htyped⟩
  obtain ⟨o', ho', rfl⟩ := List.mem_map.mp ho
  have hb' := hbefore hparam o' ho'
  have hswap : f.Before (swap (.value v) (.value w) o') x b := by
    unfold swap
    split
    · next heq => exact hc.before b x hb hx hp hparam (heq ▸ ho') (heq ▸ hb')
    · exact hb'
  exact hswap.stays hg.narrows (fun y _ => stays_replaceUses ht y)
    fun y _ _ hs => by rwa [values_replaceUses ht]

theorem Ssa.replaceUses : (f.replaceUses (.value v) (.value w)).Ssa := by
  have ht := h.inTables
  have hg : SameGraph f (f.replaceUses (.value v) (.value w)) := sameGraph_replaceUses ht
  have hvals : ∀ b, ((f.replaceUses (.value v) (.value w)).block b).values = (f.block b).values :=
    fun b => values_replaceUses ht
  exact {
    flow := hg.flow h.flow
    listing := by
      refine ⟨fun x b => ?_, fun b hb => ?_⟩
      · obtain ⟨a, ha⟩ := replaceUses_head (.value v) (.value w) ht x
        rw [ha, hg.layout, hvals]
        exact h.listing.listed x b
      · rw [hvals]
        exact h.listing.nodup b (hg.layout ▸ hb)
    entry_phis := fun x hx => by
      rw [op_replaceUses h]
      rw [hg.start, hvals] at hx
      exact h.entry_phis x hx
    ends := fun b hb => by
      rw [hg.layout] at hb
      refine (h.ends b hb).transfer (kind_replaceUses ht) (by rw [hg.succs]) (ret_replaceUses ht)
        ?_ fun hctl => ?_
      · rw [block_replaceUses ht, if_pos hb]
        exact swap_ne_missing
      · rw [block_replaceUses ht, if_pos hb, operandType_replaceUses ht]
        exact ⟨atEnd_replaceUses h hc hctl, hc.operandType_swap⟩
    phisFirst := fun b hb y p hs hp => by
      rw [op_replaceUses h] at hp ⊢
      rw [hvals] at hs
      exact h.phisFirst b (hg.layout ▸ hb) y p hs hp
    phis := fun b hb x hx hp =>
      phiWell_replaceUses h hc (hg.layout ▸ hb) (hvals b ▸ hx) (op_replaceUses h ▸ hp)
    values := fun b hb x hx hp =>
      valueWell_replaceUses h hc (hg.layout ▸ hb) (hvals b ▸ hx) (op_replaceUses h ▸ hp) }

end covered

/-! ## Taking values out -/

/-- `g` is `f` without the values that are not to be kept. -/
structure Pruned (f g : Func) (keep : ValueId → Bool) : Prop where
  graph : SameGraph f g
  ret : g.ret = f.ret
  kind : ∀ b, (g.block b).kind = (f.block b).kind
  control : ∀ b, (g.block b).control = (f.block b).control
  values : ∀ b ∈ f.layout, (g.block b).values = (f.block b).values.filter keep
  kept : ∀ v, keep v = true → g.value v = f.value v
  dropped : ∀ v, keep v = false → g.value v = { f.value v with block := none }

/-- Whatever is kept reads only what is kept, or stores. -/
structure Unread (f : Func) (keep : ValueId → Bool) : Prop where
  args : ∀ b ∈ f.layout, ∀ u ∈ (f.block b).values, keep u = true → (f.value u).op ≠ .param →
    ∀ v, .value v ∈ (f.value u).args → keep v = true ∨ (f.value v).op = .store
  control : ∀ b ∈ f.layout, ∀ v, (f.block b).control = .value v →
    keep v = true ∨ (f.value v).op = .store

namespace Pruned

variable {keep : ValueId → Bool}

theorem op (h : Pruned f g keep) : (g.value v).op = (f.value v).op := by
  cases hk : keep v with
  | true => rw [h.kept v hk]
  | false => rw [h.dropped v hk]

theorem operandType (h : Pruned f g keep) : g.operandType o = f.operandType o := by
  cases o with
  | value v =>
    change (g.value v).type = (f.value v).type
    cases hk : keep v with
    | true => rw [h.kept v hk]
    | false => rw [h.dropped v hk]
  | missing => rfl
  | foreign k => rfl

theorem stays (h : Pruned f g keep) (hv : keep v = true ∨ (f.value v).op = .store) :
    Stays f g v := by
  refine ⟨fun hs => h.op.trans hs, ?_⟩
  rcases hv with hv | hv
  · exact .inr (by rw [h.kept v hv])
  · exact .inl (h.op.trans hv)

theorem listing (h : Pruned f g keep) (hf : f.Ssa) : g.Listing := by
  have hg := h.graph
  refine ⟨fun v b => ?_, fun b hb => ?_⟩
  · rw [hg.layout]
    cases hk : keep v with
    | true =>
      rw [h.kept v hk, hf.listing.listed v b]
      refine and_congr_right fun hb => ?_
      rw [h.values b hb, List.mem_filter, and_iff_left hk]
    | false =>
      rw [h.dropped v hk]
      simp only [reduceCtorEq, false_iff, not_and]
      intro hb
      rw [h.values b hb, List.mem_filter]
      simp [hk]
  · rw [hg.layout] at hb
    rw [h.values b hb]
    exact (hf.listing.nodup b hb).filter _

/-- What a kept value reads is kept or a store. -/
theorem phiWell (h : Pruned f g keep) (hf : f.Ssa) (hu : f.Unread keep) (hb : b ∈ f.layout)
    (hv : v ∈ (f.block b).values) (hk : keep v = true) (hp : (f.value v).op = .phi) :
    g.PhiWell b v := by
  obtain ⟨hlen, hargs⟩ := hf.phis b hb v hv hp
  unfold PhiWell
  rw [h.kept v hk, h.graph.preds]
  refine ⟨hlen, fun y hy => ?_⟩
  obtain ⟨hty, hend⟩ := hargs y hy
  refine ⟨h.operandType.trans hty, hend.stays h.graph.narrows fun w hw => h.stays ?_⟩
  exact hu.args b hb v hv hk (by simp [hp]) w (hw ▸ (List.of_mem_zip hy).1)

theorem valueWell (h : Pruned f g keep) (hf : f.Ssa) (hu : f.Unread keep) (hb : b ∈ f.layout)
    (hv : v ∈ (f.block b).values) (hk : keep v = true) (hp : (f.value v).op ≠ .phi) :
    g.ValueWell b v := by
  obtain ⟨hbefore, htyped⟩ := hf.values b hb v hv hp
  have htypes : g.argTypes (f.value v) = f.argTypes (f.value v) :=
    List.map_congr_left fun o _ => h.operandType
  unfold ValueWell
  rw [h.kept v hk, h.graph.start, htypes]
  refine ⟨fun hparam o ho => ?_, htyped⟩
  refine (hbefore hparam o ho).stays h.graph.narrows
    (fun w hw => h.stays (hu.args b hb v hv hk hparam w (hw ▸ ho))) fun w hw hns hs => ?_
  have hkw := (hu.args b hb v hv hk hparam w (hw ▸ ho)).resolve_right (h.op ▸ hns)
  rw [h.values b hb]
  simpa [hkw, hk] using hs.filter keep

theorem ssa (h : Pruned f g keep) (hf : f.Ssa) (hu : f.Unread keep) : g.Ssa := by
  have hg := h.graph
  -- what is listed was listed, and is kept
  have hmem : ∀ {b v}, b ∈ g.layout → v ∈ (g.block b).values →
      b ∈ f.layout ∧ v ∈ (f.block b).values ∧ keep v = true := fun {b v} hb hv => by
    rw [hg.layout] at hb
    rw [h.values b hb, List.mem_filter] at hv
    exact ⟨hb, hv⟩
  exact {
    flow := hg.flow hf.flow
    listing := h.listing hf
    entry_phis := fun v hv => by
      rw [hg.start, h.values _ hf.flow.start_mem] at hv
      rw [h.op]
      exact hf.entry_phis v (List.mem_of_mem_filter hv)
    ends := fun b hb => by
      rw [hg.layout] at hb
      refine (hf.ends b hb).transfer (h.kind b) (by rw [hg.succs]) h.ret (by rw [h.control])
        fun hctl => ?_
      rw [h.control]
      exact ⟨hctl.stays hg.narrows fun v hv => h.stays (hu.control b hb v hv), h.operandType⟩
    phisFirst := fun b hb y p hs hp => by
      rw [hg.layout] at hb
      rw [h.values b hb] at hs
      rw [h.op] at hp ⊢
      exact hf.phisFirst b hb y p (hs.trans List.filter_sublist) hp
    phis := fun b hb v hv hp => by
      obtain ⟨hb, hv, hk⟩ := hmem hb hv
      exact h.phiWell hf hu hb hv hk (h.op ▸ hp)
    values := fun b hb v hv hp => by
      obtain ⟨hb, hv, hk⟩ := hmem hb hv
      exact h.valueWell hf hu hb hv hk (h.op ▸ hp) }

end Pruned

theorem pruned_removeValue (h : f.Ssa) (hb : b ∈ f.layout) (hv : v ∈ (f.block b).values) :
    Pruned f (f.removeValue b v) (· != v) := by
  have hlt := h.listing.lt hb hv
  have hblt := h.flow.lt b hb
  have hblock : ∀ c, ((f.removeValue b v).block c) =
      if c = b then { f.block b with values := (f.block b).values.erase v } else f.block c :=
    fun c => block_removeValue hblt hv
  refine ⟨⟨by simp, by simp, fun c => ?_, fun c => ?_, fun c => ?_⟩, by simp, fun c => ?_,
    fun c => ?_, fun c hc => ?_, fun w hw => ?_, fun w hw => ?_⟩
  iterate 5
    rw [hblock]
    split
    · next heq => rw [heq]
    · rfl
  · rw [hblock]
    split
    · next heq =>
      subst heq
      exact (h.listing.nodup c hb).erase_eq_filter v
    · next hne =>
      refine (List.filter_eq_self.mpr fun w hw => ?_).symm
      have : w ≠ v := fun heq => hne (h.listing.unique hc hb (heq ▸ hw) hv)
      simpa using this
  · rw [value_removeValue hlt hv, if_neg (by simpa using hw)]
  · have hwv : w = v := by simpa using hw
    rw [value_removeValue hlt hv, if_pos hwv, hwv]

theorem replaceValue_eq (h : f.Ssa) (hb : b ∈ f.layout) (hv : v ∈ (f.block b).values) :
    f.replaceValue v (.value w) = (f.replaceUses (.value v) (.value w)).removeValue b v := by
  obtain ⟨a, ha⟩ := replaceUses_head (.value v) (.value w) h.inTables v
  have hblock := (h.listing.listed v b).mpr ⟨hb, hv⟩
  unfold replaceValue
  simp only [ha, hblock]

theorem unread_replaceUses (h : f.Ssa) (hne : w ≠ v) :
    (f.replaceUses (.value v) (.value w)).Unread (· != v) := by
  have ht := h.inTables
  have hswap : ∀ o, swap (.value v) (.value w) o ≠ .value v := by
    intro o ho
    unfold swap at ho
    split at ho
    · exact hne (by simpa using ho)
    · next hov => exact hov ho
  refine ⟨fun b hb u hu _ _ x hx => .inl ?_, fun b hb x hx => .inl ?_⟩
  · rw [layout_replaceUses ht] at hb
    rw [values_replaceUses ht] at hu
    rw [value_replaceUses_of_mem ht hb hu, List.mem_map] at hx
    obtain ⟨o, _, ho⟩ := hx
    simpa using fun heq : x = v => hswap o (heq ▸ ho)
  · rw [layout_replaceUses ht] at hb
    rw [block_replaceUses ht, if_pos hb] at hx
    simpa using fun heq : x = v => hswap _ (heq ▸ hx)

theorem Ssa.replaceValue (h : f.Ssa) (hb : b ∈ f.layout) (hv : v ∈ (f.block b).values)
    (hne : w ≠ v) (hc : f.Covers w v) : (f.replaceValue v (.value w)).Ssa := by
  have ht := h.inTables
  have h' := h.replaceUses hc
  rw [replaceValue_eq h hb hv]
  exact (pruned_removeValue h' (by rwa [layout_replaceUses ht])
    (by rwa [values_replaceUses ht])).ssa h' (unread_replaceUses h hne)

/-! ## Putting a value in -/

theorem insertIdx_split {l : List ValueId} {i : Nat} (hi : i ≤ l.length) :
    l.insertIdx i v = l.take i ++ v :: l.drop i := by
  induction l generalizing i with
  | nil =>
    obtain rfl : i = 0 := by simpa using hi
    rfl
  | cons x l ih =>
    cases i with
    | zero => rfl
    | succ i => simpa using ih (by simpa using hi)

/-- What follows a new element of a list is what stood from its place on. -/
theorem mem_drop_of_sublist_insertIdx {l : List ValueId} {i : Nat} (hi : i ≤ l.length)
    (hv : v ∉ l) (h : [v, u].Sublist (l.insertIdx i v)) (hl : l.Nodup) : u ∈ l.drop i := by
  rw [insertIdx_split hi] at h
  have hvt : v ∉ l.take i := fun hm => hv (List.mem_of_mem_take hm)
  have hvd : v ∉ l.drop i := fun hm => hv (List.mem_of_mem_drop hm)
  have hnd : (l.take i ++ v :: l.drop i).Nodup := by
    rw [List.nodup_middle, List.take_append_drop]
    exact List.nodup_cons.mpr ⟨hv, hl⟩
  obtain ⟨_, hu, hlt⟩ := (sublist_pair_iff hnd).mp h
  rw [List.idxOf_append_of_notMem hvt, List.idxOf_cons_self] at hlt
  rcases List.mem_append.mp hu with hu | hu
  · rw [List.idxOf_append_of_mem hu] at hlt
    have := List.idxOf_lt_length_of_mem hu
    omega
  · rcases List.mem_cons.mp hu with rfl | hu
    · rw [List.idxOf_append_of_notMem hvt, List.idxOf_cons_self] at hlt
      omega
    · exact hu

theorem sublist_of_sublist_insertIdx {l : List ValueId} {i : Nat} (hi : i ≤ l.length)
    (hv : v ∉ l) (hw : w ≠ v) (hu : u ≠ v) (h : [w, u].Sublist (l.insertIdx i v)) :
    [w, u].Sublist l := by
  have hself : l.filter (· != v) = l := List.filter_eq_self.mpr fun x hx => by
    simpa using fun heq : x = v => hv (heq ▸ hx)
  have hnew : (l.insertIdx i v).filter (· != v) = l := by
    rw [insertIdx_split hi, List.filter_append, List.filter_cons_of_neg (by simp),
      ← List.filter_append, List.take_append_drop, hself]
  have hfilter := h.filter (· != v)
  rw [hnew] at hfilter
  simpa [hw, hu] using hfilter

section inserted

variable {i : Nat} {y : Value}

theorem sameGraph_inserted (hb : b < f.numBlocks) : SameGraph f (f.inserted b i y) := by
  have hblock : ∀ c, (f.inserted b i y).block c = if c = b then
      { f.block b with values := (f.block b).values.insertIdx i f.numValues } else f.block c :=
    fun c => block_inserted hb
  refine ⟨rfl, by simp, fun c => ?_, fun c => ?_, fun c => ?_⟩
  iterate 3
    rw [hblock]
    split
    · next heq => rw [heq]
    · rfl

theorem end_inserted (hb : b < f.numBlocks) :
    ((f.inserted b i y).block c).kind = (f.block c).kind ∧
      ((f.inserted b i y).block c).control = (f.block c).control := by
  rw [block_inserted hb]
  split
  · next heq => rw [heq]; exact ⟨rfl, rfl⟩
  · exact ⟨rfl, rfl⟩

/-- The new value apart, a block lists what it listed. -/
theorem mem_of_mem_inserted (hb : b < f.numBlocks) (hi : i ≤ (f.block b).values.length)
    (hv : v ∈ ((f.inserted b i y).block c).values) (hne : v ≠ f.numValues) :
    v ∈ (f.block c).values := by
  rw [block_inserted hb] at hv
  split at hv
  · next heq =>
    subst heq
    exact ((List.mem_insertIdx hi).mp hv).resolve_left hne
  · exact hv

theorem stays_inserted (hv : v ≠ f.numValues) : Stays f (f.inserted b i y) v :=
  .of_eq (by rw [value_inserted, if_neg hv]) (by rw [value_inserted, if_neg hv])

/-- An operand that can be read is no new value. -/
theorem AtEnd.ne_numValues (h : f.AtEnd (.value v) b) : v ≠ f.numValues := by
  rintro rfl
  obtain ⟨w, hw, h⟩ := h
  obtain rfl : f.numValues = w := by simpa using hw
  rw [value_of_le (Nat.le_refl _)] at h
  rcases h with h | ⟨d, h, _⟩
  · cases h
  · cases h

theorem Before.ne_numValues (h : f.Before (.value v) u b) : v ≠ f.numValues := by
  rintro rfl
  obtain ⟨w, hw, h⟩ := h
  obtain rfl : f.numValues = w := by simpa using hw
  rw [value_of_le (Nat.le_refl _)] at h
  rcases h with h | ⟨h, _⟩
  · cases h
  · cases h

theorem operandType_inserted (ho : ∀ a, o = .value a → a ≠ f.numValues) :
    (f.inserted b i y).operandType o = f.operandType o := by
  cases o with
  | value a =>
    change ((f.inserted b i y).value a).type = (f.value a).type
    rw [value_inserted, if_neg (ho a rfl)]
  | missing => rfl
  | foreign k => rfl

theorem atEnd_inserted (hb : b < f.numBlocks) (ho : f.AtEnd o c) : (f.inserted b i y).AtEnd o c :=
  ho.stays (sameGraph_inserted hb).narrows fun _ hx => stays_inserted (hx ▸ ho).ne_numValues

theorem mem_values_inserted (hb : b < f.numBlocks) (hi : i ≤ (f.block b).values.length) :
    x ∈ ((f.inserted b i y).block c).values ↔ x ∈ (f.block c).values ∨ (x = f.numValues ∧ c = b) := by
  rw [block_inserted hb]
  split
  · next heq =>
    subst heq
    simp only [List.mem_insertIdx hi, and_true]
    exact or_comm
  · next hne => simp [hne]

theorem sublist_inserted (hb : b < f.numBlocks) (c : BlockId) :
    (f.block c).values.Sublist ((f.inserted b i y).block c).values := by
  rw [block_inserted hb]
  split
  · next heq => rw [heq]; exact List.sublist_insertIdx _ _ _
  · exact List.Sublist.refl _

theorem Listing.notMem_new (h : f.Listing) (hc : c ∈ f.layout) : f.numValues ∉ (f.block c).values :=
  fun hm => Nat.lt_irrefl _ (h.lt hc hm)

theorem Listing.value_inserted (h : f.Listing) (hc : c ∈ f.layout) (hx : x ∈ (f.block c).values) :
    (f.inserted b i y).value x = f.value x := by
  rw [Func.value_inserted, if_neg fun heq : x = f.numValues => h.notMem_new hc (heq ▸ hx)]

theorem Listing.inserted (h : f.Listing) (hblt : b < f.numBlocks) (hb : b ∈ f.layout)
    (hi : i ≤ (f.block b).values.length) : (f.inserted b i y).Listing := by
  refine ⟨fun x c => ?_, fun c hc => ?_⟩
  · by_cases hx : x = f.numValues
    · subst hx
      rw [Func.value_inserted, if_pos rfl]
      constructor
      · intro heq
        obtain rfl : b = c := by simpa using heq
        exact ⟨hb, (mem_values_inserted hblt hi).mpr (.inr ⟨rfl, rfl⟩)⟩
      · rintro ⟨hc, hm⟩
        rcases (mem_values_inserted hblt hi).mp hm with hm | ⟨-, rfl⟩
        · exact absurd hm (h.notMem_new hc)
        · rfl
    · rw [Func.value_inserted, if_neg hx, h.listed x c, mem_values_inserted hblt hi]
      simp [hx]
  · rw [block_inserted hblt]
    split
    · exact (List.perm_insertIdx _ _ hi).nodup_iff.mpr
        (List.nodup_cons.mpr ⟨h.notMem_new hb, h.nodup b hb⟩)
    · exact h.nodup c hc

/-- Phis stay first if the new value is put behind those of its block. -/
theorem Ssa.phisFirst_inserted (h : f.Ssa) (hi : i ≤ (f.block b).values.length) (hop : y.op ≠ .phi)
    (hphis : ∀ p ∈ (f.block b).values.drop i, (f.value p).op ≠ .phi) (hb : b ∈ f.layout)
    (hc : c ∈ f.layout) (hs : [x, u].Sublist ((f.inserted b i y).block c).values)
    (hu : ((f.inserted b i y).value u).op = .phi) :
    ((f.inserted b i y).value x).op = .phi ∨ ((f.inserted b i y).value x).op = .param := by
  have hblt := h.flow.lt b hb
  have hl := h.listing
  have hun : u ≠ f.numValues := by
    rintro rfl
    rw [value_inserted, if_pos rfl] at hu
    exact hop hu
  have hum : u ∈ (f.block c).values := by
    rcases (mem_values_inserted hblt hi).mp (hs.subset (by simp : u ∈ [x, u])) with hum | ⟨heq, -⟩
    · exact hum
    · exact absurd heq hun
  rw [hl.value_inserted hc hum] at hu
  rw [block_inserted hblt] at hs
  split at hs
  · next heq =>
    subst heq
    by_cases hx : x = f.numValues
    · subst hx
      have hbehind := mem_drop_of_sublist_insertIdx hi (hl.notMem_new hc) hs (hl.nodup c hc)
      exact absurd hu (hphis u hbehind)
    · have hs := sublist_of_sublist_insertIdx hi (hl.notMem_new hc) hx hun hs
      rw [value_inserted, if_neg hx]
      exact h.phisFirst c hc x u hs hu
  · rw [hl.value_inserted hc (hs.subset (by simp))]
    exact h.phisFirst c hc x u hs hu

theorem Ssa.phiWell_inserted (h : f.Ssa) (hblt : b < f.numBlocks) (hc : c ∈ f.layout)
    (hx : x ∈ (f.block c).values) (hp : (f.value x).op = .phi) : (f.inserted b i y).PhiWell c x := by
  obtain ⟨hlen, hall⟩ := h.phis c hc x hx hp
  unfold PhiWell
  rw [h.listing.value_inserted hc hx, (sameGraph_inserted hblt).preds]
  refine ⟨hlen, fun z hz => ?_⟩
  obtain ⟨hzt, hze⟩ := hall z hz
  exact ⟨(operandType_inserted fun w hw => (hw ▸ hze).ne_numValues).trans hzt,
    atEnd_inserted hblt hze⟩

theorem Ssa.valueWell_inserted (h : f.Ssa) (hblt : b < f.numBlocks) (hc : c ∈ f.layout)
    (hx : x ∈ (f.block c).values) (hp : (f.value x).op ≠ .phi) :
    (f.inserted b i y).ValueWell c x := by
  have hg := sameGraph_inserted (i := i) (y := y) hblt
  obtain ⟨hbefore, htyped⟩ := h.values c hc x hx hp
  unfold ValueWell
  rw [h.listing.value_inserted hc hx, hg.start]
  refine ⟨fun hparam o ho => ?_, ?_⟩
  · have hbo := hbefore hparam o ho
    exact hbo.stays hg.narrows (fun w hw => stays_inserted (hw ▸ hbo).ne_numValues)
      fun w _ _ hs => hs.trans (sublist_inserted hblt c)
  · by_cases hparam : (f.value x).op = .param
    · exact wellTyped_param hparam
    · have htypes : (f.inserted b i y).argTypes (f.value x) = f.argTypes (f.value x) :=
        List.map_congr_left fun o ho =>
          operandType_inserted fun w hw => (hw ▸ hbefore hparam o ho).ne_numValues
      rw [htypes]
      exact htyped

theorem Ssa.inserted (h : f.Ssa) (hb : b ∈ f.layout) (hi : i ≤ (f.block b).values.length)
    (hop : y.op ≠ .phi) (hargs : y.args = []) (hty : WellTyped y [] (b = f.start))
    (hphis : ∀ p ∈ (f.block b).values.drop i, (f.value p).op ≠ .phi) :
    (f.inserted b i y).Ssa := by
  have hblt := h.flow.lt b hb
  have hl := h.listing
  have hg := sameGraph_inserted (i := i) (y := y) hblt
  have hnew : (f.inserted b i y).value f.numValues = { y with block := some b } := by
    rw [value_inserted, if_pos rfl]
  exact {
    flow := hg.flow h.flow
    listing := hl.inserted hblt hb hi
    entry_phis := fun x hx => by
      rw [hg.start] at hx
      rcases (mem_values_inserted hblt hi).mp hx with hx | ⟨rfl, -⟩
      · rw [hl.value_inserted h.flow.start_mem hx]
        exact h.entry_phis x hx
      · rw [hnew]
        exact hop
    ends := fun c hc => by
      rw [hg.layout] at hc
      obtain ⟨hkind, hctl⟩ := @end_inserted f b c i y hblt
      refine (h.ends c hc).transfer hkind (by rw [hg.succs]) rfl (by rw [hctl]) fun ho => ?_
      rw [hctl]
      exact ⟨atEnd_inserted hblt ho, operandType_inserted fun x hx => (hx ▸ ho).ne_numValues⟩
    phisFirst := fun c hc x u hs hu =>
      h.phisFirst_inserted hi hop hphis hb (hg.layout ▸ hc) hs hu
    phis := fun c hc x hx hp => by
      rw [hg.layout] at hc
      rcases (mem_values_inserted hblt hi).mp hx with hx | ⟨rfl, rfl⟩
      · exact h.phiWell_inserted hblt hc hx (hl.value_inserted hc hx ▸ hp)
      · rw [hnew] at hp
        exact absurd hp hop
    values := fun c hc x hx hp => by
      rw [hg.layout] at hc
      rcases (mem_values_inserted hblt hi).mp hx with hx | ⟨rfl, rfl⟩
      · exact h.valueWell_inserted hblt hc hx (hl.value_inserted hc hx ▸ hp)
      · have htypes : (f.inserted c i y).argTypes { y with block := some c } = [] := by
          simp [argTypes, hargs]
        unfold ValueWell
        rw [hnew, hg.start, htypes]
        refine ⟨fun _ o ho => ?_, hty⟩
        simp [hargs] at ho }

end inserted

/-! ## Changing a value -/

theorem sameGraph_modifyValue {k : Value → Value} : SameGraph f (f.modifyValue v k) :=
  ⟨rfl, rfl, fun _ => rfl, fun _ => rfl, fun _ => rfl⟩

section modifyValue

variable {k : Value → Value}

theorem operandType_modifyValue (hlt : v < f.numValues) (htype : (k (f.value v)).type = (f.value v).type)
    (o : Operand) : (f.modifyValue v k).operandType o = f.operandType o := by
  cases o with
  | value x =>
    change ((f.modifyValue v k).value x).type = (f.value x).type
    rw [value_modifyValue hlt]
    split
    · next heq => rw [htype, heq]
    · rfl
  | missing => rfl
  | foreign k => rfl

theorem home_modifyValue (hlt : v < f.numValues) (hblock : (k (f.value v)).block = (f.value v).block)
    (x : ValueId) : ((f.modifyValue v k).value x).block = (f.value x).block := by
  rw [value_modifyValue hlt]
  split
  · next heq => rw [hblock, heq]
  · rfl

theorem stays_modifyValue (hlt : v < f.numValues)
    (hblock : (k (f.value v)).block = (f.value v).block) (hstore : (f.value v).op ≠ .store)
    (x : ValueId) : Stays f (f.modifyValue v k) x := by
  refine ⟨fun hs => ?_, .inr (home_modifyValue hlt hblock x)⟩
  rw [value_modifyValue hlt, if_neg fun heq : x = v => hstore (heq ▸ hs)]
  exact hs

/-- Another operation or other operands for a value that is neither a phi nor a parameter. -/
theorem Ssa.modifyValue (h : f.Ssa) (hb : b ∈ f.layout)
    (hv : v ∈ (f.block b).values) (htype : (k (f.value v)).type = (f.value v).type)
    (hblock : (k (f.value v)).block = (f.value v).block)
    (hold : (f.value v).op ≠ .phi ∧ (f.value v).op ≠ .param ∧ (f.value v).op ≠ .store)
    (hphi : (k (f.value v)).op ≠ .phi) (hargs : ∀ o ∈ (k (f.value v)).args, f.Before o v b)
    (hty : WellTyped (k (f.value v)) (f.argTypes (k (f.value v))) (b = f.start)) :
    (f.modifyValue v k).Ssa := by
  have hlt := h.listing.lt hb hv
  have hg := sameGraph_modifyValue (f := f) (v := v) (k := k)
  have hval : ∀ x, (f.modifyValue v k).value x = if x = v then k (f.value v) else f.value x :=
    fun _ => value_modifyValue hlt
  have hotype := operandType_modifyValue hlt htype
  have hstays := stays_modifyValue hlt hblock hold.2.2
  have hend : ∀ {o c}, f.AtEnd o c → (f.modifyValue v k).AtEnd o c :=
    fun ho => ho.stays hg.narrows fun x _ => hstays x
  have hbef : ∀ {o x c}, f.Before o x c → (f.modifyValue v k).Before o x c :=
    fun ho => ho.stays hg.narrows (fun x _ => hstays x) fun _ _ _ hs => hs
  -- the value that is changed is no phi, so phis stay as they are
  have hkept : ∀ {x}, ((f.modifyValue v k).value x).op = .phi →
      (f.modifyValue v k).value x = f.value x := fun {x} hp => by
    rw [hval] at hp ⊢
    split at hp
    · exact absurd hp hphi
    · next hne => exact if_neg hne
  exact {
    flow := hg.flow h.flow
    listing := ⟨fun x c => by rw [home_modifyValue hlt hblock]; exact h.listing.listed x c,
      h.listing.nodup⟩
    entry_phis := fun x hx hp => h.entry_phis x hx (hkept hp ▸ hp)
    ends := fun c hc => (h.ends c hc).transfer rfl rfl rfl Iff.rfl fun ho => ⟨hend ho, hotype _⟩
    phisFirst := fun c hc x p hs hp => by
      have hx := h.phisFirst c hc x p hs (hkept hp ▸ hp)
      rw [hval, if_neg]
      · exact hx
      · rintro rfl
        exact hx.elim hold.1 hold.2.1
    phis := fun c hc x hx hp => by
      unfold PhiWell
      obtain ⟨hlen, hall⟩ := h.phis c hc x hx (hkept hp ▸ hp)
      rw [hkept hp]
      exact ⟨hlen, fun z hz => ⟨(hotype _).trans (hall z hz).1, hend (hall z hz).2⟩⟩
    values := fun c hc x hx hp => by
      unfold ValueWell
      rw [show (f.modifyValue v k).argTypes _ = f.argTypes _ from
        List.map_congr_left fun o _ => hotype o]
      by_cases hxv : x = v
      · subst hxv
        obtain rfl := h.listing.unique hb hc hv hx
        rw [hval, if_pos rfl]
        exact ⟨fun _ o ho => hbef (hargs o ho), hty⟩
      · rw [hval, if_neg hxv] at hp ⊢
        obtain ⟨hbefore, htyped⟩ := h.values c hc x hx hp
        exact ⟨fun hparam o ho => hbef (hbefore hparam o ho), htyped⟩ }

end modifyValue

end SsaJit.Func
