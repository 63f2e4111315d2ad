import SsaJit.Pass.Promote
import SsaJit.Proofs.Graph.Frontiers
import SsaJit.Proofs.Pass.Basic

/-! Slots that can be promoted, and where their phis go. A promotable slot is nothing but the address
of plain loads and stores of one type. Phis are placed at the frontiers of the blocks that write the
slot and of those that get a phi for it, all of them: the rounds allowed are enough. -/

namespace SsaJit.Func

variable {f g k : Func} {b c d e p : BlockId} {slot u v w x : ValueId} {o : Operand} {t : Ty}

/-! ## Accesses -/

/-- The value reads the slot. -/
def Reads (f : Func) (slot v : ValueId) : Prop :=
  (f.value v).op = .load ∧ (f.value v).args = [.value slot]

/-- The value writes `w` to the slot. -/
def Writes (f : Func) (slot v w : ValueId) : Prop :=
  (f.value v).op = .store ∧ (f.value v).args = [.value w, .value slot]

/-- The value reads or writes the slot. -/
def Accesses (f : Func) (slot v : ValueId) : Prop := f.Reads slot v ∨ ∃ w, f.Writes slot v w

theorem Ssa.load_args (h : f.Ssa) (hb : b ∈ f.layout) (hv : v ∈ (f.block b).values)
    (hop : (f.value v).op = .load) : ∃ w, (f.value v).args = [.value w] := by
  have hty := h.typed hb hv (by simp [hop])
  simp only [WellTyped, hop, Op.isBinary, Op.isCast] at hty
  have hlen : (f.value v).args.length = 1 := by
    have := congrArg List.length hty
    simpa [argTypes] using this
  obtain ⟨o, ho⟩ := List.length_eq_one_iff.mp hlen
  obtain ⟨w, rfl⟩ := (h.before hb hv (by simp [hop]) (by simp [hop])
    (show o ∈ (f.value v).args by simp [ho])).isValue
  exact ⟨w, ho⟩

theorem Ssa.store_args (h : f.Ssa) (hb : b ∈ f.layout) (hv : v ∈ (f.block b).values)
    (hop : (f.value v).op = .store) :
    ∃ w a, (f.value v).args = [.value w, .value a] := by
  have hty := h.typed hb hv (by simp [hop])
  simp only [WellTyped, hop, Op.isBinary, Op.isCast] at hty
  obtain ⟨_, t, hty⟩ := hty
  have hlen : (f.value v).args.length = 2 := by
    have := congrArg List.length hty
    simpa [argTypes] using this
  obtain ⟨o, p, ho⟩ := List.length_eq_two.mp hlen
  have hval := fun q hq => (h.before (o := q) hb hv (by simp [hop]) (by simp [hop]) hq).isValue
  obtain ⟨w, rfl⟩ := hval o (by simp [ho])
  obtain ⟨a, rfl⟩ := hval p (by simp [ho])
  exact ⟨w, a, ho⟩

/-- What a slot that can be promoted is used for. -/
structure Slot (f : Func) (slot : ValueId) (t : Ty) : Prop where
  uses : ∀ b ∈ f.layout, ∀ v ∈ (f.block b).values, .value slot ∈ (f.value v).args →
    (f.Reads slot v ∧ (f.value v).volatile = false ∧ (f.value v).type = t) ∨
      ∃ w, w ≠ slot ∧ f.Writes slot v w ∧ (f.value v).volatile = false ∧ (f.value w).type = t
  control : ∀ b ∈ f.layout, (f.block b).control ≠ .value slot
  size : (t.size : Int) ≤ (f.value slot).aux.toInt

/-- All that the operands of a value say of the slot's type is that it is `found`. -/
def Agrees (f : Func) (slot : ValueId) (v : Value) (l : List (Operand × Nat)) (found : Option Ty) :
    Prop :=
  ∀ x ∈ l, x.1 = .value slot → ∃ t, f.slotUse slot v x.2 = .ok (some t) ∧ found = some t

theorem Agrees.cons {y : Value} {l : List (Operand × Nat)} {found : Option Ty} {i : Nat}
    (huse : o = .value slot → ∃ t, f.slotUse slot y i = .ok (some t) ∧ found = some t)
    (h : f.Agrees slot y l found) : f.Agrees slot y ((o, i) :: l) found :=
  List.forall_mem_cons.mpr ⟨huse, h⟩

theorem slotUses_spec (slot : ValueId) {y : Value} {l : List (Operand × Nat)} (found : Option Ty)
    (hl : ∀ x ∈ l, ∃ r, f.slotUse slot y x.2 = .ok r) :
    ∃ r, f.slotUses slot y l found = .ok r ∧ ∀ found', r = some found' →
      (∀ t, found = some t → found' = some t) ∧ f.Agrees slot y l found' := by
  induction l generalizing found with
  | nil =>
    refine ⟨some found, rfl, fun found' h => ?_⟩
    obtain rfl := Option.some.inj h
    exact ⟨fun _ h => h, by simp [Agrees]⟩
  | cons x l ih =>
    obtain ⟨o, i⟩ := x
    have hl' : ∀ x ∈ l, ∃ r, f.slotUse slot y x.2 = .ok r :=
      fun x hx => hl x (List.mem_cons_of_mem _ hx)
    by_cases ho : o = .value slot
    · obtain ⟨r, hr⟩ : ∃ r, f.slotUse slot y i = .ok r := hl (o, i) List.mem_cons_self
      simp only [slotUses, ho, ne_eq, not_true_eq_false, if_false, hr, Outcome.ok_bind]
      cases r with
      | none => exact ⟨none, rfl, fun _ h => by cases h⟩
      | some t =>
        obtain ⟨r, hrest, hspec⟩ := ih (some t) hl'
        have hcons : ∀ found', r = some found' →
            found' = some t ∧ f.Agrees slot y ((.value slot, i) :: l) found' := fun found' h => by
          obtain ⟨hmono, hagree⟩ := hspec found' h
          exact ⟨hmono t rfl, .cons (fun _ => ⟨t, hr, hmono t rfl⟩) hagree⟩
        cases found with
        | none => exact ⟨r, hrest, fun found' h => ⟨fun _ h => (by cases h), (hcons found' h).2⟩⟩
        | some t' =>
          simp only
          split
          · next heq =>
            subst heq
            refine ⟨r, hrest, fun found' h => ⟨fun s hs => ?_, (hcons found' h).2⟩⟩
            exact hs ▸ (hcons found' h).1
          · exact ⟨none, rfl, fun _ h => by cases h⟩
    · obtain ⟨r, hr, hspec⟩ := ih found hl'
      refine ⟨r, by simp only [slotUses, ne_eq, ho, not_false_eq_true, if_true, hr],
        fun found' h => ?_⟩
      obtain ⟨hmono, hrest⟩ := hspec found' h
      exact ⟨hmono, .cons (fun heq => absurd heq ho) hrest⟩

theorem Agrees.mono {y : Value} {l : List (Operand × Nat)} {found found' : Option Ty}
    (h : f.Agrees slot y l found) (hmono : ∀ t, found = some t → found' = some t) :
    f.Agrees slot y l found' := by
  intro x hx ho
  obtain ⟨t, ht, hf⟩ := h x hx ho
  exact ⟨t, ht, hmono t hf⟩

theorem slotUse_ok (h : f.Ssa) (hb : b ∈ f.layout) (hv : v ∈ (f.block b).values) (i : Nat) :
    ∃ r, f.slotUse slot (f.value v) i = .ok r := by
  unfold slotUse
  split
  · exact ⟨_, rfl⟩
  · split
    · next hs =>
      obtain ⟨w, a, hargs⟩ := h.store_args hb hv hs.1
      exact ⟨_, by rw [argument_eq (v := w) (by rw [hargs]; rfl)]; rfl⟩
    · exact ⟨_, rfl⟩

/-- What agreeing operands say. -/
theorem Agrees.use (h : f.Agrees slot (f.value v) (f.value v).args.zipIdx (some t)) (hf : f.Ssa)
    (hb : b ∈ f.layout) (hv : v ∈ (f.block b).values) (hmem : .value slot ∈ (f.value v).args) :
    (f.Reads slot v ∧ (f.value v).volatile = false ∧ (f.value v).type = t) ∨
      ∃ w, w ≠ slot ∧ f.Writes slot v w ∧ (f.value v).volatile = false ∧ (f.value w).type = t := by
  obtain ⟨i, hi⟩ := List.getElem?_of_mem hmem
  have hzip : (.value slot, i) ∈ (f.value v).args.zipIdx := by
    rw [List.mem_zipIdx_iff_getElem?]
    exact hi
  obtain ⟨t', huse, ht⟩ := h _ hzip rfl
  obtain rfl := Option.some.inj ht
  unfold slotUse at huse
  split at huse
  · next hload =>
    obtain ⟨w, hargs⟩ := hf.load_args hb hv hload.1
    have hw : slot = w := by simpa [hargs] using hmem
    refine .inl ⟨⟨hload.1, by rw [hargs, hw]⟩, by simpa using hload.2, ?_⟩
    simpa using huse
  · split at huse
    · next hstore =>
      obtain ⟨hop, hvol, rfl, hhead⟩ := hstore
      obtain ⟨w, a, hargs⟩ := hf.store_args hb hv hop
      have ha : a = slot := by simpa [hargs] using hi
      subst ha
      have hw : w ≠ a := by
        rintro rfl
        exact hhead (by simp [hargs])
      refine .inr ⟨w, hw, ⟨hop, hargs⟩, by simpa using hvol, ?_⟩
      rw [argument_eq (v := w) (by rw [hargs]; rfl)] at huse
      simpa using huse
    · cases huse

/-- What `promotable?` does with one value. -/
def slotUsesAt (f : Func) (slot : ValueId) (found : Option (Option Ty)) (x : ValueId × Value) :
    Outcome (Option (Option Ty)) :=
  match found with
  | none => .ok none
  | some t => f.slotUses slot x.2 x.2.args.zipIdx t

/-- What `promotable?` does with one block. -/
def slotUsesIn (f : Func) (slot : ValueId) (found : Option (Option Ty)) (b : BlockId) :
    Outcome (Option (Option Ty)) :=
  match found with
  | none => .ok none
  | some _ => if (f.block b).control = .value slot then .ok none
    else (f.valuesOf b).foldlM (slotUsesAt f slot) found

theorem slotUsesIn_spec (slot : ValueId) (h : f.Ssa) (hb : b ∈ f.layout) (found : Option (Option Ty)) :
    ∃ r, slotUsesIn f slot found b = .ok r ∧ ∀ found', r = some found' →
      (∃ t, found = some t ∧ ∀ s, t = some s → found' = some s) ∧
        (f.block b).control ≠ .value slot ∧ ∀ v ∈ (f.block b).values,
          f.Agrees slot (f.value v) (f.value v).args.zipIdx found' := by
  unfold slotUsesIn
  cases found with
  | none => exact ⟨none, rfl, fun _ h => by cases h⟩
  | some t =>
    simp only
    split
    · exact ⟨none, rfl, fun _ h => by cases h⟩
    · next hctl =>
      have hrun := Outcome.foldlM_keeps_done (b := some t) (l := f.valuesOf b)
        (g := slotUsesAt f slot) (P := fun before r => ∀ found', r = some found' →
          (∀ s, t = some s → found' = some s) ∧ ∀ x ∈ before,
            f.Agrees slot x.2 x.2.args.zipIdx found') ?_ ?_
      · obtain ⟨r, hr, hspec⟩ := hrun
        refine ⟨r, hr, fun found' h => ?_⟩
        obtain ⟨hmono, hall⟩ := hspec found' h
        exact ⟨⟨t, rfl, hmono⟩, hctl, fun v hv =>
          hall (v, f.value v) (List.mem_map.mpr ⟨v, hv, rfl⟩)⟩
      · intro before x after r hsplit hP
        cases r with
        | none => exact ⟨none, rfl, fun _ h => by cases h⟩
        | some s =>
          have hx : x ∈ f.valuesOf b := by simp [hsplit]
          obtain ⟨v, hv, rfl⟩ := List.mem_map.mp hx
          obtain ⟨r, hr, hspec⟩ := slotUses_spec slot s
            (l := (f.value v).args.zipIdx) fun y _ => slotUse_ok h hb hv y.2
          refine ⟨r, hr, fun found' hf => ?_⟩
          obtain ⟨hmono, hagree⟩ := hspec found' hf
          obtain ⟨hmono', hall⟩ := hP s rfl
          refine ⟨fun z hz => hmono z (hmono' z hz), fun y hy => ?_⟩
          rcases List.mem_append.mp hy with hy | hy
          · exact (hall y hy).mono hmono
          · obtain rfl := List.mem_singleton.mp hy
            exact hagree
      · intro found' h
        obtain rfl := Option.some.inj h
        exact ⟨fun _ h => h, by simp⟩

theorem promotable_eq : f.promotable? slot = f.layout.foldlM (slotUsesIn f slot) (some none) >>=
    fun found => match found with
      | some (some t) => .ok (if (f.value slot).aux.toInt < t.size then none else some t)
      | _ => .ok none := rfl

theorem promotable_spec (h : f.Ssa) :
    ∃ r, f.promotable? slot = .ok r ∧ ∀ t, r = some t → f.Slot slot t := by
  rw [promotable_eq]
  have hrun := Outcome.foldlM_keeps_done (b := (some none : Option (Option Ty))) (l := f.layout)
    (g := slotUsesIn f slot) (P := fun before r => ∀ found', r = some found' →
      ∀ b ∈ before, (f.block b).control ≠ .value slot ∧ ∀ v ∈ (f.block b).values,
        f.Agrees slot (f.value v) (f.value v).args.zipIdx found') ?_ (by simp)
  · obtain ⟨r, hr, hspec⟩ := hrun
    rw [hr, Outcome.ok_bind]
    cases r with
    | none => exact ⟨none, rfl, fun _ h => by cases h⟩
    | some r =>
      cases r with
      | none => exact ⟨none, rfl, fun _ h => by cases h⟩
      | some t =>
        refine ⟨_, rfl, fun t' ht' => ?_⟩
        split at ht'
        · cases ht'
        · next hsize =>
          obtain rfl := Option.some.inj ht'
          have hall := hspec (some t) rfl
          exact ⟨fun b hb v hv hmem => ((hall b hb).2 v hv).use h hb hv hmem,
            fun b hb => (hall b hb).1, by omega⟩
  · intro before b after r hsplit hP
    obtain ⟨r', hr', hspec⟩ := slotUsesIn_spec slot h
      (show b ∈ f.layout by simp [hsplit]) r
    refine ⟨r', hr', fun found' hf c hc => ?_⟩
    obtain ⟨⟨t, ht, hmono⟩, hctl, hagree⟩ := hspec found' hf
    rcases List.mem_append.mp hc with hc | hc
    · obtain ⟨hctl', hagree'⟩ := hP t ht c hc
      exact ⟨hctl', fun v hv => (hagree' v hv).mono hmono⟩
    · obtain rfl := List.mem_singleton.mp hc
      exact ⟨hctl, hagree⟩

/-! ## Blocks that write -/

theorem writesSlot_spec (slot : ValueId) (h : f.Ssa) (hb : b ∈ f.layout) (hv : v ∈ (f.block b).values) :
    ∃ r, writesSlot slot (f.value v) = .ok r ∧ (r = true ↔ ∃ w, f.Writes slot v w) := by
  unfold writesSlot Writes
  by_cases hop : (f.value v).op = .store
  · obtain ⟨w, a, hargs⟩ := h.store_args hb hv hop
    refine ⟨a == slot, by simp [hop, hargs, Outcome.at?], ?_⟩
    simp [hop, hargs]
  · exact ⟨false, by simp [hop], by simp [hop]⟩

theorem filterAuxM_ok {α : Type} {q : α → Outcome Bool} {r : α → Bool} {l : List α}
    (h : ∀ x ∈ l, q x = .ok (r x)) (acc : List α) :
    l.filterAuxM q acc = .ok ((l.filter r).reverse ++ acc) := by
  induction l generalizing acc with
  | nil => rfl
  | cons x l ih =>
    rw [List.filterAuxM, h x List.mem_cons_self, Outcome.ok_bind,
      ih fun y hy => h y (List.mem_cons_of_mem _ hy)]
    cases hr : r x <;> simp [hr]

theorem filterM_ok {α : Type} {q : α → Outcome Bool} {r : α → Bool} {l : List α}
    (h : ∀ x ∈ l, q x = .ok (r x)) : l.filterM q = .ok (l.filter r) := by
  rw [List.filterM, filterAuxM_ok h]
  simp

/-- Some value of the block writes the slot. -/
def WritesIn (f : Func) (slot : ValueId) (b : BlockId) : Prop :=
  ∃ v ∈ (f.block b).values, ∃ w, f.Writes slot v w

theorem writesIn_spec (slot : ValueId) (h : f.Ssa) (hb : b ∈ f.layout) :
    ∃ r, (f.valuesOf b).foldlM (fun found (x : ValueId × Value) =>
        (writesSlot slot x.2 >>= fun y => .ok (found || y) : Outcome Bool)) false = .ok r ∧
      (r = true ↔ f.WritesIn slot b) := by
  have hrun := Outcome.foldlM_keeps_done (b := false) (l := f.valuesOf b)
    (g := fun found (x : ValueId × Value) =>
      (writesSlot slot x.2 >>= fun y => .ok (found || y) : Outcome Bool))
    (P := fun before r => (r = true ↔ ∃ x ∈ before, ∃ w, f.Writes slot x.1 w)) ?_ (by simp)
  · obtain ⟨r, hr, hspec⟩ := hrun
    refine ⟨r, hr, hspec.trans ⟨?_, ?_⟩⟩
    · rintro ⟨x, hx, hw⟩
      obtain ⟨v, hv, rfl⟩ := List.mem_map.mp hx
      exact ⟨v, hv, hw⟩
    · rintro ⟨v, hv, hw⟩
      exact ⟨(v, f.value v), List.mem_map.mpr ⟨v, hv, rfl⟩, hw⟩
  · intro before x after r hsplit hP
    have hx : x ∈ f.valuesOf b := by simp [hsplit]
    obtain ⟨v, hv, rfl⟩ := List.mem_map.mp hx
    obtain ⟨y, hy, hspec⟩ := writesSlot_spec slot h hb hv
    refine ⟨r || y, by simp [hy], ?_⟩
    rw [Bool.or_eq_true, hP, hspec]
    simp [or_and_right, exists_or]

theorem writingBlocks_spec (h : f.Ssa) : ∃ defs, f.writingBlocks slot = .ok defs ∧ defs.Nodup ∧
    ∀ b, b ∈ defs ↔ b ∈ f.layout ∧ f.WritesIn slot b := by
  classical
  have heq : f.writingBlocks slot = f.layout.filterM fun b =>
      (f.valuesOf b).foldlM (fun found (x : ValueId × Value) =>
        (writesSlot slot x.2 >>= fun y => .ok (found || y) : Outcome Bool)) false := rfl
  refine ⟨f.layout.filter fun b => decide (f.WritesIn slot b), ?_,
    h.flow.layout_nodup.filter _, fun b => by simp⟩
  rw [heq]
  refine filterM_ok fun b hb => ?_
  obtain ⟨r, hr, hspec⟩ := writesIn_spec slot h hb
  rw [hr]
  exact congrArg _ (Bool.eq_iff_iff.mpr (by simpa using hspec))

/-! ## Phis at frontiers -/

/-- A phi without arguments yet, for `n` predecessors. -/
def openPhi (t : Ty) (n : Nat) : Value :=
  { op := .phi, type := t, args := .replicate n .missing }

/-- `g` is `f` with a phi that has no arguments yet in each of the blocks listed. -/
structure Placed (f g : Func) (t : Ty) (phis : PlacedPhis) : Prop where
  graph : SameGraph f g
  ret : g.ret = f.ret
  ends : ∀ b, (g.block b).kind = (f.block b).kind ∧ (g.block b).control = (f.block b).control
  numValues : f.numValues ≤ g.numValues
  values : ∀ b, (g.block b).values = (phis.lookup b).toList ++ (f.block b).values
  old : ∀ v < f.numValues, g.value v = f.value v
  new : ∀ b x, phis.lookup b = some x → f.numValues ≤ x ∧ x < g.numValues ∧
    g.value x = { openPhi t (f.block b).preds.length with block := some b }
  only : ∀ v < g.numValues, v < f.numValues ∨ ∃ b, phis.lookup b = some v
  keys : (phis.map Prod.fst).Nodup
  mem : ∀ b x, phis.lookup b = some x → b ∈ f.layout ∧ b ≠ f.start

theorem Placed.refl (f : Func) (t : Ty) : Placed f f t [] :=
  ⟨.refl f, rfl, fun _ => ⟨rfl, rfl⟩, Nat.le_refl _, fun _ => rfl, fun _ _ => rfl,
    fun _ _ h => (by cases h), fun _ hv => .inl hv, .nil, fun _ _ h => (by cases h)⟩

theorem lookup_placed {phis : PlacedPhis} : ((d, x) :: phis).lookup c =
    if c = d then some x else phis.lookup c := by
  by_cases hcd : c = d
  · simp [hcd]
  · rw [if_neg hcd, List.lookup_cons, beq_eq_false_iff_ne.mpr hcd]

theorem Placed.place {phis : PlacedPhis} (h : Placed f g t phis) (hf : f.Flow)
    (hd : d ∈ f.layout) (hde : d ≠ f.start) (hnone : phis.lookup d = none) :
    Placed f (g.inserted d 0 (openPhi t (f.block d).preds.length)) t
      ((d, g.numValues) :: phis) := by
  have hlt : d < g.numBlocks := by
    rw [h.graph.numBlocks]
    exact hf.lt d hd
  have hmem : ∀ c x, ((d, g.numValues) :: phis).lookup c = some x →
      (c = d ∧ x = g.numValues) ∨ (c ≠ d ∧ phis.lookup c = some x) := by
    intro c x hx
    rw [lookup_placed] at hx
    split at hx
    · next heq => exact .inl ⟨heq, (Option.some.inj hx).symm⟩
    · next hne => exact .inr ⟨hne, hx⟩
  exact {
    graph := h.graph.trans (sameGraph_inserted hlt)
    ret := h.ret
    ends c := by
      rw [block_inserted hlt]
      split
      · next heq => rw [heq]; exact h.ends d
      · exact h.ends c
    numValues := by
      rw [numValues_inserted]
      exact Nat.le_succ_of_le h.numValues
    values c := by
      rw [block_inserted hlt, lookup_placed]
      split
      · next heq =>
        rw [heq, h.values d, hnone]
        rfl
      · exact h.values c
    old v hv := by
      rw [value_inserted, if_neg (Nat.ne_of_lt (Nat.lt_of_lt_of_le hv h.numValues))]
      exact h.old v hv
    new c x hx := by
      rw [numValues_inserted, value_inserted]
      obtain ⟨rfl, rfl⟩ | ⟨-, hx⟩ := hmem c x hx
      · rw [if_pos rfl]
        exact ⟨h.numValues, Nat.lt_succ_self _, rfl⟩
      · obtain ⟨hge, hlt, hval⟩ := h.new c x hx
        rw [if_neg (Nat.ne_of_lt hlt)]
        exact ⟨hge, Nat.lt_succ_of_lt hlt, hval⟩
    only v hv := by
      rw [numValues_inserted] at hv
      rcases Nat.lt_succ_iff_lt_or_eq.mp hv with hv | rfl
      · refine (h.only v hv).imp_right fun ⟨c, hc⟩ => ⟨c, ?_⟩
        have hcd : c ≠ d := by
          rintro rfl
          simp [hnone] at hc
        rw [lookup_placed, if_neg hcd, hc]
      · exact .inr ⟨d, by rw [lookup_placed, if_pos rfl]⟩
    keys := by
      rw [List.map_cons, List.nodup_cons]
      refine ⟨fun hm => ?_, h.keys⟩
      obtain ⟨y, hy, hyd⟩ := List.mem_map.mp hm
      have hne := List.lookup_eq_none_iff.mp hnone y hy
      simp [hyd] at hne
    mem c x hx := by
      obtain ⟨rfl, -⟩ | ⟨-, hx⟩ := hmem c x hx
      · exact ⟨hd, hde⟩
      · exact h.mem c x hx }

/-- How far placing phis is: `settled` are the blocks whose frontiers are done. -/
structure Placing (f : Func) (t : Ty) (seeds settled : List BlockId) (g : Func) (phis : PlacedPhis)
    (defs work : List BlockId) : Prop where
  placed : Placed f g t phis
  nodup : (settled ++ work).Nodup
  defined : ∀ b, b ∈ defs ↔ b ∈ settled ++ work
  seeded : ∀ b ∈ seeds, b ∈ defs
  inside : ∀ b ∈ defs, b ∈ f.layout
  phiDefs : ∀ b x, phis.lookup b = some x → b ∈ defs

/-- What `placePhis` does with one block of a frontier. -/
def placeAt (t : Ty) (entry : BlockId) (s : Func × PlacedPhis × List BlockId × List BlockId)
    (d : BlockId) : Outcome (Func × PlacedPhis × List BlockId × List BlockId) :=
  if (s.2.1.lookup d).isSome || d = entry then .ok s
  else s.1.insertValue d 0 (openPhi t (s.1.block d).preds.length) >>= fun y =>
    if s.2.2.1.contains d then .ok (y.1, (d, y.2) :: s.2.1, s.2.2.1, s.2.2.2)
    else .ok (y.1, (d, y.2) :: s.2.1, d :: s.2.2.1, d :: s.2.2.2)

theorem placePhis_succ {df : Array (List BlockId)} {fuel : Nat} {phis : PlacedPhis}
    {defs work : List BlockId} : placePhis t e df (fuel + 1) f phis defs (b :: work) =
      (df.getD b []).foldlM (placeAt t e) (f, phis, defs, work) >>= fun s =>
        placePhis t e df fuel s.1 s.2.1 s.2.2.1 s.2.2.2 := rfl

variable {df : Array (List BlockId)} {seeds settled defs work : List BlockId} {phis : PlacedPhis}

theorem Placing.placeAt (h : Placing f t seeds settled g phis defs work) (hf : f.Flow)
    (hd : d ∈ f.layout) : ∃ g' phis' defs' work',
      placeAt t f.start (g, phis, defs, work) d = .ok (g', phis', defs', work') ∧
        Placing f t seeds settled g' phis' defs' work' ∧
        (∀ c, (phis.lookup c).isSome → (phis'.lookup c).isSome) ∧
        (d ≠ f.start → (phis'.lookup d).isSome) := by
  unfold Func.placeAt
  by_cases hskip : (phis.lookup d).isSome ∨ d = f.start
  · refine ⟨g, phis, defs, work, by rw [if_pos (by simpa using hskip)], h, fun _ hc => hc,
      fun hde => hskip.resolve_right hde⟩
  · rw [not_or, Option.not_isSome_iff_eq_none] at hskip
    obtain ⟨hnone, hde⟩ := hskip
    have hplaced := h.placed.place hf hd hde hnone
    have hins := insertValue_eq (f := g) (b := d) (i := 0)
      (x := openPhi t (g.block d).preds.length) (Nat.zero_le _)
    have hpreds : (g.block d).preds = (f.block d).preds := h.placed.graph.preds d
    rw [if_neg (by simp [hnone, hde])]
    rw [show g.insertValue d 0 _ = _ from hins, Outcome.ok_bind, hpreds]
    have hself : (((d, g.numValues) :: phis).lookup d).isSome := by simp
    have hlook : ∀ c, (phis.lookup c).isSome → (((d, g.numValues) :: phis).lookup c).isSome := by
      intro c hc
      rw [lookup_placed]
      split
      · rfl
      · exact hc
    have hphiDefs : ∀ {l : List BlockId}, (∀ c ∈ defs, c ∈ l) → d ∈ l →
        ∀ c x, ((d, g.numValues) :: phis).lookup c = some x → c ∈ l := by
      intro l hsub hdl c x hx
      rw [lookup_placed] at hx
      split at hx
      · next heq => exact heq ▸ hdl
      · exact hsub c (h.phiDefs c x hx)
    by_cases hdef : d ∈ defs
    · exact ⟨_, _, _, _, by rw [if_pos (by simpa using hdef)],
        ⟨hplaced, h.nodup, h.defined, h.seeded, h.inside, hphiDefs (fun _ hc => hc) hdef⟩, hlook,
        fun _ => hself⟩
    · refine ⟨_, _, _, _, by rw [if_neg (by simpa using hdef)],
        ⟨hplaced, ?_, fun c => ?_, fun c hc => List.mem_cons_of_mem _ (h.seeded c hc),
          List.forall_mem_cons.mpr ⟨hd, h.inside⟩,
          hphiDefs (fun _ => List.mem_cons_of_mem _) List.mem_cons_self⟩, hlook, fun _ => hself⟩
      · rw [List.nodup_middle, List.nodup_cons]
        exact ⟨fun hm => hdef ((h.defined d).mpr hm), h.nodup⟩
      · rw [List.mem_cons, h.defined, List.mem_append, List.mem_append, List.mem_cons]
        exact or_left_comm

/-- The frontiers of the blocks listed have their phis. -/
def Served (f : Func) (df : Array (List BlockId)) (l : List BlockId) (phis : PlacedPhis) : Prop :=
  ∀ b ∈ l, ∀ d ∈ df.getD b [], d ≠ f.start → (phis.lookup d).isSome

theorem Placing.length_le (h : Placing f t seeds settled g phis defs work) (hf : f.Flow) :
    settled.length + work.length ≤ f.numBlocks := by
  have hsub : settled ++ work ⊆ List.range f.numBlocks := fun b hb =>
    List.mem_range.mpr (hf.lt b (h.inside b ((h.defined b).mpr hb)))
  simpa using (List.subperm_of_subset h.nodup hsub).length_le

theorem placePhis_spec (hf : f.Flow) (hdf : ∀ b, ∀ d ∈ df.getD b [], d ∈ f.layout) (fuel : Nat) :
    ∀ g phis defs work settled, Placing f t seeds settled g phis defs work →
      Served f df settled phis → f.numBlocks < fuel + settled.length →
      ∃ g' phis' defs', placePhis t f.start df fuel g phis defs work = .ok (g', phis') ∧
        Placed f g' t phis' ∧ (∀ b ∈ seeds, b ∈ defs') ∧
        (∀ b x, phis'.lookup b = some x → b ∈ defs') ∧ Served f df defs' phis' := by
  induction fuel with
  | zero =>
    intro g phis defs work settled h _ hfuel
    have := h.length_le hf
    omega
  | succ fuel ih =>
    intro g phis defs work settled h hserved hfuel
    cases work with
    | nil =>
      refine ⟨g, phis, defs, rfl, h.placed, h.seeded, h.phiDefs, fun b hb => hserved b ?_⟩
      simpa using (h.defined b).mp hb
    | cons b work =>
      rw [placePhis_succ]
      have hb : b ∈ f.layout := h.inside b ((h.defined b).mpr (by simp))
      have hstart : Placing f t seeds (b :: settled) g phis defs work :=
        ⟨h.placed, by simpa [List.nodup_middle] using h.nodup, fun c => by
          rw [h.defined]
          simp [or_left_comm], h.seeded, h.inside, h.phiDefs⟩
      have hrun := Outcome.foldlM_keeps_done (b := (g, phis, defs, work)) (l := df.getD b [])
        (g := Func.placeAt t f.start) (P := fun before s =>
          Placing f t seeds (b :: settled) s.1 s.2.1 s.2.2.1 s.2.2.2 ∧
            (∀ c, (phis.lookup c).isSome → (s.2.1.lookup c).isSome) ∧
            ∀ d ∈ before, d ≠ f.start → (s.2.1.lookup d).isSome)
        ?_ ⟨hstart, fun _ hc => hc, by simp⟩
      · obtain ⟨⟨g', phis', defs', work'⟩, hrun, hplacing, hmono, hall⟩ := hrun
        rw [hrun, Outcome.ok_bind]
        refine ih g' phis' defs' work' (b :: settled) hplacing (fun c hc d hd hde => ?_)
          (by simp only [List.length_cons]; omega)
        rcases List.mem_cons.mp hc with rfl | hc
        · exact hall d hd hde
        · exact hmono d (hserved c hc d hd hde)
      · rintro before d after ⟨g', phis', defs', work'⟩ hsplit ⟨hplacing, hmono, hall⟩
        obtain ⟨g₂, phis₂, defs₂, work₂, hat, hplacing₂, hmono₂, hd⟩ :=
          hplacing.placeAt hf (hdf b d (by simp [hsplit]))
        refine ⟨_, hat, hplacing₂, fun c hc => hmono₂ c (hmono c hc), fun c hc hce => ?_⟩
        rcases List.mem_append.mp hc with hc | hc
        · exact hmono₂ c (hall c hc hce)
        · obtain rfl := List.mem_singleton.mp hc
          exact hd hce

end SsaJit.Func
