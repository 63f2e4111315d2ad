import SsaJit.Proofs.Build.Draft

/-! The edits that construction is made of: an instruction at the end of a block, stack space in the
entry and a new block. Each makes a draft from a draft and leaves what was there within what is there
now. -/

namespace SsaJit.Func

variable {f g k : Func} {b c d : BlockId} {u v w a : ValueId} {o : Operand} {x : Value}

/-- One function is a later stage of another: what was built stays, and a block that was given its end
is left alone. -/
structure GrowsTo (f g : Func) : Prop where
  numValues : f.numValues ≤ g.numValues
  value : ∀ v < f.numValues, g.value v = f.value v
  numBlocks : f.numBlocks ≤ g.numBlocks
  params : g.paramValues = f.paramValues
  ret : g.ret = f.ret
  grown : ∀ b, f.body b <+: g.body b
  ended : ∀ b, (f.block b).kind ≠ .pending → g.body b = f.body b ∧
    (g.block b).kind = (f.block b).kind ∧ (g.block b).control = (f.block b).control ∧
    (g.block b).succs = (f.block b).succs

namespace GrowsTo

theorem refl (f : Func) : GrowsTo f f :=
  ⟨Nat.le_refl _, fun _ _ => rfl, Nat.le_refl _, rfl, rfl, fun _ => List.prefix_rfl,
    fun _ _ => ⟨rfl, rfl, rfl, rfl⟩⟩

theorem trans (h₁ : GrowsTo f g) (h₂ : GrowsTo g k) : GrowsTo f k where
  numValues := h₁.numValues.trans h₂.numValues
  value v hv := (h₂.value v (hv.trans_le h₁.numValues)).trans (h₁.value v hv)
  numBlocks := h₁.numBlocks.trans h₂.numBlocks
  params := h₂.params.trans h₁.params
  ret := h₂.ret.trans h₁.ret
  grown b := (h₁.grown b).trans (h₂.grown b)
  ended b hb := by
    obtain ⟨hbody, hkind, hcontrol, hsuccs⟩ := h₁.ended b hb
    obtain ⟨hbody', hkind', hcontrol', hsuccs'⟩ := h₂.ended b (by rwa [hkind])
    exact ⟨hbody'.trans hbody, hkind'.trans hkind, hcontrol'.trans hcontrol,
      hsuccs'.trans hsuccs⟩

/-- A value keeps its place. -/
theorem mem_values (h : GrowsTo f g) (hf : f.Draft) (hg : g.Draft) (hv : v ∈ (f.block b).values) :
    v ∈ (g.block b).values := by
  rw [← hg.listed, h.value v (hf.value_lt hv), hf.listed]
  exact hv

theorem isHead (h : GrowsTo f g) (hv : v < f.numValues) : g.isHead v = f.isHead v := by
  rw [Func.isHead, Func.isHead, h.value v hv]

theorem mem_heads (h : GrowsTo f g) (hf : f.Draft) (hg : g.Draft) (hv : v ∈ f.heads b) :
    v ∈ g.heads b := by
  obtain ⟨hin, hhead⟩ := Draft.mem_heads.mp hv
  exact Draft.mem_heads.mpr ⟨h.mem_values hf hg hin, by rw [h.isHead (hf.value_lt hin), hhead]⟩

theorem usable (h : GrowsTo f g) (hf : f.Draft) (hg : g.Draft) (ha : f.Usable b a) :
    g.Usable b a := by
  have hlt : a < f.numValues := by
    rcases ha.place with hhead | hin
    · exact hf.value_lt (Draft.mem_heads.mp hhead).1
    · exact hf.value_lt hin
  refine ⟨by rw [h.value a hlt]; exact ha.store, ?_⟩
  exact ha.place.imp (h.mem_heads hf hg) (h.mem_values hf hg)

end GrowsTo

/-! ## More values -/

/-- Values were added to the table and to the blocks' lists, in front of others or behind them. -/
structure Widens (f g : Func) : Prop where
  value : ∀ v < f.numValues, g.value v = f.value v
  values : ∀ b, (f.block b).values.Sublist (g.block b).values
  ret : g.ret = f.ret

namespace Widens

theorem isHead (h : Widens f g) (hv : v < f.numValues) : g.isHead v = f.isHead v := by
  rw [Func.isHead, Func.isHead, h.value v hv]

theorem mem_heads (h : Widens f g) (hf : f.Draft) (hv : v ∈ f.heads b) : v ∈ g.heads b := by
  obtain ⟨hin, hhead⟩ := Draft.mem_heads.mp hv
  exact Draft.mem_heads.mpr ⟨(h.values b).subset hin, by rw [h.isHead (hf.value_lt hin), hhead]⟩

theorem usable_lt (hf : f.Draft) (ha : f.Usable b a) : a < f.numValues := by
  rcases ha.place with hhead | hin
  · exact hf.value_lt (Draft.mem_heads.mp hhead).1
  · exact hf.value_lt hin

theorem usable (h : Widens f g) (hf : f.Draft) (ha : f.Usable b a) : g.Usable b a :=
  ⟨by rw [h.value a (usable_lt hf ha)]; exact ha.store,
    ha.place.imp (h.mem_heads hf) fun hin => (h.values b).subset hin⟩

theorem inOrder (h : Widens f g) (hf : f.Draft) (hv : v ∈ (f.block b).values) :
    g.InOrder b v := by
  have hin := hf.values b v hv
  have hval := h.value v (hf.value_lt hv)
  have harg : ∀ a, a ∈ f.heads 0 ∨ [a, v].Sublist (f.block b).values → a < f.numValues := by
    rintro a (ha | ha)
    · exact hf.value_lt (Draft.mem_heads.mp ha).1
    · exact hf.value_lt (ha.subset (by simp : a ∈ [a, v]))
  refine ⟨by rw [hval]; exact hin.phi, fun hhead => ?_, fun o ho => ?_, ?_⟩
  · rw [h.isHead (hf.value_lt hv)] at hhead
    rw [hval]
    exact hin.head hhead
  · rw [hval] at ho
    obtain ⟨a, rfl, hstore, ha⟩ := hin.args o ho
    exact ⟨a, rfl, by rw [h.value a (harg a ha)]; exact hstore,
      ha.imp (h.mem_heads hf) fun hsub => hsub.trans (h.values b)⟩
  · have htypes : g.argTypes (f.value v) = f.argTypes (f.value v) := by
      refine List.map_congr_left fun o ho => ?_
      obtain ⟨a, rfl, -, ha⟩ := hin.args o ho
      rw [operandType, operandType, h.value a (harg a ha)]
    rw [hval, htypes]
    exact hin.typed

theorem endInOrder (h : Widens f g) (hf : f.Draft) (hkind : (g.block b).kind = (f.block b).kind)
    (hcontrol : (g.block b).control = (f.block b).control)
    (hsuccs : (g.block b).succs = (f.block b).succs) : g.EndInOrder b := by
  have hend := hf.ends b
  unfold EndInOrder at hend ⊢
  rw [hkind, hcontrol, hsuccs]
  cases hk : (f.block b).kind with
  | pending | unreachable | jump => simpa only [hk] using hend
  | other n => simp only [hk] at hend
  | branch =>
    simp only [hk] at hend ⊢
    obtain ⟨hs, w, hw, huse, hty⟩ := hend
    exact ⟨hs, w, hw, h.usable hf huse, by rw [h.value w (usable_lt hf huse)]; exact hty⟩
  | ret =>
    simp only [hk] at hend ⊢
    refine ⟨hend.1, ?_⟩
    split
    · next hm => simpa [hm, h.ret] using hend.2
    · next hm =>
      obtain ⟨-, hend⟩ := hend
      rw [if_neg hm] at hend
      obtain ⟨hvoid, w, hw, huse, hty⟩ := hend
      rw [h.ret]
      exact ⟨hvoid, w, hw, h.usable hf huse, by rw [h.value w (usable_lt hf huse)]; exact hty⟩

end Widens

/-! ## An instruction at the end of a block -/

/-- An instruction that can be built next in `b`. -/
structure Fresh (f : Func) (b : BlockId) (x : Value) : Prop where
  phi : x.op ≠ .phi
  head : x.op ≠ .param ∧ x.op ≠ .alloca
  args : ∀ o ∈ x.args, ∃ a, o = .value a ∧ f.Usable b a
  typed : WellTyped x (x.args.map f.operandType) (b = 0)

/-- The function with one more value at the end of a block. -/
def appended (f : Func) (b : BlockId) (x : Value) : Func := (f.appendValue b x).1

section appended

@[simp] theorem layout_appended : (f.appended b x).layout = f.layout := rfl
@[simp] theorem ret_appended : (f.appended b x).ret = f.ret := rfl
@[simp] theorem paramValues_appended : (f.appended b x).paramValues = f.paramValues := rfl

@[simp] theorem numValues_appended : (f.appended b x).numValues = f.numValues + 1 := by
  simp [appended, appendValue]

@[simp] theorem numBlocks_appended : (f.appended b x).numBlocks = f.numBlocks := by
  simp [appended, appendValue]

theorem value_appended : (f.appended b x).value w =
    if w = f.numValues then { x with block := some b } else f.value w := by
  simp [appended, appendValue]

theorem value_appended_of_lt (hw : w < f.numValues) : (f.appended b x).value w = f.value w := by
  rw [value_appended, if_neg hw.ne]

theorem block_appended (hb : b < f.numBlocks) : (f.appended b x).block c =
    if c = b then { f.block b with values := (f.block b).values ++ [f.numValues] }
    else f.block c := by
  simp only [appended, appendValue]
  rw [block_modifyBlock (by simpa using hb)]
  simp

/-- A block that only lists other values is the same but for those. -/
theorem fields_relisted {l : List ValueId}
    (h : g.block c = if c = b then { f.block b with values := l } else f.block c) :
    (g.block c).isForeign = (f.block c).isForeign ∧ (g.block c).preds = (f.block c).preds ∧
      (g.block c).kind = (f.block c).kind ∧ (g.block c).succs = (f.block c).succs ∧
      (g.block c).control = (f.block c).control := by
  rw [h]
  split
  · next hc =>
    rw [hc]
    exact ⟨rfl, rfl, rfl, rfl, rfl⟩
  · exact ⟨rfl, rfl, rfl, rfl, rfl⟩

/-- Values that stay are heads or not as before. -/
theorem Draft.isHead_congr (h : f.Draft) (hval : ∀ v < f.numValues, g.value v = f.value v) :
    ∀ v ∈ (f.block c).values, g.isHead v = f.isHead v :=
  fun v hv => by rw [isHead, isHead, hval v (h.value_lt hv)]

theorem isHead_appended (hx : x.op ≠ .param ∧ x.op ≠ .alloca) :
    (f.appended b x).isHead f.numValues = false := by
  simp [isHead, value_appended, hx]

theorem heads_appended (h : f.Draft) (hb : b < f.numBlocks)
    (hx : x.op ≠ .param ∧ x.op ≠ .alloca) : (f.appended b x).heads c = f.heads c := by
  have hold : ∀ v ∈ (f.block c).values, (f.appended b x).isHead v = f.isHead v :=
    h.isHead_congr fun v hv => value_appended_of_lt hv
  rw [heads, heads, block_appended hb]
  split
  · next hc =>
    subst hc
    rw [List.filter_append, List.filter_congr hold]
    simp [isHead_appended hx]
  · exact List.filter_congr hold

theorem body_appended (h : f.Draft) (hb : b < f.numBlocks)
    (hx : x.op ≠ .param ∧ x.op ≠ .alloca) : (f.appended b x).body c =
      if c = b then f.body b ++ [f.numValues] else f.body c := by
  have hold : ∀ v ∈ (f.block c).values, (!(f.appended b x).isHead v) = !f.isHead v :=
    fun v hv => by rw [h.isHead_congr (fun v hv => value_appended_of_lt hv) v hv]
  rw [body, block_appended hb]
  split
  · next hc =>
    subst hc
    rw [List.filter_append, List.filter_congr hold]
    simp [isHead_appended hx, body]
  · exact List.filter_congr hold

theorem widens_appended (hb : b < f.numBlocks) : Widens f (f.appended b x) where
  value v hv := value_appended_of_lt hv
  values c := by
    rw [block_appended hb]
    split
    · next hc =>
      subst hc
      exact List.sublist_append_left _ _
    · exact List.Sublist.refl _
  ret := rfl

end appended

namespace Draft

theorem new_notMem (h : f.Draft) : f.numValues ∉ (f.block b).values :=
  fun hin => Nat.lt_irrefl _ (h.value_lt hin)

/-- The value that is new reads what the block can use. -/
theorem new_inOrder (h : f.Draft) (hb : b < f.numBlocks) (hx : f.Fresh b x) :
    (f.appended b x).InOrder b f.numValues := by
  have hwid := widens_appended (x := x) hb
  have hval : (f.appended b x).value f.numValues = { x with block := some b } := by
    rw [value_appended, if_pos rfl]
  refine ⟨by rw [hval]; exact hx.phi, fun hhead => ?_, fun o ho => ?_, ?_⟩
  · rw [isHead_appended hx.head] at hhead
    cases hhead
  · rw [hval] at ho
    obtain ⟨a, rfl, ha⟩ := hx.args o ho
    refine ⟨a, rfl, (hwid.usable h ha).store, ha.place.imp (hwid.mem_heads h) fun hin => ?_⟩
    rw [block_appended hb, if_pos rfl]
    exact (List.singleton_sublist.mpr hin).append (List.Sublist.refl _)
  · have htypes : (f.appended b x).argTypes { x with block := some b } =
        x.args.map f.operandType := by
      refine List.map_congr_left fun o ho => ?_
      obtain ⟨a, rfl, ha⟩ := hx.args o ho
      rw [operandType, operandType, hwid.value a (Widens.usable_lt h ha)]
    rw [hval, htypes]
    exact hx.typed

theorem appended (h : f.Draft) (hb : b < f.numBlocks) (hx : f.Fresh b x) :
    (f.appended b x).Draft where
  layout := by simpa using h.layout
  pos := by simpa using h.pos
  own c := (fields_relisted (block_appended hb)).1.trans (h.own c)
  succs c := by
    rw [(fields_relisted (block_appended hb)).2.2.2.1, numBlocks_appended]
    exact h.succs c
  edges c d := by
    rw [(fields_relisted (block_appended hb)).2.2.2.1, (fields_relisted (block_appended hb)).2.1, h.edges]
  listed v c := by
    rw [value_appended, block_appended hb]
    split
    · next hv =>
      subst hv
      split
      · next hc => simp [hc]
      · next hc => simpa [Ne.symm hc] using h.new_notMem
    · next hv =>
      split
      · next hc =>
        subst hc
        simpa [hv] using h.listed v c
      · exact h.listed v c
  nodup c := by
    rw [block_appended hb]
    split
    · simpa using (h.nodup b).concat h.new_notMem
    · exact h.nodup c
  split c := by
    rw [heads_appended h hb hx.head, body_appended h hb hx.head, block_appended hb]
    split
    · next hc =>
      subst hc
      rw [← List.append_assoc, ← h.split c]
    · exact h.split c
  values c v hv := by
    by_cases hold : v ∈ (f.block c).values
    · exact (widens_appended hb).inOrder h hold
    obtain ⟨rfl, rfl⟩ : c = b ∧ v = f.numValues := by
      rw [block_appended hb] at hv
      split at hv
      · next hc => exact ⟨hc, by simpa [← hc, hold] using hv⟩
      · exact absurd hv hold
    exact h.new_inOrder hb hx
  ends c := by
    obtain ⟨-, -, hkind, hsuccs, hcontrol⟩ := fields_relisted (c := c) (block_appended (x := x) hb)
    exact (widens_appended hb).endInOrder h hkind hcontrol hsuccs

end Draft

theorem growsTo_appended (h : f.Draft) (hb : b < f.numBlocks)
    (hx : x.op ≠ .param ∧ x.op ≠ .alloca) (hpend : (f.block b).kind = .pending) :
    GrowsTo f (f.appended b x) where
  numValues := by simp
  value v hv := value_appended_of_lt hv
  numBlocks := by simp
  params := rfl
  ret := rfl
  grown c := by
    rw [body_appended h hb hx]
    split
    · next hc =>
      subst hc
      exact List.prefix_append _ _
    · exact List.prefix_rfl
  ended c hc := by
    have hne : c ≠ b := fun heq => hc (heq ▸ hpend)
    rw [body_appended h hb hx, block_appended hb, if_neg hne, if_neg hne]
    exact ⟨rfl, rfl, rfl, rfl⟩

/-! ## Stack space -/

/-- An instruction that can be a new head. -/
structure Space (x : Value) : Prop where
  op : x.op = .alloca
  args : x.args = []
  type : x.type = .ptr
  size : 0 < x.aux.toInt

/-- The function with one more head. -/
def spaced (f : Func) (x : Value) : Func := f.inserted 0 (f.heads 0).length x

section spaced

theorem insertIdx_length_append {α : Type} (l r : List α) (y : α) :
    (l ++ r).insertIdx l.length y = l ++ y :: r := by
  induction l with
  | nil => rfl
  | cons z l ih => simp [ih]

theorem value_spaced_of_lt (hw : w < f.numValues) : (f.spaced x).value w = f.value w := by
  rw [spaced, value_inserted, if_neg hw.ne]

theorem value_spaced_new : (f.spaced x).value f.numValues = { x with block := some 0 } := by
  rw [spaced, value_inserted, if_pos rfl]

theorem block_spaced (h : f.Draft) : (f.spaced x).block c =
    if c = 0 then { f.block 0 with values := f.heads 0 ++ f.numValues :: f.body 0 }
    else f.block c := by
  rw [spaced, block_inserted h.pos, h.split 0, insertIdx_length_append]

theorem isHead_spaced (hx : Space x) : (f.spaced x).isHead f.numValues = true := by
  simp [isHead, value_spaced_new, hx.op]

theorem heads_spaced (h : f.Draft) (hx : Space x) : (f.spaced x).heads c =
    if c = 0 then f.heads 0 ++ [f.numValues] else f.heads c := by
  have hold : ∀ c, ∀ v ∈ (f.block c).values, (f.spaced x).isHead v = f.isHead v :=
    fun c => h.isHead_congr fun v hv => value_spaced_of_lt hv
  rw [heads, block_spaced h]
  split
  · next hc =>
    subst hc
    have hfront : (f.heads 0).filter (f.spaced x).isHead = f.heads 0 := by
      rw [List.filter_eq_self]
      intro v hv
      obtain ⟨hin, hhead⟩ := Draft.mem_heads.mp hv
      rw [hold 0 v hin, hhead]
    have hback : (f.body 0).filter (f.spaced x).isHead = [] := by
      rw [List.filter_eq_nil_iff]
      intro v hv
      obtain ⟨hin, hhead⟩ := Draft.mem_body.mp hv
      rw [hold 0 v hin, hhead]
      decide
    simp only [List.filter_append, hfront, List.filter_cons, isHead_spaced hx, if_true, hback]
  · exact List.filter_congr (hold c)

theorem body_spaced (h : f.Draft) (hx : Space x) : (f.spaced x).body c = f.body c := by
  have hold : ∀ c, ∀ v ∈ (f.block c).values, (f.spaced x).isHead v = f.isHead v :=
    fun c => h.isHead_congr fun v hv => value_spaced_of_lt hv
  rw [body, block_spaced h]
  split
  · next hc =>
    subst hc
    have hnew : [f.numValues].filter (fun v => !(f.spaced x).isHead v) = [] := by
      simp [isHead_spaced hx]
    rw [← List.singleton_append, ← List.append_assoc, List.filter_append, List.filter_append, hnew,
      List.append_nil, ← List.filter_append, ← h.split 0]
    exact List.filter_congr fun v hv => by rw [hold 0 v hv]
  · exact List.filter_congr fun v hv => by rw [hold c v hv]

theorem widens_spaced (h : f.Draft) : Widens f (f.spaced x) where
  value v hv := value_spaced_of_lt hv
  values c := by
    rw [block_spaced h]
    split
    · next hc =>
      subst hc
      rw [h.split 0]
      exact (List.Sublist.refl _).append (List.sublist_cons_self _ _)
    · exact List.Sublist.refl _
  ret := rfl

end spaced

theorem Draft.spaced (h : f.Draft) (hx : Space x) : (f.spaced x).Draft where
  layout := by simpa [Func.spaced] using h.layout
  pos := by simpa [Func.spaced] using h.pos
  own c := (fields_relisted (block_spaced h)).1.trans (h.own c)
  succs c := by
    have hnum : (f.spaced x).numBlocks = f.numBlocks := by simp [Func.spaced]
    rw [(fields_relisted (block_spaced h)).2.2.2.1, hnum]
    exact h.succs c
  edges c d := by
    rw [(fields_relisted (block_spaced h)).2.2.2.1, (fields_relisted (block_spaced h)).2.1, h.edges]
  listed v c := by
    by_cases hv : v = f.numValues
    · subst hv
      rw [value_spaced_new, block_spaced h]
      split
      · next hc => simp [hc]
      · next hc => simpa [Ne.symm hc] using h.new_notMem
    · rw [Func.spaced, value_inserted, if_neg hv, ← Func.spaced, block_spaced h]
      split
      · next hc =>
        subst hc
        rw [h.listed, h.split 0]
        simp [hv]
      · exact h.listed v c
  nodup c := by
    rw [block_spaced h]
    split
    · have hperm : (f.heads 0 ++ f.numValues :: f.body 0).Perm
          (f.numValues :: (f.block 0).values) := by
        rw [h.split 0]
        exact List.perm_middle
      exact hperm.nodup_iff.mpr (List.nodup_cons.mpr ⟨h.new_notMem, h.nodup 0⟩)
    · exact h.nodup c
  split c := by
    rw [heads_spaced h hx, body_spaced h hx, block_spaced h]
    split
    · next hc =>
      subst hc
      simp
    · exact h.split c
  values c v hv := by
    by_cases hold : v ∈ (f.block c).values
    · exact (widens_spaced h).inOrder h hold
    -- the new head
    obtain ⟨rfl, rfl⟩ : c = 0 ∧ v = f.numValues := by
      rw [block_spaced h] at hv
      split at hv
      · next hc =>
        subst hc
        rw [h.split 0, List.mem_append, not_or] at hold
        exact ⟨rfl, by simpa [hold] using hv⟩
      · exact absurd hv hold
    refine ⟨by simp [value_spaced_new, hx.op], fun _ => ⟨rfl, by simp [value_spaced_new, hx.args]⟩,
      fun o ho => ?_, ?_⟩
    · rw [value_spaced_new] at ho
      simp [hx.args] at ho
    · simp [WellTyped, value_spaced_new, hx.op, hx.type, hx.size, Op.isBinary, Op.isCast]
  ends c := by
    obtain ⟨-, -, hkind, hsuccs, hcontrol⟩ := fields_relisted (c := c) (block_spaced (x := x) h)
    exact (widens_spaced h).endInOrder h hkind hcontrol hsuccs

theorem growsTo_spaced (h : f.Draft) (hx : Space x) : GrowsTo f (f.spaced x) where
  numValues := by simp [spaced]
  value v hv := value_spaced_of_lt hv
  numBlocks := by simp [spaced]
  params := rfl
  ret := rfl
  grown c := ⟨[], by rw [List.append_nil, body_spaced h hx]⟩
  ended c _ := by
    rw [body_spaced h hx, block_spaced h]
    split
    · next hc => simp [hc]
    · exact ⟨rfl, rfl, rfl, rfl⟩

/-! ## New blocks -/

section newBlock

@[simp] theorem block_newBlock : f.newBlock.1.block c = f.block c := by
  simp only [newBlock, block, Array.getD_eq_getD_getElem?, Array.getElem?_push]
  split
  · next hc => simp [hc, default, instInhabitedBlock.default]
  · rfl

@[simp] theorem value_newBlock : f.newBlock.1.value v = f.value v := rfl
@[simp] theorem ret_newBlock : f.newBlock.1.ret = f.ret := rfl
@[simp] theorem numValues_newBlock : f.newBlock.1.numValues = f.numValues := rfl
@[simp] theorem numBlocks_newBlock : f.newBlock.1.numBlocks = f.numBlocks + 1 := by
  simp [newBlock, numBlocks]

theorem body_newBlock : f.newBlock.1.body c = f.body c := by
  rw [body, block_newBlock]
  rfl

theorem heads_newBlock : f.newBlock.1.heads c = f.heads c := by
  rw [heads, block_newBlock]
  rfl

theorem widens_newBlock : Widens f f.newBlock.1 :=
  ⟨fun _ _ => rfl, fun c => by rw [block_newBlock], rfl⟩

theorem Draft.newBlock (h : f.Draft) : f.newBlock.1.Draft where
  layout := by
    change f.layout ++ [f.numBlocks] = _
    rw [h.layout, numBlocks_newBlock, List.range_succ]
  pos := by simp
  own c := by simpa using h.own c
  succs c d hd := by
    rw [block_newBlock] at hd
    obtain ⟨hne, hlt⟩ := h.succs c d hd
    exact ⟨hne, by rw [numBlocks_newBlock]; exact Nat.lt_succ_of_lt hlt⟩
  edges c d := by simpa using h.edges c d
  listed v c := by simpa using h.listed v c
  nodup c := by simpa using h.nodup c
  split c := by simpa [heads_newBlock, body_newBlock] using h.split c
  values c v hv := widens_newBlock.inOrder h (by simpa using hv)
  ends c := widens_newBlock.endInOrder h (by simp) (by simp) (by simp)

theorem growsTo_newBlock : GrowsTo f f.newBlock.1 where
  numValues := Nat.le_refl _
  value _ _ := rfl
  numBlocks := by simp
  params := rfl
  ret := rfl
  grown c := ⟨[], by rw [List.append_nil, body_newBlock]⟩
  ended c _ := by simp [body_newBlock]

end newBlock

end SsaJit.Func
