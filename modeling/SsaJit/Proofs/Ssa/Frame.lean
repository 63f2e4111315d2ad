import SsaJit.Proofs.Ssa.Verify

/-! What the form of a function says about two functions with one control-flow graph, and when one
value can stand for another. -/

namespace SsaJit.Func

variable {f g : Func} {b c d : BlockId} {u v w : ValueId} {o : Operand}

/-! ## Order in a list -/

theorem sublist_pair_iff {l : List ValueId} (hl : l.Nodup) :
    [v, u].Sublist l ↔ v ∈ l ∧ u ∈ l ∧ l.idxOf v < l.idxOf u := by
  constructor
  · intro h
    have hv : v ∈ l := h.subset (by simp)
    have hu : u ∈ l := h.subset (by simp)
    exact ⟨hv, hu, (idxOf_lt_iff_sublist hl (List.getElem?_idxOf hu) hv).mpr h⟩
  · rintro ⟨hv, hu, hlt⟩
    exact (idxOf_lt_iff_sublist hl (List.getElem?_idxOf hu) hv).mp hlt

theorem sublist_pair_trans {l : List ValueId} (hl : l.Nodup) (h₁ : [w, v].Sublist l)
    (h₂ : [v, u].Sublist l) : [w, u].Sublist l := by
  rw [sublist_pair_iff hl] at *
  exact ⟨h₁.1, h₂.2.1, by omega⟩

theorem sublist_pair_split {pre post : List ValueId} (hnd : (pre ++ u :: post).Nodup)
    (h : [v, u].Sublist (pre ++ u :: post)) : v ∈ pre := by
  obtain ⟨_, _, hlt⟩ := (sublist_pair_iff hnd).mp h
  have hu : u ∉ pre := fun hm => (List.nodup_append.mp hnd).2.2 u hm u List.mem_cons_self rfl
  rw [List.idxOf_append_of_notMem hu, List.idxOf_cons_self, Nat.add_zero] at hlt
  by_contra hv
  rw [List.idxOf_append_of_notMem hv] at hlt
  omega

/-! ## One graph -/

/-- Both functions have the same blocks and edges. -/
structure SameGraph (f g : Func) : Prop where
  layout : g.layout = f.layout
  numBlocks : g.numBlocks = f.numBlocks
  succs : ∀ b, (g.block b).succs = (f.block b).succs
  preds : ∀ b, (g.block b).preds = (f.block b).preds
  own : ∀ b, (g.block b).isForeign = (f.block b).isForeign

namespace SameGraph

theorem refl (f : Func) : SameGraph f f := ⟨rfl, rfl, fun _ => rfl, fun _ => rfl, fun _ => rfl⟩

theorem start (h : SameGraph f g) : g.start = f.start := by
  rw [Func.start, h.layout]
  rfl

theorem next (h : SameGraph f g) : g.next = f.next := funext h.succs

theorem reached (h : SameGraph f g) : g.Reached b ↔ f.Reached b := by
  rw [Reached, h.next, h.start]
  rfl

theorem dominates (h : SameGraph f g) : g.Dominates d b ↔ f.Dominates d b := by
  rw [Dominates, h.next, h.start]
  rfl

theorem flow (h : SameGraph f g) (hf : f.Flow) : g.Flow where
  layout_ne := h.layout ▸ hf.layout_ne
  layout_nodup := h.layout ▸ hf.layout_nodup
  lt b hb := h.numBlocks ▸ hf.lt b (h.layout ▸ hb)
  own b hb := (h.own b).trans (hf.own b (h.layout ▸ hb))
  succs_mem b hb s hs := by
    rw [h.layout] at hb ⊢
    exact hf.succs_mem b hb s (h.succs b ▸ hs)
  preds_mem b hb p hp := by
    rw [h.layout] at hb ⊢
    exact hf.preds_mem b hb p (h.preds b ▸ hp)
  edges b hb c hc := by
    rw [h.layout] at hb hc
    rw [h.succs, h.preds]
    exact hf.edges b hb c hc
  entry_preds := by
    rw [h.start, h.preds]
    exact hf.entry_preds

theorem trans {k : Func} (h₁ : SameGraph f g) (h₂ : SameGraph g k) : SameGraph f k where
  layout := h₂.layout.trans h₁.layout
  numBlocks := h₂.numBlocks.trans h₁.numBlocks
  succs b := (h₂.succs b).trans (h₁.succs b)
  preds b := (h₂.preds b).trans (h₁.preds b)
  own b := (h₂.own b).trans (h₁.own b)

end SameGraph

/-! ## Operands that stay readable -/

/-- Control has no more ways in `g` than in `f`, so that dominance stays. -/
structure Narrows (f g : Func) : Prop where
  reached : ∀ {b}, g.Reached b → f.Reached b
  dominates : ∀ {d b}, f.Dominates d b → g.Dominates d b

theorem SameGraph.narrows (h : SameGraph f g) : Narrows f g := ⟨h.reached.mp, h.dominates.mpr⟩

theorem narrows_of_next (hstart : g.start = f.start)
    (hnext : ∀ x, ∀ y ∈ g.next x, y ∈ f.next x) : Narrows f g where
  reached h := by
    rw [Reached, ← hstart]
    exact Reach.mono (fun x _ => hnext x) h
  dominates h := by
    rw [Dominates, hstart]
    exact Dom.mono (fun x _ => hnext x) h

/-- A value that can be read in `g` where it could be read in `f`. -/
def Stays (f g : Func) (v : ValueId) : Prop :=
  ((f.value v).op = .store → (g.value v).op = .store) ∧
    ((g.value v).op = .store ∨ (g.value v).block = (f.value v).block)

theorem Stays.of_eq (hop : (g.value v).op = (f.value v).op)
    (hblock : (g.value v).block = (f.value v).block) : Stays f g v :=
  ⟨fun h => hop.trans h, .inr hblock⟩

theorem AtEnd.stays (h : f.AtEnd o b) (hg : Narrows f g)
    (hs : ∀ v, o = .value v → Stays f g v) : g.AtEnd o b := by
  obtain ⟨v, ho, hv⟩ := h
  refine ⟨v, ho, ?_⟩
  obtain ⟨hstore, hkeep⟩ := hs v ho
  rcases hv with hv | ⟨d, hd, hdom⟩
  · exact .inl (hstore hv)
  · rcases hkeep with hkeep | hkeep
    · exact .inl hkeep
    · exact .inr ⟨d, hkeep.trans hd, fun hr => hg.dominates (hdom (hg.reached hr))⟩

theorem Earlier.stays (h : f.Earlier v u b) (hg : Narrows f g)
    (hblock : (g.value v).block = (f.value v).block)
    (hsub : [v, u].Sublist (f.block b).values → [v, u].Sublist (g.block b).values) :
    g.Earlier v u b := by
  obtain ⟨d, hd, h⟩ := h
  refine ⟨d, hblock.trans hd, ?_⟩
  rcases h with ⟨rfl, h⟩ | ⟨hne, h⟩
  · exact .inl ⟨rfl, hsub h⟩
  · exact .inr ⟨hne, hg.dominates h⟩

theorem Before.stays (h : f.Before o u b) (hg : Narrows f g)
    (hs : ∀ v, o = .value v → Stays f g v)
    (hsub : ∀ v, o = .value v → (g.value v).op ≠ .store → [v, u].Sublist (f.block b).values →
      [v, u].Sublist (g.block b).values) : g.Before o u b := by
  obtain ⟨v, ho, hv⟩ := h
  refine ⟨v, ho, ?_⟩
  obtain ⟨hstore, hkeep⟩ := hs v ho
  by_cases hgs : (g.value v).op = .store
  · exact .inl hgs
  · obtain ⟨hsome, hv⟩ := hv.resolve_left fun hv => hgs (hstore hv)
    have hkeep := hkeep.resolve_left hgs
    exact .inr ⟨hkeep ▸ hsome, fun hr => (hv (hg.reached hr)).stays hg hkeep (hsub v ho hgs)⟩

/-- The end of one block is in order if it is that of another with its condition or result in place
of the other's. -/
theorem EndsWell.transfer (h : f.EndsWell c) (hkind : (g.block b).kind = (f.block c).kind)
    (hsuccs : (g.block b).succs.length = (f.block c).succs.length) (hret : g.ret = f.ret)
    (hmissing : (g.block b).control = .missing ↔ (f.block c).control = .missing)
    (hcontrol : f.AtEnd (f.block c).control c → g.AtEnd (g.block b).control b ∧
      g.operandType (g.block b).control = f.operandType (f.block c).control) : g.EndsWell b := by
  unfold EndsWell at h ⊢
  rw [hkind, hsuccs, hret]
  cases hk : (f.block c).kind with
  | pending => simp [hk] at h
  | jump => simpa [hk] using h
  | branch =>
    simp only [hk] at h ⊢
    obtain ⟨hend, hty⟩ := hcontrol h.2.2
    exact ⟨h.1, hty.trans h.2.1, hend⟩
  | ret =>
    simp only [hk, hmissing] at h ⊢
    split
    · next hm => rwa [if_pos hm] at h
    · next hm =>
      rw [if_neg hm] at h
      obtain ⟨hend, hty⟩ := hcontrol h.2.2
      exact ⟨h.1, hty.trans h.2.1, hend⟩
  | unreachable => trivial
  | other k => trivial

/-! ## Values that cover others -/

/-- Wherever `v` can be read, so can `w`, and their types are the same. -/
structure Covers (f : Func) (w v : ValueId) : Prop where
  type : (f.value w).type = (f.value v).type
  atEnd : ∀ b, f.AtEnd (.value v) b → f.AtEnd (.value w) b
  before : ∀ b u, b ∈ f.layout → u ∈ (f.block b).values → (f.value u).op ≠ .phi →
    (f.value u).op ≠ .param → .value v ∈ (f.value u).args → f.Before (.value v) u b →
      f.Before (.value w) u b

theorem Earlier.trans (hl : f.Listing) (hb : b ∈ f.layout) (hr : f.Reached b)
    (h₁ : f.Earlier w v d) (hd : (f.value v).block = some d) (h₂ : f.Earlier v u b) :
    f.Earlier w u b := by
  obtain ⟨d', hd', h₂⟩ := h₂
  obtain rfl : d = d' := Option.some.inj (hd.symm.trans hd')
  obtain ⟨c, hc, h₁⟩ := h₁
  refine ⟨c, hc, ?_⟩
  rcases h₂ with ⟨rfl, h₂⟩ | ⟨hne, h₂⟩
  · rcases h₁ with ⟨rfl, h₁⟩ | ⟨hne', h₁⟩
    · exact .inl ⟨rfl, sublist_pair_trans (hl.nodup c hb) h₁ h₂⟩
    · exact .inr ⟨hne', h₁⟩
  · rcases h₁ with ⟨rfl, h₁⟩ | ⟨hne', h₁⟩
    · exact .inr ⟨hne, h₂⟩
    · refine .inr ⟨?_, h₁.trans h₂⟩
      rintro rfl
      exact hne (h₂.antisymm hr h₁)

/-- What can be read where a value stands can be read wherever the value can be read at an end. -/
theorem AtEnd.of_before (hl : f.Listing) (hd : d ∈ f.layout) (hv : v ∈ (f.block d).values)
    (hstore : (f.value v).op ≠ .store) (h₁ : f.Before (.value w) v d)
    (h₂ : f.AtEnd (.value v) b) : f.AtEnd (.value w) b := by
  have hblock := (hl.listed v d).mpr ⟨hd, hv⟩
  obtain ⟨w', hw', h₁⟩ := h₁
  obtain rfl : w = w' := by simpa using hw'
  obtain ⟨v', hv', h₂⟩ := h₂
  obtain rfl : v = v' := by simpa using hv'
  refine ⟨w, rfl, ?_⟩
  rcases h₁ with h₁ | ⟨hsome, h₁⟩
  · exact .inl h₁
  · obtain ⟨d', hd', hdom⟩ := h₂.resolve_left hstore
    obtain rfl : d = d' := Option.some.inj (hblock.symm.trans hd')
    obtain ⟨c, hc⟩ := Option.isSome_iff_exists.mp hsome
    refine .inr ⟨c, hc, fun hr => ?_⟩
    have hdb := hdom hr
    obtain ⟨c', hc', hor⟩ := h₁ (hdb.reach hr)
    obtain rfl : c = c' := Option.some.inj (hc.symm.trans hc')
    rcases hor with ⟨rfl, _⟩ | ⟨_, hcd⟩
    · exact hdb
    · exact hcd.trans hdb

/-- What can be read where a value stands can be read wherever the value can be read. -/
theorem Before.trans (hl : f.Listing) (hb : b ∈ f.layout) (hd : d ∈ f.layout)
    (hv : v ∈ (f.block d).values) (hstore : (f.value v).op ≠ .store)
    (h₁ : f.Before (.value w) v d) (h₂ : f.Before (.value v) u b) :
    f.Before (.value w) u b := by
  have hblock := (hl.listed v d).mpr ⟨hd, hv⟩
  obtain ⟨w', hw', h₁⟩ := h₁
  obtain rfl : w = w' := by simpa using hw'
  obtain ⟨v', hv', h₂⟩ := h₂
  obtain rfl : v = v' := by simpa using hv'
  refine ⟨w, rfl, ?_⟩
  rcases h₁ with h₁ | ⟨hsome, h₁⟩
  · exact .inl h₁
  · obtain ⟨_, h₂⟩ := h₂.resolve_left hstore
    refine .inr ⟨hsome, fun hr => ?_⟩
    have hvu := h₂ hr
    have hrd : f.Reached d := by
      obtain ⟨d', hd', hor⟩ := hvu
      obtain rfl : d = d' := Option.some.inj (hblock.symm.trans hd')
      rcases hor with ⟨rfl, _⟩ | ⟨_, hdom⟩
      · exact hr
      · exact hdom.reach hr
    exact (h₁ hrd).trans hl hb hr hblock hvu

/-- An operand of a value covers the value. -/
theorem Covers.of_before (hl : f.Listing) (hb : b ∈ f.layout) (hv : v ∈ (f.block b).values)
    (hstore : (f.value v).op ≠ .store) (hty : (f.value w).type = (f.value v).type)
    (h : f.Before (.value w) v b) : f.Covers w v :=
  ⟨hty, fun _ hx => .of_before hl hb hv hstore h hx,
    fun _ _ hx _ _ _ _ hu => .trans hl hx hb hv hstore h hu⟩

end SsaJit.Func
