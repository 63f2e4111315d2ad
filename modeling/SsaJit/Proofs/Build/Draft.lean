import SsaJit.Proofs.Ssa.Verify

/-! Functions under construction. `Func.Draft` is what the builder keeps: blocks are numbered in the
order of the layout, nothing leads to the entry, parameters and stack space stand in front in the
entry, there are no phis, and an instruction reads only those and what stands before it in its own
block. A draft all of whose blocks have an end is in good form. -/

namespace SsaJit.Func

variable {f g k : Func} {b c d : BlockId} {u v w a : ValueId} {o : Operand} {x : Value}

/-- Parameters and stack space, which stand in front in the entry. -/
def isHead (f : Func) (v : ValueId) : Bool := (f.value v).op == .param || (f.value v).op == .alloca

def heads (f : Func) (b : BlockId) : List ValueId := (f.block b).values.filter f.isHead

/-- What a block computes. -/
def body (f : Func) (b : BlockId) : List ValueId := (f.block b).values.filter fun v => !f.isHead v

/-- What an instruction can read that is built next in `b`. -/
structure Usable (f : Func) (b : BlockId) (a : ValueId) : Prop where
  store : (f.value a).op ≠ .store
  place : a ∈ f.heads 0 ∨ a ∈ (f.block b).values

/-- A value of a draft: its operands are heads or stand before it in its block. -/
structure InOrder (f : Func) (b : BlockId) (v : ValueId) : Prop where
  phi : (f.value v).op ≠ .phi
  head : f.isHead v = true → b = 0 ∧ (f.value v).args = []
  args : ∀ o ∈ (f.value v).args, ∃ a, o = .value a ∧ (f.value a).op ≠ .store ∧
    (a ∈ f.heads 0 ∨ [a, v].Sublist (f.block b).values)
  typed : WellTyped (f.value v) (f.argTypes (f.value v)) (b = 0)

/-- The end of a block of a draft, if it has one. -/
def EndInOrder (f : Func) (b : BlockId) : Prop :=
  match (f.block b).kind with
  | .pending | .unreachable => (f.block b).succs = [] ∧ (f.block b).control = .missing
  | .jump => (∃ c, (f.block b).succs = [c]) ∧ (f.block b).control = .missing
  | .branch => (∃ yes no, (f.block b).succs = [yes, no]) ∧ ∃ w, (f.block b).control = .value w ∧
      f.Usable b w ∧ (f.value w).type = .i1
  | .ret => (f.block b).succs = [] ∧
      if (f.block b).control = .missing then f.ret.isVoid = true
      else f.ret.isVoid = false ∧ ∃ w, (f.block b).control = .value w ∧ f.Usable b w ∧
        (f.value w).type = f.ret
  | .other _ => False

/-- A function under construction. -/
structure Draft (f : Func) : Prop where
  layout : f.layout = List.range f.numBlocks
  pos : 0 < f.numBlocks
  own : ∀ b, (f.block b).isForeign = false
  succs : ∀ b, ∀ c ∈ (f.block b).succs, c ≠ 0 ∧ c < f.numBlocks
  edges : ∀ b c, (f.block b).succs.count c = (f.block c).preds.count b
  listed : ∀ v b, (f.value v).block = some b ↔ v ∈ (f.block b).values
  nodup : ∀ b, (f.block b).values.Nodup
  split : ∀ b, (f.block b).values = f.heads b ++ f.body b
  values : ∀ b, ∀ v ∈ (f.block b).values, f.InOrder b v
  ends : ∀ b, f.EndInOrder b

/-! ## Finished drafts -/

namespace Draft

theorem start (h : f.Draft) : f.start = 0 := by
  have hpos := h.pos
  rw [Func.start, h.layout]
  cases hn : f.numBlocks with
  | zero => omega
  | succ n => simp [List.range_succ_eq_map]

theorem mem_layout (h : f.Draft) : b ∈ f.layout ↔ b < f.numBlocks := by
  rw [h.layout, List.mem_range]

theorem lt_of_mem_values (h : v ∈ (f.block b).values) : b < f.numBlocks := by
  by_contra hb
  rw [block_of_le (Nat.le_of_not_lt hb)] at h
  exact List.not_mem_nil h

theorem value_lt (h : f.Draft) (hv : v ∈ (f.block b).values) : v < f.numValues := by
  by_contra hle
  have hblock := (h.listed v b).mpr hv
  rw [value_of_le (Nat.le_of_not_lt hle)] at hblock
  exact nomatch hblock

theorem mem_heads : v ∈ f.heads b ↔ v ∈ (f.block b).values ∧ f.isHead v = true := List.mem_filter

theorem mem_body : v ∈ f.body b ↔ v ∈ (f.block b).values ∧ f.isHead v = false := by
  simp [body, List.mem_filter]

theorem heads_nil (h : f.Draft) (hb : b ≠ 0) : f.heads b = [] := by
  rw [List.eq_nil_iff_forall_not_mem]
  intro v hv
  obtain ⟨hv, hhead⟩ := mem_heads.mp hv
  exact hb ((h.values b v hv).head hhead).1

theorem values_eq (h : f.Draft) (hb : b ≠ 0) : (f.block b).values = f.body b := by
  rw [h.split b, h.heads_nil hb, List.nil_append]

/-- In the entry, heads stand before the rest. -/
theorem head_before (h : f.Draft) (ha : a ∈ f.heads 0) (hv : v ∈ f.body 0) :
    [a, v].Sublist (f.block 0).values := by
  rw [h.split 0]
  exact (List.singleton_sublist.mpr ha).append (List.singleton_sublist.mpr hv)

theorem flow (h : f.Draft) : f.Flow where
  layout_ne := by
    rw [h.layout]
    simpa using h.pos.ne'
  layout_nodup := by
    rw [h.layout]
    exact List.nodup_range
  lt _ hb := h.mem_layout.mp hb
  own b _ := h.own b
  succs_mem b _ s hs := h.mem_layout.mpr (h.succs b s hs).2
  preds_mem b _ p hp := by
    rw [h.mem_layout]
    by_contra hle
    have hcount := List.count_pos_iff.mpr hp
    rw [← h.edges p b, List.count_pos_iff, block_of_le (Nat.le_of_not_lt hle)] at hcount
    exact List.not_mem_nil hcount
  edges b _ c _ := h.edges b c
  entry_preds := by
    rw [h.start, List.eq_nil_iff_forall_not_mem]
    intro p hp
    have hcount := List.count_pos_iff.mpr hp
    rw [← h.edges p 0, List.count_pos_iff] at hcount
    exact (h.succs p 0 hcount).1 rfl

theorem listing (h : f.Draft) : f.Listing where
  listed v b := by
    rw [h.listed, h.mem_layout]
    exact ⟨fun hv => ⟨lt_of_mem_values hv, hv⟩, And.right⟩
  nodup b _ := h.nodup b

theorem block_isSome (h : f.Draft) (hv : v ∈ (f.block b).values) :
    (f.value v).block.isSome = true := by
  rw [(h.listed v b).mpr hv]
  rfl

/-- What is usable in a block can be read at its end. -/
theorem atEnd (h : f.Draft) (hw : f.Usable b w) : f.AtEnd (.value w) b := by
  rcases hw.place with hhead | hin
  · refine ⟨w, rfl, .inr ⟨0, (h.listed w 0).mpr (mem_heads.mp hhead).1, fun _ => ?_⟩⟩
    rw [Dominates, h.start]
    exact Dom.start _ _ _
  · exact ⟨w, rfl, .inr ⟨b, (h.listed w b).mpr hin, fun _ => Dom.refl _ _ _⟩⟩

theorem before (h : f.Draft) (hv : v ∈ (f.block b).values) (hnh : f.isHead v = false)
    (ha : a ∈ f.heads 0 ∨ [a, v].Sublist (f.block b).values) : f.Before (.value a) v b := by
  have hsub : [a, v].Sublist (f.block b).values → f.Before (.value a) v b := fun hsub =>
    have hmem : a ∈ (f.block b).values := hsub.subset (by simp)
    ⟨a, rfl, .inr ⟨h.block_isSome hmem, fun _ =>
      ⟨b, (h.listed a b).mpr hmem, .inl ⟨rfl, hsub⟩⟩⟩⟩
  rcases ha with hhead | hin
  · by_cases hb : b = 0
    · subst hb
      exact hsub (h.head_before hhead (mem_body.mpr ⟨hv, hnh⟩))
    · have hmem := (mem_heads.mp hhead).1
      refine ⟨a, rfl, .inr ⟨h.block_isSome hmem, fun _ =>
        ⟨0, (h.listed a 0).mpr hmem, .inr ⟨Ne.symm hb, ?_⟩⟩⟩⟩
      rw [Dominates, h.start]
      exact Dom.start _ _ _
  · exact hsub hin

theorem endsWell (h : f.Draft) (hb : (f.block b).kind ≠ .pending) : f.EndsWell b := by
  have hend := h.ends b
  unfold EndInOrder at hend
  unfold EndsWell
  cases hk : (f.block b).kind with
  | pending => exact hb hk
  | jump =>
    simp only [hk] at hend
    obtain ⟨⟨c, hc⟩, -⟩ := hend
    simp [hc]
  | branch =>
    simp only [hk] at hend
    obtain ⟨⟨yes, no, hs⟩, w, hw, huse, hty⟩ := hend
    rw [hw]
    exact ⟨by simp [hs], hty, h.atEnd huse⟩
  | ret =>
    simp only [hk] at hend
    obtain ⟨-, hend⟩ := hend
    split at hend
    · next hm => simpa [hm] using hend
    · next hm =>
      obtain ⟨hvoid, w, hw, huse, hty⟩ := hend
      rw [hw]
      simpa [hvoid] using ⟨hty, h.atEnd huse⟩
  | unreachable => trivial
  | other n => simp only [hk] at hend

theorem ssa (h : f.Draft) (hends : ∀ b < f.numBlocks, (f.block b).kind ≠ .pending) : f.Ssa where
  flow := h.flow
  listing := h.listing
  entry_phis v hv := (h.values _ v hv).phi
  ends b hb := h.endsWell (hends b (h.mem_layout.mp hb))
  phisFirst b _ _ p hsub hphi := absurd hphi (h.values b p (hsub.subset (by simp))).phi
  phis b _ v hv hphi := absurd hphi (h.values b v hv).phi
  values b _ v hv _ := by
    have hin := h.values b v hv
    refine ⟨fun hparam o ho => ?_, ?_⟩
    · obtain ⟨a, rfl, hstore, ha⟩ := hin.args o ho
      have hnh : f.isHead v = false := by
        by_contra hhead
        rw [(hin.head (by simpa using hhead)).2] at ho
        simp at ho
      exact h.before hv hnh ha
    · rw [h.start]
      exact hin.typed

theorem consistent (h : f.Draft) (hends : ∀ b < f.numBlocks, (f.block b).kind ≠ .pending) :
    f.Consistent := by
  refine (h.ssa hends).consistent (fun b _ v hv hop => ?_) fun b _ => ⟨fun v hv w hw => ?_,
    fun w hw => ?_⟩
  · exact ((h.values b v hv).head (by simp [isHead, hop])).2
  · obtain ⟨a, ha, hstore, -⟩ := (h.values b v hv).args _ hw
    obtain rfl : w = a := by simpa using ha
    exact hstore
  · have hend := h.ends b
    unfold EndInOrder at hend
    split at hend
    · simp [hend.2] at hw
    · simp [hend.2] at hw
    · simp [hend.2] at hw
    · obtain ⟨-, a, ha, huse, -⟩ := hend
      obtain rfl : a = w := by simpa [ha] using hw
      exact huse.store
    · rw [if_neg (by simp [hw])] at hend
      obtain ⟨-, -, a, ha, huse, -⟩ := hend
      obtain rfl : a = w := by simpa [ha] using hw
      exact huse.store
    · exact hend.elim

end Draft

end SsaJit.Func
