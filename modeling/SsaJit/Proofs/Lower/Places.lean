import SsaJit.Proofs.Lower.Phis

/-! Where code stands in a program. No label is bound twice, so that a label leads to one place; and what
follows a place says in which block it is, since two places with the same code behind them are one. -/

namespace SsaJit.Lower

open X86

variable {c : Context} {prog code code' : Code} {b d s : BlockId} {l : Label} {ls ls' : Labels}

/-! ## Every label once -/

/-- Parts that bind different labels, each once, do so together. -/
theorem nodup_marks_flatten {α : Type} {g : α → Outcome Code} {xs : List α} {cs : List Code}
    (h : List.Forall₂ (fun x c => g x = .ok c) xs cs) (hone : ∀ x c, g x = .ok c → (marks c).Nodup)
    (hdiff : xs.Pairwise fun x y => ∀ c c', g x = .ok c → g y = .ok c' →
      (marks c).Disjoint (marks c')) : (marks cs.flatten).Nodup := by
  induction h with
  | nil => exact List.nodup_nil
  | cons hx hrest ih =>
    obtain ⟨hhead, htail⟩ := List.pairwise_cons.mp hdiff
    rw [List.flatten_cons, marks_append]
    refine (hone _ _ hx).append (ih htail) fun l hl hl' => ?_
    obtain ⟨y, hy, c', hc', hl'⟩ := mem_marks_flatten hrest hl'
    exact hhead y hy _ _ hx hc' hl hl'

/-- Code that binds every label once, and only those given out by its end. -/
def Spent (r : Outcome (Code × Labels)) : Prop :=
  ∀ code ls, r = .ok (code, ls) → (marks code).Nodup ∧ ∀ l ∈ marks code, l < ls.next

theorem Spent.bind {α : Type} {x : Outcome α} {g : α → Outcome (Code × Labels)}
    (h : ∀ a, x = .ok a → Spent (g a)) : Spent (x >>= g) := by
  intro code ls hc
  obtain ⟨a, ha, hg⟩ := Outcome.bind_eq_ok.mp hc
  exact h a ha code ls hg

theorem Spent.unmarked {code : Code} (h : marks code = []) : Spent (pure (code, ls)) := by
  rintro _ _ ⟨⟩
  rw [h]
  exact ⟨List.nodup_nil, fun l hl => by cases hl⟩

/-- A pair of labels belongs to one lane. -/
theorem lane_of_label {n l : Int} {i : Nat} (h : l = n + 2 * i ∨ l = n + 2 * i + 1) :
    (l - n) / 2 = i := by
  omega

theorem label_lt_of_lane {n l : Int} {i k : Nat} (h : l = n + 2 * i ∨ l = n + 2 * i + 1)
    (hi : i < k) : l < n + 2 * k := by
  omega

theorem spent_conversion (c : Context) (v : ValueId) (x : Value) (ls : Labels) :
    Spent (c.conversion v x ls) := by
  unfold Context.conversion
  refine .bind fun source _ => .bind fun o _ => ?_
  dsimp only
  split
  · next code hcode => exact .unmarked (marks_vectorCast hcode)
  · refine .bind fun code hcode => ?_
    rintro _ _ ⟨⟩
    obtain ⟨parts, hparts, hflat⟩ := Outcome.bind_eq_ok.mp hcode
    cases hflat
    have hall := Outcome.mapM_eq_ok.mp hparts
    refine ⟨nodup_marks_flatten hall (fun i part hpart => ?_) ?_, fun l hl => ?_⟩
    · rcases marks_cast_eq hpart with heq | heq
      · rw [heq]
        exact List.nodup_nil
      · rw [heq]
        simp
    · -- lanes take their labels in pairs
      refine List.nodup_range.imp fun hne _ _ hi hj l hl hl' => ?_
      exact hne (Int.ofNat_inj.mp
        ((lane_of_label (marks_cast hi l hl)).symm.trans (lane_of_label (marks_cast hj l hl'))))
    · obtain ⟨i, hi, part, hpart, hl⟩ := mem_marks_flatten hall hl
      have hlt := List.mem_range.mp hi
      exact label_lt_of_lane (marks_cast hpart l hl) hlt

theorem spent_value (c : Context) (v : ValueId) (x : Value) (ls : Labels) : Spent (c.value v x ls) := by
  unfold Context.value
  split
  · exact .unmarked (marks_straight _)
  · split
    · exact spent_conversion c v x ls
    · exact .bind fun code hcode => .unmarked (unmarked_plain c v x code hcode)

/-- Labels of two parts, the second of which takes its own from where the first has stopped. -/
theorem nodup_marks_append {n : Label} (hcode : (marks code).Nodup) (hbelow : ∀ l ∈ marks code, l < n)
    (hcode' : (marks code').Nodup) (habove : ∀ l ∈ marks code', n ≤ l) : (marks (code ++ code')).Nodup := by
  rw [marks_append]
  refine hcode.append hcode' fun l hl hl' => ?_
  exact absurd (hbelow l hl) (Int.not_lt.mpr (habove l hl'))

theorem spent_values (c : Context) (xs : List (ValueId × Value)) (ls : Labels) :
    Spent (c.values xs ls) := by
  induction xs generalizing ls with
  | nil => exact .unmarked rfl
  | cons x xs ih =>
    obtain ⟨v, x⟩ := x
    unfold Context.values
    split
    · exact ih ls
    · refine .bind fun first hfirst => .bind fun more hmore => ?_
      obtain ⟨code, ls₁⟩ := first
      obtain ⟨rest, ls₂⟩ := more
      rintro _ _ ⟨⟩
      obtain ⟨hcode, hbelow⟩ := spent_value c v x ls code ls₁ (value_of_located hfirst)
      obtain ⟨hle, habove⟩ := fresh_values c xs ls₁ rest ls₂ hmore
      obtain ⟨hrest, hend⟩ := ih ls₁ rest ls₂ hmore
      refine ⟨nodup_marks_append hcode hbelow hrest habove, fun l hl => ?_⟩
      rw [marks_append] at hl
      rcases List.mem_append.mp hl with hl | hl
      · exact Int.lt_of_lt_of_le (hbelow l hl) hle
      · exact hend l hl

theorem spent_block {next : Option BlockId} (hb : blockMark b < ls.next)
    (h : c.block b next ls = .ok (code, ls')) :
    (marks code).Nodup ∧ ∀ l ∈ marks code, l = blockMark b ∨ ls.next ≤ l ∧ l < ls'.next := by
  obtain ⟨body, term, rfl, hbody, hterm⟩ := block_eq h
  obtain ⟨hcode, hbelow⟩ := spent_values c _ ls body ls' hbody
  obtain ⟨-, habove⟩ := fresh_values c _ ls body ls' hbody
  rw [marks_cons_mark, marks_append, marks_append, marks_takes, unmarked_terminator c b next term hterm,
    List.nil_append, List.append_nil]
  refine ⟨List.nodup_cons.mpr ⟨fun hl => ?_, hcode⟩, fun l hl => ?_⟩
  · exact absurd hb (Int.not_lt.mpr (habove _ hl))
  · rcases List.mem_cons.mp hl with rfl | hl
    · exact .inl rfl
    · exact .inr ⟨habove l hl, hbelow l hl⟩

theorem spent_blocks {order : List BlockId} (hn : order.Nodup) (hlt : ∀ b ∈ order, blockMark b < ls.next)
    (h : c.blocks order ls = .ok (code, ls')) : ls.next ≤ ls'.next ∧ (marks code).Nodup ∧
      ∀ l ∈ marks code, (∃ b ∈ order, l = blockMark b) ∨ ls.next ≤ l ∧ l < ls'.next := by
  induction order generalizing ls code with
  | nil =>
    cases h
    exact ⟨Int.le_refl _, List.nodup_nil, fun l hl => by cases hl⟩
  | cons b order ih =>
    obtain ⟨⟨first, ls₁⟩, hfirst, h⟩ := Outcome.bind_eq_ok.mp h
    obtain ⟨⟨more, ls₂⟩, hmore, h⟩ := Outcome.bind_eq_ok.mp h
    cases h
    obtain ⟨hb, hn⟩ := List.nodup_cons.mp hn
    have hbl := hlt b List.mem_cons_self
    obtain ⟨hle, -⟩ := block_marks hfirst
    obtain ⟨hone, hmarks⟩ := spent_block hbl hfirst
    have hlt' : ∀ d ∈ order, blockMark d < ls.next := fun d hd => hlt d (List.mem_cons_of_mem _ hd)
    obtain ⟨hle', hone', hmarks'⟩ := ih hn (fun d hd => Int.lt_of_lt_of_le (hlt' d hd) hle) hmore
    refine ⟨Int.le_trans hle hle', ?_, fun l hl => ?_⟩
    · rw [marks_append]
      refine hone.append hone' fun l hl hl' => ?_
      rcases hmarks l hl with rfl | ⟨hge, hl⟩ <;> rcases hmarks' _ hl' with ⟨d, hd, heq⟩ | ⟨hge', -⟩
      · exact hb (Int.ofNat_inj.mp heq ▸ hd)
      · exact absurd hbl (Int.not_lt.mpr (Int.le_trans hle hge'))
      · exact absurd (hlt' d hd) (Int.not_lt.mpr (heq ▸ hge))
      · exact absurd hl (Int.not_lt.mpr hge')
    · rw [marks_append] at hl
      rcases List.mem_append.mp hl with hl | hl
      · rcases hmarks l hl with rfl | ⟨hge, hl⟩
        · exact .inl ⟨b, List.mem_cons_self, rfl⟩
        · exact .inr ⟨hge, Int.lt_of_lt_of_le hl hle'⟩
      · rcases hmarks' l hl with ⟨d, hd, rfl⟩ | ⟨hge, hl⟩
        · exact .inl ⟨d, List.mem_cons_of_mem _ hd, rfl⟩
        · exact .inr ⟨Int.le_trans hle hge, hl⟩

/-! ## Code in a block -/

/-- The code stands in the code of the block: before it, the last label of a block is that one's. -/
def InBlock (c : Context) (prog : Code) (b : BlockId) (code : Code) : Prop :=
  ∃ pre mid, prog = pre ++ .mark (blockMark b) :: (mid ++ code) ∧
    ∀ l ∈ marks mid, (c.func.numBlocks : Label) ≤ l

/-- Lists that are cut at elements that do not come again are cut at the same place. -/
theorem eq_of_last {α : Type} {x y : α} {l₁ l₂ m₁ m₂ : List α} (h : l₁ ++ x :: l₂ = m₁ ++ y :: m₂)
    (hx : x ∉ m₂) (hy : y ∉ l₂) : x = y := by
  rcases List.append_eq_append_iff.mp h with ⟨t, -, ht⟩ | ⟨t, -, ht⟩
  · cases t with
    | nil => exact (List.cons.inj ht).1
    | cons z t =>
      refine absurd ?_ hy
      rw [(List.cons.inj ht).2]
      exact List.mem_append_right _ List.mem_cons_self
  · cases t with
    | nil => exact (List.cons.inj ht).1.symm
    | cons z t =>
      refine absurd ?_ hx
      rw [(List.cons.inj ht).2]
      exact List.mem_append_right _ List.mem_cons_self

/-- Code stands in one block only. -/
theorem InBlock.unique (h : InBlock c prog b code) (h' : InBlock c prog d code)
    (hb : b < c.func.numBlocks) (hd : d < c.func.numBlocks) : b = d := by
  obtain ⟨pre, mid, rfl, hmid⟩ := h
  obtain ⟨pre', mid', heq, hmid'⟩ := h'
  have hcut : pre ++ .mark (blockMark b) :: mid = pre' ++ .mark (blockMark d) :: mid' := by
    have hall : (pre ++ .mark (blockMark b) :: mid) ++ code =
        (pre' ++ .mark (blockMark d) :: mid') ++ code := by simpa using heq
    exact List.append_cancel_right hall
  have hmark := eq_of_last hcut
    (fun hmem => absurd (hmid' _ (mem_marks.mpr hmem)) (Int.not_le.mpr (Int.ofNat_lt.mpr hb)))
    (fun hmem => absurd (hmid _ (mem_marks.mpr hmem)) (Int.not_le.mpr (Int.ofNat_lt.mpr hd)))
  exact Int.ofNat_inj.mp (Item.mark.inj hmark)

theorem InBlock.drop {code₁ code₂ : Code} (h : InBlock c prog b (code₁ ++ code₂))
    (hmarks : ∀ l ∈ marks code₁, (c.func.numBlocks : Label) ≤ l) : InBlock c prog b code₂ := by
  obtain ⟨pre, mid, heq, hmid⟩ := h
  refine ⟨pre, mid ++ code₁, by rw [heq, List.append_assoc], fun l hl => ?_⟩
  rw [marks_append] at hl
  rcases List.mem_append.mp hl with hl | hl
  · exact hmid l hl
  · exact hmarks l hl

/-! ## The code of a block, value by value -/

/-- The code is emitted for the value. Phis and parameters have none where they stand. -/
def Context.Emits (c : Context) (v : ValueId) (code : Code) : Prop :=
  if (c.func.value v).op = .phi ∨ (c.func.value v).op = .param then code = []
  else ∃ ls ls', c.value v (c.func.value v) ls = .ok (code, ls')

theorem values_parts {vs : List ValueId}
    (h : c.values (vs.map fun v => (v, c.func.value v)) ls = .ok (code, ls')) :
    ∃ parts, code = parts.flatten ∧ List.Forall₂ c.Emits vs parts := by
  induction vs generalizing ls code with
  | nil =>
    cases h
    exact ⟨[], rfl, .nil⟩
  | cons v vs ih =>
    rw [List.map_cons, Context.values] at h
    split at h
    · next hop =>
      obtain ⟨parts, rfl, hparts⟩ := ih h
      exact ⟨[] :: parts, rfl, .cons (by rw [Context.Emits, if_pos hop]) hparts⟩
    · next hop =>
      obtain ⟨⟨first, ls₁⟩, hfirst, h⟩ := Outcome.bind_eq_ok.mp h
      obtain ⟨⟨more, ls₂⟩, hmore, h⟩ := Outcome.bind_eq_ok.mp h
      cases h
      obtain ⟨parts, rfl, hparts⟩ := ih hmore
      refine ⟨first :: parts, rfl, .cons ?_ hparts⟩
      rw [Context.Emits, if_neg hop]
      exact ⟨ls, ls₁, value_of_located hfirst⟩

/-- The code of a block behind its phis: that of its values one by one, of its end, and what follows. -/
structure Parts where
  values : List Code
  term : Code
  rest : Code

/-- The code behind the first values. -/
def Parts.behind (p : Parts) (i : Nat) : Code := (p.values.drop i).flatten ++ (p.term ++ p.rest)

/-- The parts of the code of a block in a program. -/
structure Places (c : Context) (prog : Code) (b : BlockId) (p : Parts) : Prop where
  stands : ∃ pre, prog = pre ++ .mark (blockMark b) :: (c.takes b ++ p.behind 0)
  values : List.Forall₂ c.Emits (c.func.block b).values p.values
  fresh : ∀ code ∈ p.values, ∀ l ∈ marks code, (c.func.numBlocks : Label) ≤ l
  ends : ∃ next, c.terminator b next = .ok p.term ∧
    ∀ s, next = some s → ∃ code, p.rest = .mark (blockMark s) :: code

/-- What stands before the code behind the first values is theirs. -/
theorem Parts.split (p : Parts) (i : Nat) : p.behind 0 = (p.values.take i).flatten ++ p.behind i := by
  rw [Parts.behind, Parts.behind, ← List.append_assoc (p.values.take i).flatten,
    ← List.flatten_append, List.take_append_drop, List.drop_zero]

namespace Places

variable {p : Parts}

theorem prefixed (h : Places c prog b p) (entry : Code) : Places c (entry ++ prog) b p := by
  obtain ⟨pre, heq⟩ := h.stands
  exact ⟨⟨entry ++ pre, by rw [heq, List.append_assoc]⟩, h.values, h.fresh, h.ends⟩

/-- The code behind one value more. -/
theorem behind_succ {i : Nat} (hi : i < p.values.length) :
    p.behind i = p.values[i] ++ p.behind (i + 1) := by
  rw [Parts.behind, Parts.behind, List.drop_eq_getElem_cons hi, List.flatten_cons, List.append_assoc]

theorem behind_all : p.behind p.values.length = p.term ++ p.rest := by
  rw [Parts.behind, List.drop_length]
  rfl

theorem inBlock (h : Places c prog b p) : InBlock c prog b (c.takes b ++ p.behind 0) := by
  obtain ⟨pre, heq⟩ := h.stands
  exact ⟨pre, [], heq, fun l hl => by cases hl⟩

theorem inBlock_behind (h : Places c prog b p) (i : Nat) : InBlock c prog b (p.behind i) := by
  have hin := h.inBlock
  rw [p.split i, ← List.append_assoc] at hin
  refine hin.drop fun l hl => ?_
  rw [marks_append, marks_takes, List.nil_append] at hl
  obtain ⟨code, hcode, hmem⟩ := List.mem_flatten.mp (mem_marks.mp hl)
  exact h.fresh code (List.mem_of_mem_take hcode) l (mem_marks.mpr hmem)

end Places

/-- A function's code is its prologue and then its blocks, the first of them first. No label is bound
twice. -/
theorem function_places (hf : c.func.Flow) (h : c.function = .ok (prog, ls)) :
    (marks prog).Nodup ∧ ∃ entry body, c.prologue = .ok entry ∧ prog = entry ++ body ∧
      (∃ code, body = .mark (blockMark c.func.start) :: code) ∧
      ∀ b, c.func.Reached b → ∃ p, Places c body b p := by
  obtain ⟨order, horder, h⟩ := Outcome.bind_eq_ok.mp h
  obtain ⟨entry, hentry, h⟩ := Outcome.bind_eq_ok.mp h
  obtain ⟨⟨body, ls₀⟩, hbody, h⟩ := Outcome.bind_eq_ok.mp h
  cases h
  have hpost := postordered hf horder
  have hblocks : ∀ x ∈ order, blockMark x < c.func.numBlocks := fun x hx =>
    Int.ofNat_lt.mpr (hf.lt x (hf.reached_mem ((hpost.mem_iff x).mp hx)))
  obtain ⟨-, hone, -⟩ := spent_blocks hpost.nodup hblocks hbody
  refine ⟨by rwa [marks_append, unmarked_prologue c entry hentry], entry, body, hentry, rfl,
    blocks_head hbody hpost.head?, fun b hb => ?_⟩
  obtain ⟨pre, post, rfl⟩ := List.append_of_mem ((hpost.mem_iff b).mpr hb)
  obtain ⟨before, code, after, ls₁, ls₂, rfl, hcode, hafter, hle, -⟩ := blocks_split hbody
  obtain ⟨part, term, rfl, hpart, hterm⟩ := block_eq hcode
  obtain ⟨parts, rfl, hparts⟩ := values_parts hpart
  obtain ⟨-, habove⟩ := fresh_values c _ ls₁ _ ls₂ hpart
  refine ⟨⟨parts, term, after⟩, ⟨before, by simp [Parts.behind]⟩, hparts, fun part hmem l hl => ?_,
    post.head?, hterm, fun s hs => blocks_head hafter hs⟩
  refine Int.le_trans hle (habove l (mem_marks.mpr ?_))
  exact List.mem_flatten.mpr ⟨part, hmem, mem_marks.mp hl⟩

end SsaJit.Lower
