import Mathlib.Algebra.BigOperators.Group.List.Basic
import Mathlib.Algebra.Order.BigOperators.Group.List
import Mathlib.Data.List.Count
import Mathlib.Data.List.Nodup
import SsaJit.Proofs.Pass.Report

/-! Why simplifying control flow comes to an end. Rounds follow one another until one reports no change,
and each of the four steps of a round makes room for the others. But none of them adds a branch, a phi
or a block, and one that reports a change has taken away at least one of these. So there are at most as
many rounds with a change as there are branches, phis and blocks. -/

namespace SsaJit.Func

variable {f g k : Func} {b c : BlockId} {v : ValueId} {o : Operand} {ch : Bool} {n : Nat}

/-! ## Bulk -/

/-- The branches, phis and blocks of a function, counted together. -/
def bulk (f : Func) : Nat :=
  f.layout.countP (fun b => (f.block b).kind = .branch) +
    (f.layout.map fun b => (f.phisOf b).length).sum + f.layout.length

/-- What one block adds to the bulk. -/
def share (f : Func) (b : BlockId) : Nat :=
  (if (f.block b).kind = .branch then 1 else 0) + (f.phisOf b).length + 1

theorem bulk_eq_sum : f.bulk = (f.layout.map f.share).sum := by
  unfold bulk
  induction f.layout with
  | nil => rfl
  | cons b l ih =>
    simp only [List.countP_cons, List.map_cons, List.sum_cons, List.length_cons, share,
      decide_eq_true_eq] at ih ⊢
    omega

theorem length_phisOf :
    (f.phisOf b).length = (f.block b).values.countP fun v => (f.value v).op == .phi := by
  rw [phisOf, valuesOf, ← List.countP_eq_length_filter, List.countP_map]
  rfl

/-! ## Edits that add nothing -/

theorem modifyBlock_of_le {e : Block → Block} (h : f.numBlocks ≤ b) : f.modifyBlock b e = f := by
  have : f.blocks.modify b e = f.blocks := by
    refine Array.ext (by simp) fun i hi hi' => ?_
    rw [Array.getElem_modify, if_neg (by have : i < f.numBlocks := hi'; omega)]
  rw [modifyBlock, this]

/-- No block of `g` lists values that it does not list in `f` or has become a branch, and every value is
what it was. -/
structure Pared (f g : Func) : Prop where
  layout : g.layout = f.layout
  values : ∀ b, (g.block b).values.Sublist (f.block b).values
  branch : ∀ b, (g.block b).kind = .branch → (f.block b).kind = .branch
  op : ∀ v, (g.value v).op = (f.value v).op

namespace Pared

theorem refl (f : Func) : Pared f f := ⟨rfl, fun _ => .refl _, fun _ => id, fun _ => rfl⟩

theorem trans (h₁ : Pared f g) (h₂ : Pared g k) : Pared f k where
  layout := h₂.layout.trans h₁.layout
  values b := (h₂.values b).trans (h₁.values b)
  branch b := h₁.branch b ∘ h₂.branch b
  op v := (h₂.op v).trans (h₁.op v)

theorem block (b : BlockId) {e : Block → Block} (hvalues : ∀ x, (e x).values.Sublist x.values)
    (hbranch : ∀ x, (e x).kind = .branch → x.kind = .branch) : Pared f (f.modifyBlock b e) := by
  rcases Nat.lt_or_ge b f.numBlocks with hlt | hge
  · refine ⟨rfl, fun c => ?_, fun c hc => ?_, fun _ => rfl⟩
    · rw [block_modifyBlock hlt]
      split
      · next heq => exact heq ▸ hvalues _
      · exact .refl _
    · rw [block_modifyBlock hlt] at hc
      split at hc
      · next heq => exact heq ▸ hbranch _ hc
      · exact hc
  · rw [modifyBlock_of_le hge]
    exact .refl f

theorem value (v : ValueId) {e : Value → Value} (he : ∀ x, (e x).op = x.op) :
    Pared f (f.modifyValue v e) := by
  rcases Nat.lt_or_ge v f.numValues with hlt | hge
  · refine ⟨rfl, fun _ => .refl _, fun _ => id, fun w => ?_⟩
    rw [value_modifyValue hlt]
    split
    · next heq => exact heq ▸ he _
    · rfl
  · rw [modifyValue_of_le hge]
    exact .refl f

theorem of_foldlM {α : Type} {step : Func → α → Outcome Func} {l : List α}
    (hstep : ∀ a ∈ l, ∀ k m, step k a = .ok m → Pared k m) (h : l.foldlM step f = .ok g) :
    Pared f g :=
  Outcome.foldlM_relates .refl (fun _ _ _ => .trans) hstep h

theorem of_foldl {α : Type} {step : Func → α → Func} {l : List α}
    (hstep : ∀ k, ∀ a ∈ l, Pared k (step k a)) : Pared f (l.foldl step f) :=
  foldl_keeps (P := Pared f) (fun k a ha hk => hk.trans (hstep k a ha)) (.refl f)

theorem unlisted (l : List ValueId) (d : Option BlockId) :
    Pared f (l.foldl (fun f v => f.modifyValue v fun y => { y with block := d }) f) :=
  of_foldl fun _ v _ => value v fun _ => rfl

theorem replaceUses (old new : Operand) : Pared f (f.replaceUses old new) := by
  rw [replaceUses_eq]
  refine of_foldl fun k b _ => ?_
  unfold replaceIn
  refine trans (of_foldl fun _ v _ => value v ?_) (block b ?_ ?_)
  · exact fun _ => rfl
  · exact fun _ => .refl _
  · exact fun _ => id

theorem removeValue (b : BlockId) (v : ValueId) : Pared f (f.removeValue b v) := by
  unfold Func.removeValue
  split
  · refine (block b ?_ ?_).trans (value v ?_)
    · exact fun _ => List.erase_sublist
    · exact fun _ => id
    · exact fun _ => rfl
  · exact .refl f

theorem replaceValue (v : ValueId) (o : Operand) : Pared f (f.replaceValue v o) := by
  simp only [Func.replaceValue]
  split
  · exact (replaceUses _ _).trans (removeValue _ _)
  · exact replaceUses _ _

theorem removePred {i : Int} (h : f.removePred b i = .ok g) : Pared f g := by
  unfold Func.removePred at h
  split at h
  · cases h
  obtain ⟨preds, -, h⟩ := Outcome.bind_eq_ok.mp h
  refine trans (block b ?_ ?_) (of_foldlM (fun x _ k m hm => ?_) h)
  · exact fun _ => .refl _
  · exact fun _ => id
  dsimp only at hm
  split at hm
  · obtain ⟨args, -, hm⟩ := Outcome.bind_eq_ok.mp hm
    obtain rfl := Except.ok.inj hm
    exact value x.1 fun _ => rfl
  · exact Except.ok.inj hm ▸ .refl k

theorem clearTerminator (h : f.clearTerminator b = .ok g) : Pared f g := by
  obtain ⟨k, hk, h⟩ := Outcome.bind_eq_ok.mp h
  obtain rfl := Except.ok.inj h
  refine trans (of_foldlM (fun s _ m m' hm => ?_) hk) (block b (fun _ => .refl _) nofun)
  split at hm
  · exact removePred hm
  · exact Except.ok.inj hm ▸ .refl m

theorem phisOf_le (h : Pared f g) (b : BlockId) : (g.phisOf b).length ≤ (f.phisOf b).length := by
  simp only [length_phisOf, h.op]
  exact (h.values b).countP_le

theorem share_le (h : Pared f g) (b : BlockId) : g.share b ≤ f.share b := by
  have hphis := h.phisOf_le b
  simp only [share]
  split
  · next hg =>
    rw [if_pos (h.branch b hg)]
    omega
  · omega

theorem share_lt (h : Pared f g) (hf : (f.block b).kind = .branch)
    (hg : (g.block b).kind ≠ .branch) : g.share b < f.share b := by
  have hphis := h.phisOf_le b
  rw [share, share, if_pos hf, if_neg hg]
  omega

theorem bulk_le (h : Pared f g) : g.bulk ≤ f.bulk := by
  rw [bulk_eq_sum, bulk_eq_sum, h.layout]
  exact List.sum_le_sum fun b _ => h.share_le b

theorem bulk_lt (h : Pared f g) (hb : b ∈ f.layout) (hlt : g.share b < f.share b) :
    g.bulk < f.bulk := by
  rw [bulk_eq_sum, bulk_eq_sum, h.layout]
  exact List.sum_lt_sum _ _ (fun c _ => h.share_le c) ⟨b, hb, hlt⟩

end Pared

theorem bulk_removeBlock (hb : b ∈ f.layout) : f.share b + (f.removeBlock b).bulk = f.bulk := by
  rw [bulk_eq_sum, bulk_eq_sum]
  exact List.sum_map_erase f.share hb

/-! ## The four steps -/

/-- What a step answers is not bulkier than what it was given, and less bulky if the step reports a
change. -/
def Shrinks (f : Func) (r : Func × Bool) : Prop :=
  r.1.bulk ≤ f.bulk ∧ (r.2 = true → r.1.bulk < f.bulk)

namespace Shrinks

theorem unreported (h : g.bulk ≤ f.bulk) : Shrinks f (g, false) := ⟨h, nofun⟩

theorem of_lt (h : g.bulk < f.bulk) (ch : Bool) : Shrinks f (g, ch) := ⟨Nat.le_of_lt h, fun _ => h⟩

theorem less (h : Shrinks f (k, ch)) (hlt : g.bulk < k.bulk) (x : Bool) : Shrinks f (g, x) :=
  of_lt (Nat.lt_of_lt_of_le hlt h.1) x

/-- A step after others, its report added to theirs. -/
theorem next {x : Bool} (h : Shrinks f (k, ch)) (hnext : Shrinks k (g, x)) :
    Shrinks f (g, ch || x) := by
  cases x with
  | true => exact h.less (hnext.2 rfl) _
  | false =>
    rw [Bool.or_false]
    exact ⟨Nat.le_trans hnext.1 h.1, fun hch => Nat.lt_of_le_of_lt hnext.1 (h.2 hch)⟩

end Shrinks

theorem bulk_foldBranch (hb : b ∈ f.layout) (hkind : (f.block b).kind = .branch)
    (h : f.foldBranch b n = .ok g) : g.layout = f.layout ∧ g.bulk < f.bulk := by
  obtain ⟨keep, -, h⟩ := Outcome.bind_eq_ok.mp h
  obtain ⟨drop, -, h⟩ := Outcome.bind_eq_ok.mp h
  obtain ⟨i, -, h⟩ := Outcome.bind_eq_ok.mp h
  obtain ⟨k, hk, h⟩ := Outcome.bind_eq_ok.mp h
  obtain rfl := Except.ok.inj h
  have hpared : Pared f _ := (Pared.removePred hk).trans (.block b (e := fun blk =>
    { blk with kind := .jump, control := .missing, succs := [keep] }) (fun _ => .refl _) nofun)
  refine ⟨hpared.layout, hpared.bulk_lt hb ?_⟩
  refine hpared.share_lt hkind ?_
  rcases Nat.lt_or_ge b k.numBlocks with hlt | hge
  · simp [block_modifyBlock hlt]
  · rw [block_of_le (by rwa [numBlocks_modifyBlock])]
    decide

theorem shrinks_foldBranches {r : Func × Bool} (h : f.foldBranches = .ok r) : Shrinks f r := by
  rw [foldBranches_eq] at h
  refine (Outcome.foldlM_relates
    (R := fun s t : Func × Bool =>
      s.1.layout = f.layout ∧ Shrinks f s → t.1.layout = f.layout ∧ Shrinks f t)
    (fun _ => id) (fun _ _ _ hst htu => htu ∘ hst) ?_ h ⟨rfl, .unreported (Nat.le_refl _)⟩).2
  rintro b hb ⟨k, ch⟩ t ht ⟨hlay, hk⟩
  have hfold : ∀ {n m}, (k.block b).kind = .branch → k.foldBranch b n = .ok m →
      m.layout = f.layout ∧ Shrinks f (m, true) := by
    intro n m hkind hm
    obtain ⟨hlay', hlt⟩ := bulk_foldBranch (hlay ▸ hb) hkind hm
    exact ⟨hlay'.trans hlay, hk.less hlt _⟩
  simp only [foldBranchAt] at ht
  split at ht
  · exact Except.ok.inj ht ▸ ⟨hlay, hk⟩
  next hkind =>
  rw [not_not] at hkind
  obtain ⟨cond, -, ht⟩ := Outcome.bind_eq_ok.mp ht
  split at ht
  · obtain ⟨m, hm, ht⟩ := Outcome.bind_eq_ok.mp ht
    exact Except.ok.inj ht ▸ hfold hkind hm
  obtain ⟨yes, -, ht⟩ := Outcome.bind_eq_ok.mp ht
  obtain ⟨no, -, ht⟩ := Outcome.bind_eq_ok.mp ht
  split at ht
  · obtain ⟨same, -, ht⟩ := Outcome.bind_eq_ok.mp ht
    split at ht
    · obtain ⟨m, hm, ht⟩ := Outcome.bind_eq_ok.mp ht
      exact Except.ok.inj ht ▸ hfold hkind hm
    · exact Except.ok.inj ht ▸ ⟨hlay, hk⟩
  · exact Except.ok.inj ht ▸ ⟨hlay, hk⟩

theorem dropBlock_pared (f : Func) (b : BlockId) :
    ∃ k, Pared f k ∧ f.dropBlock b = k.removeBlock b :=
  ⟨_, .unlisted (f.block b).values none, rfl⟩

theorem bulk_dropBlock_lt (hb : b ∈ f.layout) : (f.dropBlock b).bulk < f.bulk := by
  obtain ⟨k, hk, heq⟩ := f.dropBlock_pared b
  have hsum := bulk_removeBlock (f := k) (b := b) (by rwa [hk.layout])
  have hle := hk.bulk_le
  rw [heq]
  simp only [share] at hsum
  omega

theorem bulk_dropBlock_le (f : Func) (b : BlockId) : (f.dropBlock b).bulk ≤ f.bulk := by
  by_cases hb : b ∈ f.layout
  · exact Nat.le_of_lt (bulk_dropBlock_lt hb)
  · obtain ⟨k, hk, heq⟩ := f.dropBlock_pared b
    have hsame : k.removeBlock b = k := by
      rw [removeBlock, List.erase_of_not_mem (by rwa [hk.layout])]
    rw [heq, hsame]
    exact hk.bulk_le

theorem shrinks_removeUnreachable {r : Func × Bool} (h : f.removeUnreachable = .ok r) :
    Shrinks f r := by
  rw [removeUnreachable_eq] at h
  obtain ⟨live, -, h⟩ := Outcome.bind_eq_ok.mp h
  obtain ⟨k, hk, h⟩ := Outcome.bind_eq_ok.mp h
  obtain rfl := Except.ok.inj h
  have hpared : Pared f k := .of_foldlM (fun b _ m m' hm => .clearTerminator hm) hk
  have hrest : ∀ (l : List BlockId) m, (l.foldl dropBlock m).bulk ≤ m.bulk := fun l m =>
    foldl_keeps (P := fun k : Func => k.bulk ≤ m.bulk)
      (fun k b _ hle => Nat.le_trans (k.bulk_dropBlock_le b) hle) (Nat.le_refl _)
  match hdead : f.layout.filter fun b => !live.contains b with
  | [] => exact .unreported hpared.bulk_le
  | d :: rest =>
    have hd : d ∈ f.layout := List.mem_of_mem_filter (hdead ▸ List.mem_cons_self)
    have hfirst := bulk_dropBlock_lt (f := k) (b := d) (by rwa [hpared.layout])
    exact .of_lt (Nat.lt_of_le_of_lt (hrest rest _) (Nat.lt_of_lt_of_le hfirst hpared.bulk_le)) _

theorem bulk_replaceValue {w : ValueId} (h : f.Ssa) (hb : b ∈ f.layout)
    (hv : v ∈ (f.block b).values) (hphi : (f.value v).op = .phi) :
    (f.replaceValue v (.value w)).bulk < f.bulk := by
  have hpared := Pared.replaceValue (f := f) v (.value w)
  refine hpared.bulk_lt hb ?_
  have hcount : ((f.replaceValue v (.value w)).phisOf b).length < (f.phisOf b).length := by
    have hpos : 0 < (f.block b).values.countP fun v => (f.value v).op == .phi :=
      List.countP_pos_iff.mpr ⟨v, hv, beq_iff_eq.mpr hphi⟩
    simp only [length_phisOf, hpared.op, values_replaceValue h hb hv, if_pos, List.countP_erase]
    rw [if_pos ⟨hv, beq_iff_eq.mpr hphi⟩]
    omega
  simp only [share]
  split
  · next hkind =>
    rw [if_pos (hpared.branch b hkind)]
    omega
  · omega

theorem shrinks_simplifyPhis (h : f.Ssa) : Shrinks f f.simplifyPhis := by
  rw [simplifyPhis_eq]
  refine (foldl_keeps (P := fun r : Func × Bool => r.1.Ssa ∧ Shrinks f r) (fun r b _ hr => ?_)
    ⟨h, .unreported (Nat.le_refl _)⟩).2
  refine foldl_keeps (P := fun r : Func × Bool => r.1.Ssa ∧ Shrinks f r) ?_ hr
  rintro ⟨k, ch⟩ v _ ⟨hk, hshrinks⟩
  refine ⟨(dropPhiAt_spec hk ch v).2.ssa hk, ?_⟩
  unfold dropPhiAt
  simp only
  split
  · exact hshrinks
  next hcond =>
  simp only [Bool.or_eq_true, bne_iff_ne, not_or, not_not, Option.isNone_iff_eq_none] at hcond
  obtain ⟨b, hb⟩ := Option.ne_none_iff_exists'.mp hcond.2
  obtain ⟨hbl, hv⟩ := (hk.listing.listed v b).mp hb
  rcases oneSource_of_onlySource hk hbl hv hcond.1 with hm | ⟨w, hw, hsource⟩
  · rw [hm]
    exact hshrinks
  · rw [hw]
    exact hshrinks.less (bulk_replaceValue hk hbl hv hcond.1) _

/-- Sums that differ in what one element of a list adds. -/
theorem sum_le_of_one {l : List BlockId} {w w' : BlockId → Nat} {d : Nat} (hl : l.Nodup)
    (hother : ∀ x, x ≠ b → w' x ≤ w x) (hone : w' b ≤ w b + d) :
    (l.map w').sum ≤ (l.map w).sum + d := by
  induction l with
  | nil => exact Nat.zero_le _
  | cons x l ih =>
    obtain ⟨hx, hl⟩ := List.nodup_cons.mp hl
    simp only [List.map_cons, List.sum_cons]
    by_cases hxb : x = b
    · subst hxb
      have hrest : (l.map w').sum ≤ (l.map w).sum :=
        List.sum_le_sum fun y hy => hother y fun heq => hx (heq ▸ hy)
      omega
    · have hthis := hother x hxb
      have hrest := ih hl
      omega

/-- The first block takes over the phis and perhaps the branch of the second, which goes. -/
theorem bulk_joined (hnd : f.layout.Nodup) (hc : c ∈ f.layout) :
    (f.joined b c).layout = f.layout.erase c ∧ (f.joined b c).bulk < f.bulk := by
  obtain ⟨k, hk⟩ : ∃ k, k = (f.block c).values.foldl (fun f v =>
      f.modifyValue v fun val => { val with block := some b }) f := ⟨_, rfl⟩
  have hpared : Pared f k := hk ▸ .unlisted _ _
  obtain ⟨m, hm⟩ : ∃ m, m = k.modifyBlock b (absorb (f.block c)) := ⟨_, rfl⟩
  obtain ⟨m', hm'⟩ : ∃ m', m' = ((f.block c).succs.foldl
      (fun f s => f.modifyBlock s (renamePred c b)) m).modifyBlock c blank := ⟨_, rfl⟩
  have hpared' : Pared m m' := by
    rw [hm']
    refine .trans (.of_foldl fun _ s _ => .block s ?_ ?_) (.block c ?_ ?_)
    · exact fun _ => .refl _
    · exact fun _ => id
    · exact fun _ => List.nil_sublist _
    · exact fun _ h => BlockKind.noConfusion h
  have hjoined : f.joined b c = m'.removeBlock c := by rw [joined, ← hk, ← hm, ← hm']
  have hlay : (f.joined b c).layout = f.layout.erase c := layout_joined
  have hother : ∀ x, x ≠ b → m.share x ≤ f.share x := fun x hx => by
    refine Nat.le_trans (Nat.le_of_eq ?_) (hpared.share_le x)
    simp only [share, length_phisOf, hm, block_modifyBlock_ne hx, value_modifyBlock]
  have hfirst : m.share b ≤ f.share b + (f.share c - 1) := by
    rcases Nat.lt_or_ge b k.numBlocks with hlt | hge
    · have hphis := (hpared.values b).countP_le (p := fun v => (f.value v).op == .phi)
      simp only [share, length_phisOf, hm, block_modifyBlock hlt, if_pos, value_modifyBlock,
        hpared.op, absorb, List.countP_append]
      omega
    · rw [hm, modifyBlock_of_le hge]
      exact Nat.le_add_right_of_le (hpared.share_le b)
  refine ⟨hlay, ?_⟩
  have hsum : f.share c + ((f.layout.erase c).map f.share).sum = f.bulk := by
    rw [bulk_eq_sum]
    exact List.sum_map_erase f.share hc
  have hpos : 0 < f.share c := Nat.succ_pos _
  have hle : (f.joined b c).bulk ≤ ((f.layout.erase c).map f.share).sum + (f.share c - 1) := by
    rw [bulk_eq_sum, hlay, hjoined]
    exact Nat.le_trans (List.sum_le_sum fun x _ => hpared'.share_le x)
      (sum_le_of_one (hnd.erase c) hother hfirst)
  omega

theorem bulk_mergeInto (hnd : f.layout.Nodup) (hc : c ∈ f.layout) (h : f.mergeInto b c = .ok g) :
    g.layout = f.layout.erase c ∧ g.bulk < f.bulk := by
  rw [mergeInto_eq] at h
  obtain ⟨k, hk, h⟩ := Outcome.bind_eq_ok.mp h
  obtain rfl := Except.ok.inj h
  have hpared : Pared f k := by
    refine .of_foldlM (fun v _ m m' hm => ?_) hk
    simp only [dropPhiOf] at hm
    split at hm
    · obtain ⟨o, -, hm⟩ := Outcome.bind_eq_ok.mp hm
      exact Except.ok.inj hm ▸ .replaceValue _ _
    · exact Except.ok.inj hm ▸ .refl _
  obtain ⟨hlay, hlt⟩ := bulk_joined (b := b) (hpared.layout ▸ hnd) (hpared.layout ▸ hc)
  exact ⟨hpared.layout ▸ hlay, Nat.lt_of_lt_of_le hlt hpared.bulk_le⟩

theorem shrinks_mergeBlocks (hnd : f.layout.Nodup) {r : Func × Bool} (h : f.mergeBlocks = .ok r) :
    Shrinks f r := by
  -- a block that is merged leaves the layout, and only such a one does
  have run : ∀ (l : List BlockId) k ch, l.Nodup → (∀ c ∈ l, c ∈ k.layout) → k.layout.Nodup →
      Shrinks f (k, ch) → l.foldlM mergeAt (k, ch) = .ok r → Shrinks f r := by
    intro l
    induction l with
    | nil => exact fun k ch _ _ _ hk h => Except.ok.inj h ▸ hk
    | cons c l ih =>
      intro k ch hl hin hknd hk h
      obtain ⟨hcl, hl⟩ := List.nodup_cons.mp hl
      obtain ⟨hc, hin⟩ := List.forall_mem_cons.mp hin
      rw [List.foldlM_cons] at h
      obtain ⟨t, ht, h⟩ := Outcome.bind_eq_ok.mp h
      obtain ⟨entry, -, ht⟩ := Outcome.bind_eq_ok.mp ht
      split at ht
      · exact ih k ch hl hin hknd hk (Except.ok.inj ht ▸ h)
      split at ht
      · split at ht
        · exact ih k ch hl hin hknd hk (Except.ok.inj ht ▸ h)
        · obtain ⟨m, hm, ht⟩ := Outcome.bind_eq_ok.mp ht
          obtain ⟨hlay, hlt⟩ := bulk_mergeInto hknd hc hm
          refine ih m true hl (fun x hx => ?_) (hlay ▸ hknd.erase c) (hk.less hlt _)
            (Except.ok.inj ht ▸ h)
          rw [hlay]
          exact (List.mem_erase_of_ne (ne_of_mem_of_not_mem hx hcl)).mpr (hin x hx)
      · exact ih k ch hl hin hknd hk (Except.ok.inj ht ▸ h)
  exact run f.layout f false hnd (fun _ => id) hnd (.unreported (Nat.le_refl _)) h

/-! ## Rounds -/

/-- One round, step by step: each step gives a result and shrinks what it was given. -/
def RoundShrinks (f : Func) : Prop :=
  ∃ r₁ r₂ r₄, f.foldBranches = .ok r₁ ∧ Shrinks f r₁ ∧
    r₁.1.removeUnreachable = .ok r₂ ∧ Shrinks r₁.1 r₂ ∧
    Shrinks r₂.1 r₂.1.simplifyPhis ∧
    r₂.1.simplifyPhis.1.mergeBlocks = .ok r₄ ∧ Shrinks r₂.1.simplifyPhis.1 r₄ ∧
    f.controlFlowRound = .ok (r₄.1, r₁.2 || r₂.2 || r₂.1.simplifyPhis.2 || r₄.2)

/-- So many rounds one after another, each of which reports a change. -/
inductive Rounds : Nat → Func → Func → Prop
  | none {f : Func} : Rounds 0 f f
  | more {n : Nat} {f g k : Func} :
      f.controlFlowRound = .ok (g, true) → Rounds n g k → Rounds (n + 1) f k

theorem exists_round (h : f.Ssa) : f.RoundShrinks ∧
    ∃ g ch, f.controlFlowRound = .ok (g, ch) ∧ g.Ssa ∧ Shrinks f (g, ch) := by
  obtain ⟨r₁, r₂, r₄, h₁, hs₁, h₂, hs₂, hs₃, h₄, hs₄, hround⟩ := controlFlowRound_steps h
  have hf₂ := hs₂.ssa (hs₁.ssa h)
  have hf₃ := hs₃.ssa hf₂
  have hk₁ := shrinks_foldBranches h₁
  have hk₂ := shrinks_removeUnreachable h₂
  have hk₃ := shrinks_simplifyPhis hf₂
  have hk₄ := shrinks_mergeBlocks hf₃.flow.layout_nodup h₄
  exact ⟨⟨r₁, r₂, r₄, h₁, hk₁, h₂, hk₂, hk₃, h₄, hk₄, hround⟩, _, _, hround, hs₄.ssa hf₃,
    ((hk₁.next hk₂).next hk₃).next hk₄⟩

namespace Rounds

/-- Each round takes something away. -/
theorem bulk_le (h : Rounds n f k) (hf : f.Ssa) : k.Ssa ∧ n + k.bulk ≤ f.bulk := by
  induction h with
  | none => exact ⟨hf, by omega⟩
  | @more n f g k hround _ ih =>
    obtain ⟨-, g', ch, hg', hssa, hshrinks⟩ := exists_round hf
    obtain ⟨rfl, rfl⟩ := Prod.mk.inj (Except.ok.inj (hround.symm.trans hg'))
    obtain ⟨hk, hle⟩ := ih hssa
    have hlt : g.bulk < f.bulk := hshrinks.2 rfl
    exact ⟨hk, by omega⟩

/-- The loop follows the rounds up to one that reports nothing. -/
theorem run (h : Rounds n f g) (hrest : g.controlFlowRound = .ok (g, false)) (ch : Bool) :
    ∀ fuel > n, controlFlowRounds fuel f ch = .ok (g, ch || decide (0 < n)) := by
  induction h generalizing ch with
  | none =>
    intro fuel hfuel
    obtain ⟨fuel, rfl⟩ := Nat.exists_eq_succ_of_ne_zero (Nat.ne_zero_of_lt hfuel)
    simp [controlFlowRounds, hrest]
  | more hround _ ih =>
    intro fuel hfuel
    obtain ⟨fuel, rfl⟩ := Nat.exists_eq_succ_of_ne_zero (Nat.ne_zero_of_lt hfuel)
    simp [controlFlowRounds, hround, ih hrest true fuel (by omega)]

end Rounds

theorem exists_rounds (h : f.Ssa) : ∃ n g, Rounds n f g ∧ g.controlFlowRound = .ok (g, false) := by
  induction hm : f.bulk using Nat.strong_induction_on generalizing f with
  | _ m ih =>
    obtain ⟨-, g, ch, hg, hssa, hshrinks⟩ := exists_round h
    cases ch with
    | false =>
      obtain rfl := eq_of_controlFlowRound hg
      exact ⟨0, f, .none, hg⟩
    | true =>
      obtain ⟨n, k, hrounds, hrest⟩ := ih g.bulk (hm ▸ hshrinks.2 rfl) hssa rfl
      exact ⟨n + 1, k, .more hg hrounds, hrest⟩

/-! ## The bound on the rounds -/

/-- The tables bound what is laid out and listed. -/
theorem bulk_le_tables (h : f.Ssa) : f.bulk ≤ 2 * f.numBlocks + f.numValues := by
  have hblocks : f.layout.length ≤ f.numBlocks := by
    have hsub : f.layout.Subperm (List.range f.numBlocks) :=
      h.flow.layout_nodup.subperm fun b hb => List.mem_range.mpr (h.flow.lt b hb)
    simpa using hsub.length_le
  have hbranches := f.layout.countP_le_length (p := fun b => (f.block b).kind = .branch)
  have hlisted : (f.layout.flatMap fun b => (f.block b).values).Nodup := by
    refine List.nodup_flatMap.mpr ⟨h.listing.nodup, h.flow.layout_nodup.imp_of_mem ?_⟩
    intro b c hb hc hne v hvb hvc
    have hvb' := (h.listing.listed v b).mpr ⟨hb, hvb⟩
    have hvc' := (h.listing.listed v c).mpr ⟨hc, hvc⟩
    exact hne (Option.some.inj (hvb'.symm.trans hvc'))
  have hvalues : (f.layout.flatMap fun b => (f.block b).values).length ≤ f.numValues := by
    have hsub : List.Subperm _ (List.range f.numValues) := hlisted.subperm fun v hv => by
      obtain ⟨b, hb, hv⟩ := List.mem_flatMap.mp hv
      exact List.mem_range.mpr (h.listing.lt hb hv)
    simpa using hsub.length_le
  have hphis : (f.layout.map fun b => (f.phisOf b).length).sum ≤
      (f.layout.flatMap fun b => (f.block b).values).length := by
    rw [List.length_flatMap]
    exact List.sum_le_sum fun b _ => length_phisOf (f := f) ▸ List.countP_le_length
  unfold bulk
  omega

/-- Simplifying control flow ends, whatever bounds its loop. None of the four steps adds to the branches,
phis and blocks of a function, and one that reports a change takes some away; so it is in every round
that the loop comes to, and each round that reports a change leaves at least one less. After at most
as many rounds as there are branches, phis and blocks one reports nothing, and with it the loop stops. -/
theorem control_flow_rounds_end (h : f.Consistent) :
    (∃ r, f.foldBranches = .ok r ∧ Shrinks f r) ∧ (∃ r, f.removeUnreachable = .ok r ∧ Shrinks f r) ∧
    Shrinks f f.simplifyPhis ∧ (∀ r, f.mergeBlocks = .ok r → Shrinks f r) ∧
    (∀ n k, Rounds n f k → n + k.bulk ≤ f.bulk ∧ k.RoundShrinks) ∧
    ∃ n g, Rounds n f g ∧ g.controlFlowRound = .ok (g, false) ∧
      (∀ fuel > n, controlFlowRounds fuel f false = .ok (g, decide (0 < n))) ∧
      f.simplifyControlFlow = .ok (g, decide (0 < n)) := by
  have hssa := h.ssa
  obtain ⟨n, g, hrounds, hrest⟩ := exists_rounds hssa
  have hrun := hrounds.run hrest false
  have hn := (hrounds.bulk_le hssa).2
  have htables := bulk_le_tables hssa
  refine ⟨?_, ?_, shrinks_simplifyPhis hssa, fun r hr => shrinks_mergeBlocks hssa.flow.layout_nodup hr,
    fun m k hk => ⟨(hk.bulk_le hssa).2, (exists_round (hk.bulk_le hssa).1).1⟩, n, g, hrounds, hrest,
    hrun, hrun _ (by omega)⟩
  · obtain ⟨k, ch, hk, -⟩ := foldBranches_reshapes hssa
    exact ⟨_, hk, shrinks_foldBranches hk⟩
  · obtain ⟨k, ch, -, hk, -⟩ := removeUnreachable_spec hssa
    exact ⟨_, hk, shrinks_removeUnreachable hk⟩

/-- The phi is the second branch's condition. It has one source only when the first branch is folded, so
the second branch is folded a round later. -/
def twice : Func where
  name := "twice"
  ret := .i1
  params := []
  values := #[
    { op := .const, type := .i1, block := some 0, aux := 1 },
    { op := .const, type := .i1, block := some 2, aux := 0 },
    { op := .phi, type := .i1, block := some 3, args := [.value 0, .value 1] }]
  blocks := #[
    { values := [0], kind := .branch, control := .value 0, succs := [1, 2] },
    { kind := .jump, succs := [3], preds := [0] },
    { values := [1], kind := .jump, succs := [3], preds := [0] },
    { values := [2], kind := .branch, control := .value 2, succs := [4, 5], preds := [1, 2] },
    { kind := .ret, control := .value 0, preds := [3] },
    { kind := .ret, control := .value 2, preds := [3] }]
  layout := [0, 1, 2, 3, 4, 5]

theorem control_flow_rounds_end_twice : twice.Consistent ∧ twice.bulk = 9 ∧
    ∃ n g, 0 < n ∧ n + g.bulk ≤ 9 ∧ Rounds n twice g ∧ g.controlFlowRound = .ok (g, false) ∧
      twice.simplifyControlFlow = .ok (g, true) ∧ g.layout = [0] := by
  have hc : twice.Consistent := by decide +kernel
  obtain ⟨-, -, -, -, hshrinks, n, g, hrounds, hrest, -, hrun⟩ := control_flow_rounds_end hc
  have hends : twice.simplifyControlFlow.toOption.map (fun r => (r.1.layout, r.2)) =
      some ([0], true) := by decide +kernel
  rw [hrun] at hends
  obtain ⟨hlay, hn⟩ : g.layout = [0] ∧ decide (0 < n) = true :=
    Prod.mk.inj (Option.some.inj hends)
  exact ⟨hc, by decide +kernel, n, g, of_decide_eq_true hn, (hshrinks n g hrounds).1, hrounds, hrest,
    by rw [hrun, hn], hlay⟩

end SsaJit.Func
