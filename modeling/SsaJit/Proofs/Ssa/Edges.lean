import Mathlib.Data.List.Perm.Basic
import SsaJit.Proofs.Ssa.Tidy

/-! Taking one edge away: a predecessor goes together with the phi arguments that belong to it, and a
branch becomes a jump. With fewer ways for control to go, whatever dominated still does. -/

namespace SsaJit.Func

variable {f g : Func} {b c d s p : BlockId} {u v w x : ValueId} {o : Operand}

/-! ## Lists in step -/

section lists

variable {α β : Type}

theorem zip_eraseIdx (l : List α) (r : List β) (i : Nat) :
    (l.eraseIdx i).zip (r.eraseIdx i) = (l.zip r).eraseIdx i := by
  induction l generalizing r i with
  | nil => simp
  | cons a l ih =>
    cases r with
    | nil => simp
    | cons b r =>
      cases i with
      | zero => simp
      | succ i => simp [ih]

theorem count_eraseIdx [DecidableEq α] {l : List α} {i : Nat} {a : α} (h : l[i]? = some a)
    (x : α) : (l.eraseIdx i).count x + (if x = a then 1 else 0) = l.count x := by
  obtain ⟨hi, rfl⟩ := List.getElem?_eq_some_iff.mp h
  rw [← (List.getElem_cons_eraseIdx_perm hi).count_eq, List.count_cons]
  by_cases hx : l[i] = x
  · simp [hx]
  · simp [hx, Ne.symm hx]

end lists

/-! ## Places of predecessors -/

theorem mem_predPlaces_go {l : List BlockId} {n k i : Nat} :
    (((l.zipIdx k).filter fun x => x.1 == b).map (·.2))[n]? = some i ↔
      ∃ j, i = k + j ∧ l[j]? = some b ∧ (l.take j).count b = n := by
  induction l generalizing n k with
  | nil => simp
  | cons a l ih =>
    rw [List.zipIdx_cons]
    by_cases hab : a = b
    · subst hab
      rw [List.filter_cons_of_pos (by simp), List.map_cons]
      cases n with
      | zero =>
        constructor
        · intro h
          exact ⟨0, by simpa using h.symm, by simp, by simp⟩
        · rintro ⟨j, rfl, hj, hcount⟩
          cases j with
          | zero => simp
          | succ j => simp at hcount
      | succ n =>
        rw [List.getElem?_cons_succ, ih]
        constructor
        · rintro ⟨j, rfl, hj, hcount⟩
          exact ⟨j + 1, by omega, by simpa using hj, by simp [hcount]⟩
        · rintro ⟨j, rfl, hj, hcount⟩
          cases j with
          | zero => simp at hcount
          | succ j => exact ⟨j, by omega, by simpa using hj, by simpa using hcount⟩
    · rw [List.filter_cons_of_neg (by simpa using hab), ih]
      constructor
      · rintro ⟨j, rfl, hj, hcount⟩
        exact ⟨j + 1, by omega, by simpa using hj, by simp [hab, hcount]⟩
      · rintro ⟨j, rfl, hj, hcount⟩
        cases j with
        | zero => exact absurd (by simpa using hj) hab
        | succ j => exact ⟨j, by omega, by simpa using hj, by simpa [hab] using hcount⟩

/-- The `n`-th place of a block among predecessors is the one that has `n` before it. -/
theorem getElem?_predPlaces {n i : Nat} : (f.predPlaces s b)[n]? = some i ↔
    (f.block s).preds[i]? = some b ∧ ((f.block s).preds.take i).count b = n := by
  rw [predPlaces, mem_predPlaces_go]
  simp

theorem length_predPlaces : (f.predPlaces s b).length = (f.block s).preds.count b := by
  have hgo : ∀ (l : List BlockId) (k : Nat),
      (((l.zipIdx k).filter fun x => x.1 == b).map (·.2)).length = l.count b := by
    intro l
    induction l with
    | nil => simp
    | cons a l ih =>
      intro k
      rw [List.zipIdx_cons, List.filter_cons]
      by_cases hab : a = b
      · simpa [hab] using ih (k + 1)
      · simpa [hab] using ih (k + 1)
  exact hgo _ 0

/-! ## Dropping a predecessor -/

/-- `g` is `f` without the `i`-th predecessor of `b` and what the phis of `b` have for it. -/
structure PredDropped (f g : Func) (b : BlockId) (i : Nat) : Prop where
  layout : g.layout = f.layout
  ret : g.ret = f.ret
  numValues : g.numValues = f.numValues
  numBlocks : g.numBlocks = f.numBlocks
  block : ∀ c, g.block c =
    if c = b then { f.block b with preds := (f.block b).preds.eraseIdx i } else f.block c
  value : ∀ v, g.value v = if v ∈ (f.block b).values ∧ (f.value v).op = .phi
    then { f.value v with args := (f.value v).args.eraseIdx i } else f.value v

/-- What `removePred` does with one value. -/
def dropStep (i : Nat) (f : Func) (x : ValueId × Value) : Outcome Func := do
  if x.2.op == .phi then
    let args ← dropAt x.2.args i
    return f.modifyValue x.1 fun v => { v with args }
  else return f

theorem dropStep_foldlM {i : Nat} {l : List ValueId} (hl : l.Nodup)
    (hlt : ∀ v ∈ l, v < f.numValues)
    (hargs : ∀ v ∈ l, (f.value v).op = .phi → i < (f.value v).args.length) :
    ∀ k : Func, k.numValues = f.numValues → ∃ g,
      (l.map fun v => (v, f.value v)).foldlM (dropStep i) k = .ok g ∧ g.layout = k.layout ∧
      g.ret = k.ret ∧ g.numValues = k.numValues ∧ g.numBlocks = k.numBlocks ∧
      (∀ c, g.block c = k.block c) ∧
      ∀ v, g.value v = if v ∈ l ∧ (f.value v).op = .phi
        then { k.value v with args := (f.value v).args.eraseIdx i } else k.value v := by
  induction l with
  | nil => exact fun k _ => ⟨k, rfl, rfl, rfl, rfl, rfl, fun _ => rfl, by simp⟩
  | cons y l ih =>
    intro k hk
    obtain ⟨hy, hl⟩ := List.nodup_cons.mp hl
    have ih := ih hl (fun v hv => hlt v (List.mem_cons_of_mem _ hv))
      fun v hv => hargs v (List.mem_cons_of_mem _ hv)
    by_cases hphi : (f.value y).op = .phi
    · have hylt : y < k.numValues := hk ▸ hlt y List.mem_cons_self
      obtain ⟨g, hg, hlay, hret, hnv, hnb, hblock, hval⟩ :=
        ih (k.modifyValue y fun v => { v with args := (f.value y).args.eraseIdx i }) (by simpa using hk)
      have hstep : dropStep i k (y, f.value y) =
          .ok (k.modifyValue y fun v => { v with args := (f.value y).args.eraseIdx i }) := by
        simp [dropStep, hphi, dropAt, hargs y List.mem_cons_self hphi]
      refine ⟨g, by rw [List.map_cons, List.foldlM_cons, hstep]; exact hg, hlay, hret,
        by simpa using hnv, hnb, hblock, fun v => ?_⟩
      rw [hval, value_modifyValue hylt]
      by_cases hvy : v = y
      · subst hvy
        simp [hy, hphi]
      · simp [hvy]
    · obtain ⟨g, hg, hlay, hret, hnv, hnb, hblock, hval⟩ := ih k hk
      have hstep : dropStep i k (y, f.value y) = .ok k := by simp [dropStep, hphi]
      refine ⟨g, by rw [List.map_cons, List.foldlM_cons, hstep]; exact hg, hlay, hret, hnv, hnb,
        hblock, fun v => ?_⟩
      rw [hval]
      by_cases hvy : v = y
      · subst hvy
        simp [hy, hphi]
      · simp [hvy]

theorem removePred_spec {i : Nat} (hb : b < f.numBlocks) (hnd : (f.block b).values.Nodup)
    (hlt : ∀ v ∈ (f.block b).values, v < f.numValues) (hi : i < (f.block b).preds.length)
    (hargs : ∀ v ∈ (f.block b).values, (f.value v).op = .phi → i < (f.value v).args.length) :
    ∃ g, f.removePred b i = .ok g ∧ PredDropped f g b i := by
  have hblock : ∀ c, (f.modifyBlock b fun blk =>
      { blk with preds := (f.block b).preds.eraseIdx i }).block c = if c = b then
      { f.block b with preds := (f.block b).preds.eraseIdx i } else f.block c :=
    fun c => block_modifyBlock hb
  obtain ⟨g, hg, hlay, hret, hnv, hnb, hblk, hval⟩ := dropStep_foldlM (i := i) hnd hlt hargs
    (f.modifyBlock b fun blk => { blk with preds := (f.block b).preds.eraseIdx i }) rfl
  refine ⟨g, ?_, hlay, hret, hnv, by rw [hnb]; simp, fun c => by rw [hblk, hblock], hval⟩
  have hvals : (f.modifyBlock b fun blk => { blk with preds := (f.block b).preds.eraseIdx i }).valuesOf b =
      (f.block b).values.map fun v => (v, f.value v) := by
    simp [valuesOf, hblock]
  unfold removePred
  rw [if_neg (by omega)]
  simp only [Int.toNat_natCast, dropAt, if_pos hi, Outcome.ok_bind]
  rw [hvals]
  exact hg

theorem PredDropped.op {i : Nat} (h : PredDropped f g b i) : (g.value v).op = (f.value v).op := by
  rw [h.value]; split <;> rfl

theorem PredDropped.head {i : Nat} (h : PredDropped f g b i) (v : ValueId) :
    ∃ a, g.value v = { f.value v with args := a } := by
  rw [h.value]
  split
  · exact ⟨_, rfl⟩
  · exact ⟨_, rfl⟩

/-! ## A branch that becomes a jump -/

/-- `g` is `f` with a jump along the `k`-th edge, to `keep`, for the branch at the end of `b`, and
without the `i`-th predecessor of `drop`, which stands for the other edge. -/
structure BranchFolded (f g : Func) (b : BlockId) (k : Nat) (keep drop : BlockId) (i : Nat) :
    Prop where
  two : k < 2 ∧ (f.block b).succs.length = 2
  kept : (f.block b).succs[k]? = some keep
  dropped : (f.block b).succs[1 - k]? = some drop
  pred : (f.block drop).preds[i]? = some b
  place : ((f.block drop).preds.take i).count b = ((f.block b).succs.take (1 - k)).count drop
  layout : g.layout = f.layout
  ret : g.ret = f.ret
  numValues : g.numValues = f.numValues
  numBlocks : g.numBlocks = f.numBlocks
  preds : ∀ c, (g.block c).preds =
    if c = drop then (f.block c).preds.eraseIdx i else (f.block c).preds
  values : ∀ c, (g.block c).values = (f.block c).values
  own : ∀ c, (g.block c).isForeign = (f.block c).isForeign
  jump : (g.block b).kind = .jump ∧ (g.block b).control = .missing ∧ (g.block b).succs = [keep]
  others : ∀ c, c ≠ b → (g.block c).kind = (f.block c).kind ∧
    (g.block c).control = (f.block c).control ∧ (g.block c).succs = (f.block c).succs
  value : ∀ v, g.value v = if v ∈ (f.block drop).values ∧ (f.value v).op = .phi
    then { f.value v with args := (f.value v).args.eraseIdx i } else f.value v

theorem Ssa.branch_succs (h : f.Ssa) (hb : b ∈ f.layout) (hk : (f.block b).kind = .branch) :
    ∃ yes no, (f.block b).succs = [yes, no] := by
  have hends := h.ends b hb
  simp only [EndsWell, hk] at hends
  exact List.length_eq_two.mp hends.1

/-- The edge that is not kept, among the predecessors of its target. -/
theorem exists_dropped (h : f.Flow) (hb : b ∈ f.layout) {k : Nat} {keep drop : BlockId}
    (hk : k < 2) (hlen : (f.block b).succs.length = 2) (hkeep : (f.block b).succs[k]? = some keep)
    (hdrop : (f.block b).succs[1 - k]? = some drop) :
    ∃ i, (f.predPlaces drop b)[if drop = keep ∧ k = 0 then 1 else 0]? = some i ∧
      (f.block drop).preds[i]? = some b ∧ ((f.block drop).preds.take i).count b =
        ((f.block b).succs.take (1 - k)).count drop := by
  obtain ⟨yes, no, hs⟩ := List.length_eq_two.mp hlen
  have hdl : drop ∈ f.layout := h.succs_mem b hb drop (List.mem_of_getElem? hdrop)
  have hcount := h.edges b hb drop hdl
  have hplace : (if drop = keep ∧ k = 0 then 1 else 0) =
      ((f.block b).succs.take (1 - k)).count drop := by
    match k, hk with
    | 0, _ =>
      obtain rfl : yes = keep := by simpa [hs] using hkeep
      by_cases hd : drop = yes
      · simp [hs, hd]
      · simp [hs, hd, Ne.symm hd]
    | 1, _ => simp
  have hlt : ((f.block b).succs.take (1 - k)).count drop < (f.predPlaces drop b).length := by
    rw [length_predPlaces, ← hcount]
    match k, hk with
    | 0, _ =>
      obtain rfl : no = drop := by simpa [hs] using hdrop
      simp [hs, List.count_cons]
    | 1, _ =>
      obtain rfl : yes = drop := by simpa [hs] using hdrop
      simp [hs]
  obtain ⟨i, hi⟩ : ∃ i, (f.predPlaces drop b)[((f.block b).succs.take (1 - k)).count drop]? = some i :=
    ⟨_, List.getElem?_eq_getElem hlt⟩
  exact ⟨i, by rw [hplace]; exact hi, getElem?_predPlaces.mp hi⟩

theorem foldBranch_spec (h : f.Ssa) (hb : b ∈ f.layout) (hkind : (f.block b).kind = .branch)
    {k : Nat} (hk : k < 2) :
    ∃ g keep drop i, f.foldBranch b k = .ok g ∧ BranchFolded f g b k keep drop i := by
  obtain ⟨yes, no, hs⟩ := h.branch_succs hb hkind
  have hlen : (f.block b).succs.length = 2 := by simp [hs]
  obtain ⟨keep, hkeep⟩ : ∃ keep, (f.block b).succs[k]? = some keep :=
    ⟨_, List.getElem?_eq_getElem (by omega)⟩
  obtain ⟨drop, hdrop⟩ : ∃ drop, (f.block b).succs[1 - k]? = some drop :=
    ⟨_, List.getElem?_eq_getElem (by omega)⟩
  obtain ⟨i, hplace, hpred, hcount⟩ := exists_dropped h.flow hb hk hlen hkeep hdrop
  have hdl : drop ∈ f.layout := h.flow.succs_mem b hb drop (List.mem_of_getElem? hdrop)
  have hi : i < (f.block drop).preds.length := (List.getElem?_eq_some_iff.mp hpred).1
  obtain ⟨m, hm, hdropped⟩ := removePred_spec (h.flow.lt drop hdl) (h.listing.nodup drop hdl)
    (fun v hv => h.listing.lt hdl hv) hi fun v hv hp => by rwa [(h.phis drop hdl v hv hp).1]
  have hblt : b < m.numBlocks := hdropped.numBlocks ▸ h.flow.lt b hb
  refine ⟨m.modifyBlock b fun blk =>
    { blk with kind := .jump, control := .missing, succs := [keep] }, keep, drop, i, ?_,
    ⟨⟨hk, hlen⟩, hkeep, hdrop, hpred, hcount, hdropped.layout, hdropped.ret, hdropped.numValues,
      by simpa using hdropped.numBlocks, fun c => ?_, fun c => ?_, fun c => ?_, ?_,
      fun c hc => ?_, hdropped.value⟩⟩
  · simp only [foldBranch, Outcome.at?, hkeep, hdrop, hplace, Outcome.ok_bind, hm]
    rfl
  iterate 3
    rw [block_modifyBlock hblt]
    split
    · next heq =>
      subst heq
      rw [hdropped.block]
      split <;> simp_all
    · rw [hdropped.block]
      split <;> simp_all
  · rw [block_modifyBlock hblt, if_pos rfl]
    exact ⟨rfl, rfl, rfl⟩
  · rw [block_modifyBlock hblt, if_neg hc, hdropped.block]
    split
    · next heq => rw [heq]; exact ⟨rfl, rfl, rfl⟩
    · exact ⟨rfl, rfl, rfl⟩

namespace BranchFolded

variable {keep drop : BlockId} {i k : Nat}

theorem head (h : BranchFolded f g b k keep drop i) (v : ValueId) :
    ∃ a, g.value v = { f.value v with args := a } := by
  rw [h.value]
  split
  · exact ⟨_, rfl⟩
  · exact ⟨_, rfl⟩

theorem op (h : BranchFolded f g b k keep drop i) : (g.value v).op = (f.value v).op := by
  obtain ⟨a, ha⟩ := h.head v
  rw [ha]

theorem operandType (h : BranchFolded f g b k keep drop i) :
    g.operandType o = f.operandType o := by
  cases o with
  | value v =>
    obtain ⟨a, ha⟩ := h.head v
    change (g.value v).type = (f.value v).type
    rw [ha]
  | missing => rfl
  | foreign k => rfl

theorem start (h : BranchFolded f g b k keep drop i) : g.start = f.start := by
  rw [Func.start, h.layout]
  rfl

/-- The edges that the branch had. -/
theorem count_succs (h : BranchFolded f g b k keep drop i) (x : BlockId) :
    (f.block b).succs.count x = (if x = keep then 1 else 0) + if x = drop then 1 else 0 := by
  obtain ⟨yes, no, hs⟩ := List.length_eq_two.mp h.two.2
  have hkept := h.kept
  have hdropped := h.dropped
  rw [hs] at hkept hdropped ⊢
  match k, h.two.1 with
  | 0, _ =>
    obtain rfl : yes = keep := by simpa using hkept
    obtain rfl : no = drop := by simpa using hdropped
    simp only [List.count_cons, List.count_nil, beq_iff_eq, eq_comm (b := x)]
    omega
  | 1, _ =>
    obtain rfl : no = keep := by simpa using hkept
    obtain rfl : yes = drop := by simpa using hdropped
    simp only [List.count_cons, List.count_nil, beq_iff_eq, eq_comm (b := x)]
    omega

theorem narrows (h : BranchFolded f g b k keep drop i) : Narrows f g := by
  refine narrows_of_next h.start fun x y hy => ?_
  by_cases hx : x = b
  · subst hx
    rw [next, h.jump.2.2, List.mem_singleton] at hy
    exact hy ▸ List.mem_of_getElem? h.kept
  · rw [next, (h.others x hx).2.2] at hy
    exact hy

theorem stays (h : BranchFolded f g b k keep drop i) (v : ValueId) : Stays f g v := by
  obtain ⟨a, ha⟩ := h.head v
  exact .of_eq (by rw [ha]) (by rw [ha])

theorem flow (h : BranchFolded f g b k keep drop i) (hf : f.Flow) : g.Flow := by
  have hpred := h.pred
  have hkeep : keep ∈ (f.block b).succs := List.mem_of_getElem? h.kept
  refine ⟨h.layout ▸ hf.layout_ne, h.layout ▸ hf.layout_nodup, fun c hc => ?_, fun c hc => ?_,
    fun c hc x hx => ?_, fun c hc x hx => ?_, fun c hc x hx => ?_, ?_⟩
  · rw [h.layout] at hc
    exact h.numBlocks ▸ hf.lt c hc
  · rw [h.layout] at hc
    exact (h.own c).trans (hf.own c hc)
  · rw [h.layout] at hc ⊢
    by_cases hcb : c = b
    · subst hcb
      rw [h.jump.2.2, List.mem_singleton] at hx
      exact hf.succs_mem c hc x (hx ▸ hkeep)
    · rw [(h.others c hcb).2.2] at hx
      exact hf.succs_mem c hc x hx
  · rw [h.layout] at hc ⊢
    rw [h.preds] at hx
    split at hx
    · exact hf.preds_mem c hc x (List.mem_of_mem_eraseIdx hx)
    · exact hf.preds_mem c hc x hx
  · rw [h.layout] at hc hx
    have hedge := hf.edges c hc x hx
    rw [h.preds]
    by_cases hcb : c = b
    · -- the edge not kept is gone at both ends
      subst hcb
      rw [h.count_succs] at hedge
      rw [h.jump.2.2, List.count_singleton]
      simp only [beq_iff_eq, eq_comm (a := keep)]
      by_cases hxd : x = drop
      · subst hxd
        have := count_eraseIdx hpred c
        simp only [if_true] at this hedge ⊢
        omega
      · simp only [hxd, if_false, Nat.add_zero] at hedge ⊢
        exact hedge
    · rw [(h.others c hcb).2.2]
      split
      · next hxd =>
        subst hxd
        have := count_eraseIdx hpred c
        simp only [hcb, if_false, Nat.add_zero] at this
        omega
      · exact hedge
  · rw [h.start, h.preds, if_neg]
    · exact hf.entry_preds
    · intro heq
      rw [← heq, hf.entry_preds] at hpred
      simp at hpred

theorem ssa (h : BranchFolded f g b k keep drop i) (hf : f.Ssa) (hb : b ∈ f.layout) : g.Ssa := by
  have hn := h.narrows
  have hend : ∀ {o c}, f.AtEnd o c → g.AtEnd o c := fun ho => ho.stays hn fun v _ => h.stays v
  refine ⟨h.flow hf.flow, ⟨fun v c => ?_, fun c hc => ?_⟩, fun v hv => ?_,
    fun c hc => ?_, fun c hc y p hs hp => ?_, fun c hc v hv hp => ?_, fun c hc v hv hp => ?_⟩
  · obtain ⟨a, ha⟩ := h.head v
    rw [ha, h.layout, h.values]
    exact hf.listing.listed v c
  · rw [h.values]
    exact hf.listing.nodup c (h.layout ▸ hc)
  · rw [h.start, h.values] at hv
    rw [h.op]
    exact hf.entry_phis v hv
  · rw [h.layout] at hc
    by_cases hcb : c = b
    · subst hcb
      simp [EndsWell, h.jump]
    · obtain ⟨hkind, hctl, hsucc⟩ := h.others c hcb
      refine (hf.ends c hc).transfer hkind (by rw [hsucc]) h.ret (by rw [hctl]) fun ho => ?_
      rw [hctl]
      exact ⟨hend ho, h.operandType⟩
  · rw [h.op] at hp ⊢
    rw [h.values] at hs
    exact hf.phisFirst c (h.layout ▸ hc) y p hs hp
  · rw [h.layout] at hc
    rw [h.op] at hp
    rw [h.values] at hv
    obtain ⟨hlen, hall⟩ := hf.phis c hc v hv hp
    unfold PhiWell
    rw [h.value, h.preds]
    by_cases hcd : c = drop
    · subst hcd
      rw [if_pos ⟨hv, hp⟩, if_pos rfl]
      refine ⟨by simp [List.length_eraseIdx, hlen], fun z hz => ?_⟩
      rw [zip_eraseIdx] at hz
      obtain ⟨hty, hze⟩ := hall z (List.mem_of_mem_eraseIdx hz)
      exact ⟨h.operandType.trans hty, hend hze⟩
    · have hvd : ¬(v ∈ (f.block drop).values ∧ (f.value v).op = .phi) := by
        rintro ⟨hvd, _⟩
        exact hcd (hf.listing.unique hc
          (hf.flow.succs_mem b hb drop (List.mem_of_getElem? h.dropped)) hv hvd)
      rw [if_neg hvd, if_neg hcd]
      exact ⟨hlen, fun z hz => ⟨h.operandType.trans (hall z hz).1, hend (hall z hz).2⟩⟩
  · rw [h.layout] at hc
    rw [h.op] at hp
    rw [h.values] at hv
    obtain ⟨hbefore, htyped⟩ := hf.values c hc v hv hp
    have hts : g.argTypes (f.value v) = f.argTypes (f.value v) :=
      List.map_congr_left fun o _ => h.operandType
    unfold ValueWell
    rw [h.value, if_neg fun hphi => hp hphi.2, h.start, hts]
    exact ⟨fun hparam o ho => (hbefore hparam o ho).stays hn (fun w _ => h.stays w)
      fun w _ _ hs => by rwa [h.values], htyped⟩

theorem tidy {strict : Prop} (h : BranchFolded f g b k keep drop i) (hf : f.Tidy strict) :
    g.Tidy strict := by
  have hop : ∀ {o}, f.NoStore o → g.NoStore o := fun ho v hv => h.op ▸ ho v hv
  have hargs : ∀ v o, o ∈ (g.value v).args → o ∈ (f.value v).args := by
    intro v o ho
    rw [h.value] at ho
    split at ho
    · exact List.mem_of_mem_eraseIdx ho
    · exact ho
  refine tidy_of (fun c hc v hv => ?_) (storesUnused_of (fun c hc v hv o ho => ?_) fun c hc => ?_)
    fun hs c hc hbr hret => ?_
  · rw [h.layout] at hc
    rw [h.values] at hv
    have hy := hf.value hc hv
    rw [h.value]
    split
    · next hphi => exact ⟨hy.consts, hy.type, fun _ hp => by simp [hphi.2] at hp⟩
    · exact hy
  · rw [h.layout] at hc
    rw [h.values] at hv
    exact hop (hf.noStore_arg hc hv (hargs v o ho))
  · rw [h.layout] at hc
    by_cases hcb : c = b
    · subst hcb
      rw [h.jump.2.1]
      exact fun v hv => by cases hv
    · rw [(h.others c hcb).2.1]
      exact hop (hf.stores.control hc)
  · rw [h.layout] at hc
    by_cases hcb : c = b
    · subst hcb
      exact h.jump.2.1
    · obtain ⟨hkind, hctl, _⟩ := h.others c hcb
      rw [hkind] at hbr hret
      rw [hctl]
      exact hf.ends hs c hc hbr hret

end BranchFolded

end SsaJit.Func
