import SsaJit.Proofs.Ssa.Answers
import SsaJit.Proofs.Ssa.Trim

/-! Edges that are joined at both ends, without the rest of good form: when a predecessor can be taken
away, and what is left of the phis when a block loses its end. -/

namespace SsaJit.Func

variable {f g : Func} {b c p s : BlockId} {v : ValueId} {i : Nat}

/-- Every edge is entered as often at its one end as at its other. -/
def EdgesMeet (f : Func) : Prop :=
  ∀ b c, (f.block b).succs.count c = (f.block c).preds.count b

/-- What a block lists names that block, and is listed there once. -/
structure Homed (f : Func) : Prop where
  home : ∀ b, ∀ v ∈ (f.block b).values, (f.value v).block = some b
  nodup : ∀ b, (f.block b).values.Nodup

namespace Homed

theorem unique (h : f.Homed) (hb : v ∈ (f.block b).values) (hc : v ∈ (f.block c).values) : b = c :=
  Option.some.inj ((h.home b v hb).symm.trans (h.home c v hc))

theorem listApart (h : f.Homed) (c b : BlockId) : f.ListApart c b := fun _ hc hb => h.unique hc hb

theorem lt (h : f.Homed) (hv : v ∈ (f.block b).values) : v < f.numValues := by
  by_contra hge
  have hblock := h.home b v hv
  rw [value_of_le (Nat.le_of_not_lt hge)] at hblock
  cases hblock

end Homed

theorem PhisOnly.homed (h : PhisOnly f g) (hf : f.Homed) : g.Homed where
  home b v hv := by
    obtain ⟨a, ha⟩ := h.head v
    rw [ha]
    exact hf.home b v (h.values b ▸ hv)
  nodup b := h.values b ▸ hf.nodup b

/-! ## Ends that exist -/

theorem lt_of_mem_preds (h : p ∈ (f.block b).preds) : b < f.numBlocks := by
  by_contra hge
  rw [block_of_le (Nat.le_of_not_lt hge)] at h
  cases h

theorem lt_of_mem_succs (h : s ∈ (f.block b).succs) : b < f.numBlocks := by
  by_contra hge
  rw [block_of_le (Nat.le_of_not_lt hge)] at h
  cases h

theorem EdgesMeet.mem_iff (h : f.EdgesMeet) : s ∈ (f.block b).succs ↔ b ∈ (f.block s).preds := by
  rw [← List.count_pos_iff, h b s, List.count_pos_iff]

theorem EdgesMeet.lt (h : f.EdgesMeet) (hs : s ∈ (f.block b).succs) : s < f.numBlocks :=
  lt_of_mem_preds (h.mem_iff.mp hs)

/-! ## When a predecessor can be taken away -/

theorem dropStep_lt {l : List ValueId} {k m : Func}
    (h : (l.map fun v => (v, f.value v)).foldlM (dropStep i) k = .ok m) (hv : v ∈ l)
    (hphi : (f.value v).op = .phi) : i < (f.value v).args.length := by
  induction l generalizing k with
  | nil => cases hv
  | cons x l ih =>
    rw [List.map_cons, List.foldlM_cons, Outcome.bind_eq_ok] at h
    obtain ⟨k', hk', h⟩ := h
    rcases List.mem_cons.mp hv with rfl | hv
    · by_contra hge
      simp [dropStep, hphi, dropAt, hge, Outcome.crash] at hk'
    · exact ih h hv

theorem removePred_eq : f.removePred b i = dropAt (f.block b).preds i >>= fun preds =>
    ((f.modifyBlock b fun blk => { blk with preds }).valuesOf b).foldlM (dropStep i)
      (f.modifyBlock b fun blk => { blk with preds }) := by
  unfold removePred
  rw [if_neg (by omega)]
  rfl

/-- A predecessor can be taken away if it is there and each phi has an argument for it. -/
theorem removePred_answers (hf : f.Homed) : (f.removePred b i).Answers ↔
    i < (f.block b).preds.length ∧
      ∀ v ∈ (f.block b).values, (f.value v).op = .phi → i < (f.value v).args.length := by
  constructor
  · rintro ⟨g, hg⟩
    rw [removePred_eq, Outcome.bind_eq_ok] at hg
    obtain ⟨preds, hpreds, hg⟩ := hg
    have hi : i < (f.block b).preds.length := by
      by_contra hge
      simp [dropAt, hge, Outcome.crash] at hpreds
    obtain ⟨p, hp⟩ : ∃ p, (f.block b).preds[i]? = some p := ⟨_, List.getElem?_eq_getElem hi⟩
    have hvals : (f.modifyBlock b fun blk => { blk with preds }).valuesOf b =
        (f.block b).values.map fun v => (v, f.value v) := by
      simp [valuesOf, block_modifyBlock (lt_of_mem_preds (List.mem_of_getElem? hp))]
    rw [hvals] at hg
    exact ⟨hi, fun v hv hphi => dropStep_lt hg hv hphi⟩
  · rintro ⟨hi, hargs⟩
    obtain ⟨g, hg, -⟩ := removePred_spec (lt_of_mem_preds (List.getElem_mem hi)) (hf.nodup b)
      (fun _ hv => hf.lt hv) hi hargs
    exact ⟨g, hg⟩

theorem removePred_dropped (hf : f.Homed) (h : f.removePred b i = .ok g) :
    i < (f.block b).preds.length ∧ PredDropped f g b i := by
  obtain ⟨hi, hargs⟩ := (removePred_answers hf).mp ⟨g, h⟩
  obtain ⟨g', hg', hdrop⟩ := removePred_spec (lt_of_mem_preds (List.getElem_mem hi)) (hf.nodup b)
    (fun _ hv => hf.lt hv) hi hargs
  obtain rfl : g' = g := Except.ok.inj (hg'.symm.trans h)
  exact ⟨hi, hdrop⟩

/-- A block whose phis are in step can do without any of its predecessors. -/
theorem PhisInStep.removePred (h : f.PhisInStep b) (hf : f.Homed)
    (hi : i < (f.block b).preds.length) : ∃ g, f.removePred b i = .ok g ∧ PredDropped f g b i :=
  removePred_spec (lt_of_mem_preds (List.getElem_mem hi)) (hf.nodup b) (fun _ hv => hf.lt hv) hi
    fun v hv hphi => h v hv hphi ▸ hi

end SsaJit.Func

/-! ## Blocks that lose their edges

Giving up all edges of a block. The blocks it led to lose it as a predecessor, however often they
had it, and keep for each predecessor that is left the arguments that their phis had for it. -/

namespace SsaJit.Func

variable {f g k m : Func} {b c p s : BlockId} {v : ValueId} {rest : List BlockId}

/-! ## Giving up the edges of a block -/

/-- `k` is `f` without edges from `p`, except that those to the blocks in `rest` are still there. -/
structure Clearing (f k : Func) (p : BlockId) (rest : List BlockId) : Prop where
  same : PhisOnly f k
  ends : ∀ c, (k.block c).kind = (f.block c).kind ∧ (k.block c).control = (f.block c).control ∧
    (k.block c).succs = (f.block c).succs
  count : ∀ s, (k.block s).preds.count p = rest.count s
  preds : ∀ s, (k.block s).preds.filter (· != p) = (f.block s).preds.filter (· != p)
  inStep : ∀ s, f.PhisInStep s → k.PhisInStep s
  phis : ∀ s, f.PhisInStep s → ∀ v ∈ (f.block s).values, (f.value v).op = .phi →
    k.argsFrom (· != p) s v = f.argsFrom (· != p) s v

theorem Clearing.start (h : f.EdgesMeet) : Clearing f f p (f.block p).succs :=
  ⟨.refl f, fun _ => ⟨rfl, rfl, rfl⟩, fun s => (h p s).symm, fun _ => rfl, fun _ h => h,
    fun _ _ _ _ _ => rfl⟩

/-- The first edge that is left is there to be taken. -/
theorem Clearing.next (h : Clearing f k p (s :: rest)) : ∃ i,
    (k.block s).predIndex? p = some i ∧ (k.block s).preds[i]? = some p := by
  refine predIndex?_eq_some (List.count_pos_iff.mp ?_)
  rw [h.count s]
  simp

theorem Clearing.step (h : Clearing f k p (s :: rest)) (hf : f.Homed)
    (hm : cutEdge p k s = .ok m) : Clearing f m p rest := by
  obtain ⟨i, hi, hp⟩ := h.next
  have hk := h.same.homed hf
  rw [cutEdge, hi] at hm
  obtain ⟨-, hdrop⟩ := removePred_dropped hk hm
  exact {
    same := h.same.trans hdrop.phisOnly
    ends c := by
      obtain ⟨hkind, hcontrol, hsuccs⟩ := hdrop.ends c
      rw [hkind, hcontrol, hsuccs]
      exact h.ends c
    count c := hdrop.count hp (h.count c)
    preds c := (hdrop.filter_preds hp c).trans (h.preds c)
    inStep c hc := hdrop.phisInStep (hk.listApart c s) (h.inStep c hc)
    phis c hc v hv hphi := by
      rw [← h.phis c hc v hv hphi]
      exact hdrop.argsFrom_eq (hk.listApart c s) hp (h.same.values c ▸ hv) (h.same.op.trans hphi)
        (h.inStep c hc) }

theorem Clearing.run (h : Clearing f k p rest) (hf : f.Homed)
    (hm : rest.foldlM (cutEdge p) k = .ok m) : Clearing f m p [] := by
  induction rest generalizing k with
  | nil =>
    obtain rfl : k = m := Except.ok.inj hm
    exact h
  | cons s rest ih =>
    rw [List.foldlM_cons, Outcome.bind_eq_ok] at hm
    obtain ⟨k', hk', hm⟩ := hm
    exact ih (h.step hf hk') hm

theorem Clearing.answers (h : Clearing f k p rest) (hf : f.Homed)
    (hrest : ∀ s ∈ rest, f.PhisInStep s) : (rest.foldlM (cutEdge p) k).Answers := by
  induction rest generalizing k with
  | nil => exact ⟨k, rfl⟩
  | cons s rest ih =>
    obtain ⟨i, hi, hp⟩ := h.next
    obtain ⟨k', hk', -⟩ := (h.inStep s (hrest s List.mem_cons_self)).removePred (h.same.homed hf)
      (List.getElem?_eq_some_iff.mp hp).1
    have hcut : cutEdge p k s = .ok k' := by rw [cutEdge, hi]; exact hk'
    obtain ⟨m, hm⟩ := ih (h.step hf hcut) fun t ht => hrest t (List.mem_cons_of_mem _ ht)
    exact ⟨m, by rw [List.foldlM_cons, hcut]; exact hm⟩

/-- `g` is `f` without the end of `p`. -/
structure Cleared (f g : Func) (p : BlockId) : Prop where
  same : PhisOnly f g
  ended : (g.block p).kind = .pending ∧ (g.block p).control = .missing ∧ (g.block p).succs = []
  others : ∀ c, c ≠ p → (g.block c).kind = (f.block c).kind ∧
    (g.block c).control = (f.block c).control ∧ (g.block c).succs = (f.block c).succs
  preds : ∀ s, (g.block s).preds = (f.block s).preds.filter (· != p)
  inStep : ∀ s, f.PhisInStep s → g.PhisInStep s
  phis : ∀ s, f.PhisInStep s → ∀ v ∈ (f.block s).values, (f.value v).op = .phi →
    (g.value v).args.zip (g.block s).preds = f.argsFrom (· != p) s v

theorem Clearing.cleared (h : Clearing f k p []) (hp : p < f.numBlocks) :
    Cleared f (k.modifyBlock p unended) p := by
  have hpk : p < k.numBlocks := h.same.numBlocks ▸ hp
  have hgone : ∀ s, ∀ x ∈ (k.block s).preds, (x != p) = true := fun s => all_of_count_nil (h.count s)
  exact {
    same := h.same.trans (phisOnly_unended hpk)
    ended := by
      rw [block_modifyBlock hpk, if_pos rfl]
      exact ⟨rfl, rfl, rfl⟩
    others c hc := by
      rw [block_modifyBlock_ne hc]
      exact h.ends c
    preds s := by
      rw [preds_unended hpk, ← h.preds s]
      exact (List.filter_eq_self.mpr (hgone s)).symm
    inStep s hs := (h.inStep s hs).unended hpk
    phis s hs v hv hphi := by
      rw [preds_unended hpk, ← h.phis s hs v hv hphi]
      exact zip_eq_argsFrom (hgone s) }

theorem clearTerminator_cleared (hf : f.Homed) (he : f.EdgesMeet) (hp : p < f.numBlocks)
    (h : f.clearTerminator p = .ok g) : Cleared f g p := by
  rw [clearTerminator_eq, Outcome.bind_eq_ok] at h
  obtain ⟨k, hk, hg⟩ := h
  obtain rfl : k.modifyBlock p unended = g := Except.ok.inj hg
  exact ((Clearing.start he).run hf hk).cleared hp

/-- The end of a block can be given up if the phis of the blocks it leads to are in step. -/
theorem clearTerminator_answers (hf : f.Homed) (he : f.EdgesMeet)
    (hstep : ∀ s ∈ (f.block p).succs, f.PhisInStep s) : (f.clearTerminator p).Answers := by
  obtain ⟨k, hk⟩ := (Clearing.start he).answers hf hstep
  exact ⟨_, by rw [clearTerminator_eq, hk]; rfl⟩

theorem Cleared.edgesMeet (h : Cleared f g p) (he : f.EdgesMeet) : g.EdgesMeet := by
  intro b c
  rw [h.preds]
  by_cases hbp : b = p
  · subst hbp
    rw [h.ended.2.2, List.count_nil, eq_comm, List.count_eq_zero]
    intro hin
    simpa using (List.mem_filter.mp hin).2
  · rw [(h.others b hbp).2.2, List.count_filter (by simpa using hbp)]
    exact he b c

end SsaJit.Func
