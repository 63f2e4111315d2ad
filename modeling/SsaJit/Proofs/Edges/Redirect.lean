import SsaJit.Proofs.Edges.Step

/-! Turning an edge towards another block. The predecessor leaves its place in the old target and is
entered last in the new one; what the phis of the old target had for it goes, in order, to the phis
of the new one. -/

namespace SsaJit.Func

variable {f g : Func} {b c p s old repl : BlockId} {v w : ValueId} {o : Operand} {i j : Nat}
  {incoming : List Operand}

/-! ## The phis of a block, in order -/

/-- The phis that a block lists, by number. -/
def phiIds (f : Func) (b : BlockId) : List ValueId :=
  (f.block b).values.filter fun v => (f.value v).op == .phi

@[simp] theorem mem_phiIds : v ∈ f.phiIds b ↔ v ∈ (f.block b).values ∧ (f.value v).op = .phi := by
  simp [phiIds]

theorem phisOf_eq : f.phisOf b = (f.phiIds b).map fun v => (v, f.value v) := by
  rw [phisOf, valuesOf, List.filter_map]
  rfl

theorem phiIds_congr (hvals : (g.block b).values = (f.block b).values)
    (hop : ∀ v, (g.value v).op = (f.value v).op) : g.phiIds b = f.phiIds b := by
  rw [phiIds, hvals, phiIds]
  exact List.filter_congr fun v _ => by rw [hop]

theorem PhisOnly.phiIds (h : PhisOnly f g) : g.phiIds b = f.phiIds b :=
  phiIds_congr (h.values b) fun _ => h.op

theorem Homed.phiIds_nodup (h : f.Homed) : (f.phiIds b).Nodup := (h.nodup b).filter _

/-! ## One more argument for each phi -/

/-- A value with one more operand. -/
def extended (x : Value) (o : Operand) : Value := { x with args := x.args ++ [o] }

theorem extendPhis_eq : f.extendPhis b incoming =
    ((f.phiIds b).zip incoming).foldl (fun f x => f.modifyValue x.1 (extended · x.2)) f := by
  rw [extendPhis, phisOf_eq, List.zip_map_left, List.foldl_map]
  rfl

section foldl

variable {ids : List ValueId}

theorem extend_foldl_frame {l : List (ValueId × Operand)} :
    (l.foldl (fun f x => f.modifyValue x.1 (extended · x.2)) f).blocks = f.blocks ∧
    (l.foldl (fun f x => f.modifyValue x.1 (extended · x.2)) f).layout = f.layout ∧
    (l.foldl (fun f x => f.modifyValue x.1 (extended · x.2)) f).ret = f.ret ∧
    (l.foldl (fun f x => f.modifyValue x.1 (extended · x.2)) f).numValues = f.numValues := by
  induction l generalizing f with
  | nil => exact ⟨rfl, rfl, rfl, rfl⟩
  | cons x l ih =>
    obtain ⟨hblocks, hlay, hret, hnum⟩ := ih (f := f.modifyValue x.1 (extended · x.2))
    exact ⟨hblocks, hlay, hret, hnum.trans numValues_modifyValue⟩

theorem value_extend_foldl (f : Func) (incoming : List Operand) (hl : ids.Nodup)
    (hlt : ∀ v ∈ ids, v < f.numValues) : (∀ v, v ∉ ids →
      ((ids.zip incoming).foldl (fun f x => f.modifyValue x.1 (extended · x.2)) f).value v = f.value v) ∧
    ∀ (n : Nat) v, ids[n]? = some v →
      ((ids.zip incoming).foldl (fun f x => f.modifyValue x.1 (extended · x.2)) f).value v =
        { f.value v with args := (f.value v).args ++ incoming[n]?.toList } := by
  induction ids generalizing f incoming with
  | nil => simp
  | cons y ids ih =>
    cases incoming with
    | nil => simp
    | cons o incoming =>
      obtain ⟨hy, hl⟩ := List.nodup_cons.mp hl
      have hylt := hlt y List.mem_cons_self
      obtain ⟨hout, hin⟩ := ih (f.modifyValue y (extended · o)) incoming hl
        fun v hv => by rw [numValues_modifyValue]; exact hlt v (List.mem_cons_of_mem _ hv)
      simp only [List.zip_cons_cons, List.foldl_cons]
      refine ⟨fun v hv => ?_, fun n v hn => ?_⟩
      · rw [List.mem_cons, not_or] at hv
        rw [hout v hv.2, value_modifyValue hylt, if_neg hv.1]
      · cases n with
        | zero =>
          obtain rfl : y = v := by simpa using hn
          rw [hout y hy, value_modifyValue hylt, if_pos rfl]
          rfl
        | succ n =>
          have hn : ids[n]? = some v := by simpa using hn
          have hne : v ≠ y := fun heq => hy (heq ▸ List.mem_of_getElem? hn)
          rw [hin n v hn, value_modifyValue hylt, if_neg hne]
          simp

end foldl

section extendPhis

theorem block_extendPhis : (f.extendPhis b incoming).block c = f.block c := by
  rw [extendPhis_eq, block, extend_foldl_frame.1]
  rfl

theorem value_extendPhis_of_notMem (hf : f.Homed) (hv : v ∉ f.phiIds b) :
    (f.extendPhis b incoming).value v = f.value v := by
  rw [extendPhis_eq]
  exact (value_extend_foldl f incoming hf.phiIds_nodup fun w hw => hf.lt (mem_phiIds.mp hw).1).1 v hv

/-- The block's `n`-th phi is given the `n`-th operand. -/
theorem value_extendPhis (hf : f.Homed) (hv : (f.phiIds b)[i]? = some v) :
    (f.extendPhis b incoming).value v =
      { f.value v with args := (f.value v).args ++ incoming[i]?.toList } := by
  rw [extendPhis_eq]
  exact (value_extend_foldl f incoming hf.phiIds_nodup fun w hw => hf.lt (mem_phiIds.mp hw).1).2 i v hv

theorem extendPhis_phisOnly (hf : f.Homed) : PhisOnly f (f.extendPhis b incoming) := by
  have hframe := extend_foldl_frame (f := f) (l := (f.phiIds b).zip incoming)
  rw [← extendPhis_eq] at hframe
  obtain ⟨hblocks, hlay, hret, hnum⟩ := hframe
  have hvalue : ∀ v, ∃ a, (f.extendPhis b incoming).value v = { f.value v with args := a } := by
    intro v
    by_cases hv : v ∈ f.phiIds b
    · obtain ⟨n, hn⟩ := List.getElem?_of_mem hv
      exact ⟨_, value_extendPhis hf hn⟩
    · exact ⟨_, value_extendPhis_of_notMem hf hv⟩
  refine ⟨hlay, hret, hnum, by rw [numBlocks, hblocks]; rfl, fun c => ?_, fun c => ?_, hvalue,
    fun v hv => value_extendPhis_of_notMem hf fun hin => hv (mem_phiIds.mp hin).2⟩
  · rw [block_extendPhis]
  · rw [block_extendPhis]

end extendPhis

/-! ## Turning an edge -/

/-- `g` is `f` with the `i`-th edge of `b`, which led to `old` as its `j`-th predecessor, turned towards
`repl`; the phis of `repl` are given what those of `old` had for it. -/
structure Redirected (f g : Func) (b old repl : BlockId) (i j : Nat) (incoming : List Operand) :
    Prop where
  edge : (f.block b).succs.findIdx? (· == old) = some i
  pred : (f.block old).predIndex? b = some j
  taken : List.Forall₂ (fun v o => (f.value v).args[j]? = some o) (f.phiIds old) incoming
  same : PhisOnly f g
  ends : ∀ c, (g.block c).kind = (f.block c).kind ∧ (g.block c).control = (f.block c).control
  succs : ∀ c, (g.block c).succs =
    if c = b then (f.block c).succs.set i repl else (f.block c).succs
  preds : ∀ c, (g.block c).preds =
    (if c = old then (f.block c).preds.eraseIdx j else (f.block c).preds) ++
      if c = repl then [b] else []
  args : ∀ c (n : Nat) v, (f.phiIds c)[n]? = some v → (g.value v).args =
    (if c = old then (f.value v).args.eraseIdx j else (f.value v).args) ++
      if c = repl then incoming[n]?.toList else []

theorem findIdx?_getElem? {l : List BlockId} (h : l.findIdx? (· == s) = some i) :
    l[i]? = some s := by
  obtain ⟨hlt, hs, -⟩ := List.findIdx?_eq_some_iff_getElem.mp h
  rw [List.getElem?_eq_getElem hlt]
  simpa using hs

theorem replaceSucc_eq (hi : (f.block b).succs.findIdx? (· == old) = some i)
    (hj : (f.block old).predIndex? b = some j) : f.replaceSucc b old repl =
      ((f.phiIds old).mapM fun v => .at? (f.value v).args j) >>= fun incoming =>
      f.removePred old j >>= fun m =>
        .ok (((m.modifyBlock b fun blk => { blk with succs := blk.succs.set i repl }).modifyBlock repl
          fun blk => { blk with preds := blk.preds ++ [b] }).extendPhis repl incoming) := by
  have hphis : ((f.phisOf old).mapM fun x => Outcome.at? x.2.args j) =
      (f.phiIds old).mapM fun v => .at? (f.value v).args j := by
    rw [phisOf_eq, List.mapM_map]
    rfl
  simp only [replaceSucc, hi, hj, hphis]
  cases (f.phiIds old).mapM fun v => Outcome.at? (f.value v).args j with
  | error e => rfl
  | ok incoming =>
    cases f.removePred old j with
    | error e => rfl
    | ok m => rfl

theorem replaceSucc_absent (h : old ∉ (f.block b).succs) : f.replaceSucc b old repl = .ok f := by
  have hnone : (f.block b).succs.findIdx? (· == old) = none := by
    rw [List.findIdx?_eq_none_iff]
    exact fun s hs => beq_eq_false_iff_ne.mpr fun heq => h (heq ▸ hs)
  simp [replaceSucc, hnone]

/-- An edge that is there stands in both lists. -/
theorem EdgesMeet.places (h : f.EdgesMeet) (hs : old ∈ (f.block b).succs) :
    ∃ i j, (f.block b).succs.findIdx? (· == old) = some i ∧
      (f.block old).predIndex? b = some j ∧ j < (f.block old).preds.length := by
  obtain ⟨i, hi⟩ : ∃ i, (f.block b).succs.findIdx? (· == old) = some i := by
    rw [← Option.isSome_iff_exists, List.findIdx?_isSome]
    exact List.any_eq_true.mpr ⟨old, hs, by simp⟩
  obtain ⟨j, hj, hp⟩ := predIndex?_eq_some (h.mem_iff.mp hs)
  exact ⟨i, j, hi, hj, (List.getElem?_eq_some_iff.mp hp).1⟩

/-- The edge from `b` as it is entered at its new target, once it has left the old one. -/
def repointed (m : Func) (b repl : BlockId) (i : Nat) : Func :=
  (m.modifyBlock b fun blk => { blk with succs := blk.succs.set i repl }).modifyBlock repl
    fun blk => { blk with preds := blk.preds ++ [b] }

theorem block_repointed (hb : b < f.numBlocks) (hr : repl < f.numBlocks) :
    (f.repointed b repl i).block c = { f.block c with
      succs := if c = b then (f.block c).succs.set i repl else (f.block c).succs
      preds := (f.block c).preds ++ if c = repl then [b] else [] } := by
  rw [repointed, block_modifyBlock (by simpa using hr), block_modifyBlock hb, block_modifyBlock hb]
  by_cases hcr : c = repl
  · subst hcr
    by_cases hcb : c = b <;> simp [hcb]
  · by_cases hcb : c = b
    · subst hcb
      simp [hcr]
    · simp [hcr, hcb]

theorem repointed_phisOnly (hb : b < f.numBlocks) (hr : repl < f.numBlocks) :
    PhisOnly f (f.repointed b repl i) := by
  refine ⟨rfl, rfl, rfl, by simp [repointed], fun c => ?_, fun c => ?_, fun v => ⟨_, rfl⟩, fun _ _ => rfl⟩
  · rw [block_repointed hb hr]
  · rw [block_repointed hb hr]

theorem replaceSucc_redirected (hf : f.Homed) (he : f.EdgesMeet) (hr : repl < f.numBlocks)
    (hs : old ∈ (f.block b).succs) (h : f.replaceSucc b old repl = .ok g) :
    ∃ i j incoming, Redirected f g b old repl i j incoming := by
  obtain ⟨i, j, hi, hj, -⟩ := he.places hs
  rw [replaceSucc_eq hi hj, Outcome.bind_eq_ok] at h
  obtain ⟨incoming, hin, h⟩ := h
  obtain ⟨m, hm, h⟩ := Outcome.bind_eq_ok.mp h
  obtain rfl : (m.repointed b repl i).extendPhis repl incoming = g := Except.ok.inj h
  obtain ⟨-, hdrop⟩ := removePred_dropped hf hm
  have hb : b < f.numBlocks := lt_of_mem_succs hs
  have hbm : b < m.numBlocks := hdrop.numBlocks ▸ hb
  have hrm : repl < m.numBlocks := hdrop.numBlocks ▸ hr
  have hsame : PhisOnly f (m.repointed b repl i) := hdrop.phisOnly.trans (repointed_phisOnly hbm hrm)
  have hrepointed := hsame.homed hf
  have hends : ∀ c, (m.block c).kind = (f.block c).kind ∧ (m.block c).control = (f.block c).control ∧
      (m.block c).succs = (f.block c).succs := by
    intro c
    rw [hdrop.block]
    split
    · next heq => rw [heq]; exact ⟨rfl, rfl, rfl⟩
    · exact ⟨rfl, rfl, rfl⟩
  refine ⟨i, j, incoming, hi, hj, ?_, hsame.trans (extendPhis_phisOnly hrepointed), fun c => ?_,
    fun c => ?_, fun c => ?_, fun c n v hn => ?_⟩
  · exact (Outcome.mapM_eq_ok.mp hin).imp fun v o hvo => Outcome.at?_eq_ok.mp hvo
  · rw [block_extendPhis, block_repointed hbm hrm]
    exact ⟨(hends c).1, (hends c).2.1⟩
  · rw [block_extendPhis, block_repointed hbm hrm, (hends c).2.2]
  · rw [block_extendPhis, block_repointed hbm hrm, hdrop.preds]
  · obtain ⟨hv, hphi⟩ := mem_phiIds.mp (List.mem_of_getElem? hn)
    have hargs : ((m.repointed b repl i).value v).args =
        if c = old then (f.value v).args.eraseIdx j else (f.value v).args :=
      hdrop.args (hf.listApart c old) hv hphi
    rw [← hargs]
    by_cases hcr : c = repl
    · subst hcr
      rw [← hsame.phiIds] at hn
      rw [value_extendPhis hrepointed hn, if_pos rfl]
    · rw [value_extendPhis_of_notMem hrepointed, if_neg hcr, List.append_nil]
      rw [hsame.phiIds, mem_phiIds]
      exact fun hin => hcr (hf.unique hv hin.1)

/-- An edge can be turned away from a block whose phis are in step. -/
theorem replaceSucc_answers (hf : f.Homed) (he : f.EdgesMeet) (hstep : f.PhisInStep old)
    (b repl : BlockId) :
    (f.replaceSucc b old repl).Answers := by
  by_cases hs : old ∈ (f.block b).succs
  · obtain ⟨i, j, hi, hj, hlt⟩ := he.places hs
    obtain ⟨m, hm, -⟩ := hstep.removePred hf hlt
    have htaken : ((f.phiIds old).mapM fun v => Outcome.at? (f.value v).args j).Answers := by
      refine Outcome.answers_mapM.mpr fun v hv => ?_
      obtain ⟨hv, hphi⟩ := mem_phiIds.mp hv
      exact ⟨_, Outcome.at?_eq_ok.mpr (List.getElem?_eq_getElem (hstep v hv hphi ▸ hlt))⟩
    obtain ⟨incoming, hin⟩ := htaken
    exact ⟨_, by rw [replaceSucc_eq hi hj, hin, Outcome.ok_bind, hm, Outcome.ok_bind]⟩
  · exact ⟨f, replaceSucc_absent hs⟩

namespace Redirected

theorem edge_getElem? (h : Redirected f g b old repl i j incoming) : (f.block b).succs[i]? = some old :=
  findIdx?_getElem? h.edge

theorem pred_getElem? (h : Redirected f g b old repl i j incoming) :
    (f.block old).preds[j]? = some b :=
  findIdx?_getElem? h.pred

theorem edgesMeet (h : Redirected f g b old repl i j incoming) (he : f.EdgesMeet) : g.EdgesMeet := by
  intro x y
  have hxy := he x y
  obtain ⟨hi, hold⟩ := List.getElem?_eq_some_iff.mp h.edge_getElem?
  have hthere : 0 < (f.block b).succs.count old :=
    List.count_pos_iff.mpr (List.mem_of_getElem? h.edge_getElem?)
  have hlost := count_eraseIdx h.pred_getElem? x
  have hgained : (if y = repl then [b] else []).count x = if y = repl ∧ x = b then 1 else 0 := by
    by_cases hy : y = repl
    · simp [hy, List.count_singleton, eq_comm (a := b)]
    · simp [hy]
  rw [h.succs, h.preds, List.count_append, hgained]
  by_cases hxb : x = b
  · -- the block itself: one edge to `old` less, one to `repl` more
    subst hxb
    rw [if_pos rfl, List.count_set hi, hold, hxy]
    by_cases hyo : y = old
    · subst hyo
      rw [hxy] at hthere
      by_cases hyr : y = repl
      · subst hyr
        simp at hlost ⊢
        omega
      · simp [hyr, Ne.symm hyr] at hlost ⊢
        omega
    · by_cases hyr : y = repl
      · subst hyr
        simp [hyo, Ne.symm hyo]
      · simp [hyo, hyr, Ne.symm hyo, Ne.symm hyr]
  · have hno : ¬ (y = repl ∧ x = b) := fun hand => hxb hand.2
    rw [if_neg hxb, if_neg hno, hxy, Nat.add_zero]
    by_cases hyo : y = old
    · subst hyo
      rw [if_pos rfl, ← hlost, if_neg hxb, Nat.add_zero]
    · rw [if_neg hyo]

/-- A block that gains no edge keeps, for each predecessor that is left, what its phis had for it. -/
theorem keeps (h : Redirected f g b old repl i j incoming) (hc : c ≠ repl) (hstep : f.PhisInStep c) :
    g.PhisInStep c ∧ ∀ v ∈ f.phiIds c, (g.value v).args.zip (g.block c).preds =
      if c = old then ((f.value v).args.zip (f.block c).preds).eraseIdx j
      else (f.value v).args.zip (f.block c).preds := by
  have hargs : ∀ v ∈ f.phiIds c, (g.value v).args =
      if c = old then (f.value v).args.eraseIdx j else (f.value v).args := by
    intro v hv
    obtain ⟨n, hn⟩ := List.getElem?_of_mem hv
    rw [h.args c n v hn, if_neg hc, List.append_nil]
  have hpreds : (g.block c).preds =
      if c = old then (f.block c).preds.eraseIdx j else (f.block c).preds := by
    rw [h.preds, if_neg hc, List.append_nil]
  refine ⟨fun v hv hphi => ?_, fun v hv => ?_⟩
  · have hv : v ∈ f.phiIds c := h.same.phiIds ▸ mem_phiIds.mpr ⟨hv, hphi⟩
    have hlen := hstep v (mem_phiIds.mp hv).1 (mem_phiIds.mp hv).2
    rw [hargs v hv, hpreds]
    split
    · rw [List.length_eraseIdx, List.length_eraseIdx, hlen]
    · exact hlen
  · rw [hargs v hv, hpreds]
    split
    · exact zip_eraseIdx _ _ _
    · rfl

end Redirected

end SsaJit.Func
