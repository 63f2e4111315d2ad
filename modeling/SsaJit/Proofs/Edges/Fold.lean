import SsaJit.Proofs.Edges.Drawn

/-! An edge of a branch that is redirected to where the other edge leads, and the branch folded after
that. The redirected edge is entered last at its target, so to the fold it is always edge 1: the
arguments that stay are those of edge 1 as it now is, whichever edge had been redirected. -/

namespace SsaJit.Func

variable {f g m : Func} {b c s x old repl : BlockId} {u v : ValueId} {o : Operand} {e i j n : Nat}
  {incoming : List Operand}

/-- What a phi of a block has for the first place of a predecessor. -/
def argFor (f : Func) (s b : BlockId) (v : ValueId) : Option Operand :=
  ((f.block s).predIndex? b).bind fun j => (f.value v).args[j]?

theorem argFor_congr (hpreds : (g.block s).preds = (f.block s).preds)
    (hargs : (g.value v).args = (f.value v).args) : g.argFor s b v = f.argFor s b v := by
  rw [argFor, Block.predIndex?, hpreds, hargs]
  rfl

/-- A predecessor that is entered last, and not before, brings the last argument. -/
theorem argFor_last {l : List BlockId} {args : List Operand} (hb : b ∉ l)
    (hpreds : (g.block s).preds = l ++ [b]) (hargs : (g.value v).args = args ++ [o])
    (hlen : args.length = l.length) : g.argFor s b v = some o := by
  have hbefore : l.findIdx? (· == b) = none := by
    rw [List.findIdx?_eq_none_iff]
    intro y hy
    simpa using fun heq : y = b => hb (heq ▸ hy)
  have hplace : (g.block s).predIndex? b = some l.length := by
    rw [Block.predIndex?, hpreds, List.findIdx?_append, hbefore]
    simp [List.findIdx?_cons]
  rw [argFor, hplace, Option.bind_some, hargs, ← hlen]
  simp

theorem predIndex?_take (h : (f.block s).predIndex? b = some j) :
    (f.block s).preds[j]? = some b ∧ ((f.block s).preds.take j).count b = 0 := by
  refine ⟨findIdx?_getElem? h, ?_⟩
  obtain ⟨hlt, -, hbefore⟩ := List.findIdx?_eq_some_iff_getElem.mp h
  rw [List.count_eq_zero]
  intro hin
  obtain ⟨k, hk, hkb⟩ := List.mem_take_iff_getElem.mp hin
  have hkj : k < j := lt_of_lt_of_le hk (Nat.min_le_left _ _)
  simpa [hkb] using hbefore k hkj

namespace Redirected

variable (h : Redirected f g b old repl i j incoming)
include h

/-- A block that gains the edge, and has no phi too many, stays in step. -/
theorem gains (hne : repl ≠ old) (hlen : (f.phiIds repl).length ≤ (f.phiIds old).length)
    (hstep : f.PhisInStep repl) : g.PhisInStep repl ∧
      (g.block repl).preds = (f.block repl).preds ++ [b] ∧
      ∀ (n : Nat) v, (f.phiIds repl)[n]? = some v →
        ∃ o, incoming[n]? = some o ∧ (g.value v).args = (f.value v).args ++ [o] := by
  have hpreds : (g.block repl).preds = (f.block repl).preds ++ [b] := by
    rw [h.preds, if_neg hne, if_pos rfl]
  have hargs : ∀ (n : Nat) v, (f.phiIds repl)[n]? = some v →
      ∃ o, incoming[n]? = some o ∧ (g.value v).args = (f.value v).args ++ [o] := by
    intro n v hn
    have hlt : n < incoming.length := by
      have hn := (List.getElem?_eq_some_iff.mp hn).1
      have htaken := h.taken.length_eq
      omega
    have hget : incoming[n]? = some incoming[n] := List.getElem?_eq_getElem hlt
    exact ⟨incoming[n], hget, by rw [h.args repl n v hn, if_neg hne, if_pos rfl, hget]; rfl⟩
  refine ⟨fun v hv hphi => ?_, hpreds, hargs⟩
  have hin : v ∈ f.phiIds repl := h.same.phiIds ▸ mem_phiIds.mpr ⟨hv, hphi⟩
  obtain ⟨n, hn⟩ := List.getElem?_of_mem hin
  obtain ⟨o, -, ho⟩ := hargs n v hn
  rw [ho, hpreds, List.length_append, List.length_append,
    hstep v (mem_phiIds.mp hin).1 (mem_phiIds.mp hin).2]
  rfl

/-- What the phis of the old target had for the edge. -/
theorem incoming_eq (hu : (f.phiIds old)[n]? = some u) (ho : incoming[n]? = some o) :
    f.argFor old b u = some o := by
  obtain ⟨hnu, hu⟩ := List.getElem?_eq_some_iff.mp hu
  obtain ⟨hno, ho⟩ := List.getElem?_eq_some_iff.mp ho
  have htaken := List.forall₂_iff_get.mp h.taken |>.2 n hnu hno
  rw [argFor, h.pred, Option.bind_some]
  simpa [hu, ho] using htaken

/-- A branch with an edge to either target has two to the new one. -/
theorem doubled (hne : old ≠ repl)
    (hsuccs : (f.block b).succs = [old, repl] ∨ (f.block b).succs = [repl, old]) :
    (g.block b).succs = [repl, repl] := by
  have hedge := h.edge
  rw [h.succs, if_pos rfl]
  rcases hsuccs with hs | hs
  · rw [hs] at hedge ⊢
    obtain rfl : 0 = i := by simpa [List.findIdx?_cons] using hedge
    rfl
  · rw [hs] at hedge ⊢
    obtain rfl : 1 = i := by simpa [List.findIdx?_cons, hne.symm] using hedge
    rfl

/-- The edge that was there stays where it was, the redirected one stands behind all others. -/
theorem places (hne : repl ≠ old) {k : Nat} (hk : (f.block repl).predIndex? b = some k)
    (hcount : (f.block repl).preds.count b = 1) : (g.predPlaces repl b)[0]? = some k ∧
      (g.predPlaces repl b)[1]? = some (f.block repl).preds.length := by
  obtain ⟨hkb, hbefore⟩ := predIndex?_take hk
  have hlt : k < (f.block repl).preds.length := (List.getElem?_eq_some_iff.mp hkb).1
  rw [getElem?_predPlaces, getElem?_predPlaces, h.preds, if_neg hne, if_pos rfl]
  refine ⟨⟨?_, ?_⟩, ?_, ?_⟩
  · rw [List.getElem?_append_left hlt]
    exact hkb
  · rw [List.take_append_of_le_length hlt.le]
    exact hbefore
  · simp
  · rw [List.take_left]
    exact hcount

end Redirected

/-- `g` is `f` with the end of `b` made a jump to `s`, which has lost its `i`-th predecessor. -/
structure Straightened (f g : Func) (b s : BlockId) (i : Nat) : Prop where
  succs : (g.block b).succs = [s]
  preds : (g.block s).preds = (f.block s).preds.eraseIdx i
  args : ∀ v ∈ f.phiIds s, (g.value v).args = (f.value v).args.eraseIdx i
  inStep : g.PhisInStep s

/-- Folding a branch whose two edges lead to one block takes the edge that is not folded along. -/
theorem foldBranch_double (hf : f.Homed) (hs : (f.block b).succs = [s, s]) (he : e < 2)
    (hi : (f.predPlaces s b)[1 - e]? = some i) (hstep : f.PhisInStep s) :
    ∃ g, f.foldBranch b e = .ok g ∧ Straightened f g b s i := by
  have hlt : i < (f.block s).preds.length :=
    (List.getElem?_eq_some_iff.mp (getElem?_predPlaces.mp hi).1).1
  obtain ⟨m, hm, hdrop⟩ := hstep.removePred hf hlt
  have hbm : b < m.numBlocks := by
    rw [hdrop.numBlocks]
    exact lt_of_mem_succs (hs ▸ List.mem_cons_self)
  refine ⟨m.modifyBlock b fun blk => { blk with kind := .jump, control := .missing, succs := [s] },
    ?_, ?_⟩
  · obtain rfl | rfl : e = 0 ∨ e = 1 := by omega
    · simp only [foldBranch, hs, Outcome.at?, List.getElem?_cons_zero, List.getElem?_cons_succ,
        Outcome.ok_bind, and_self, if_true, hi, hm]
      rfl
    · simp only [foldBranch, hs, Outcome.at?, List.getElem?_cons_zero, List.getElem?_cons_succ,
        Outcome.ok_bind, Nat.sub_self, one_ne_zero, and_false, if_false, hi, hm]
      rfl
  have hframe : ∀ c, ((m.modifyBlock b fun blk => { blk with
      kind := .jump, control := .missing, succs := [s] }).block c).preds = (m.block c).preds ∧
      ((m.modifyBlock b fun blk => { blk with
      kind := .jump, control := .missing, succs := [s] }).block c).values = (m.block c).values := by
    intro c
    rw [block_modifyBlock hbm]
    split
    · next heq => rw [heq]; exact ⟨rfl, rfl⟩
    · exact ⟨rfl, rfl⟩
  have hown := hf.listApart s s
  refine ⟨by rw [block_modifyBlock hbm, if_pos rfl], ?_, fun v hv => ?_, fun v hv hphi => ?_⟩
  · rw [(hframe s).1, hdrop.preds, if_pos rfl]
  · exact (hdrop.args hown (mem_phiIds.mp hv).1 (mem_phiIds.mp hv).2).trans (if_pos rfl)
  · rw [(hframe s).2] at hv
    rw [(hframe s).1]
    exact hdrop.phisInStep hown hstep v hv hphi

/-- Without the last predecessor, a target is as it was before the edge was redirected there. -/
theorem Redirected.fold_first (h : Redirected f m b old repl i j incoming) (hne : repl ≠ old)
    (hlen : (f.phiIds repl).length ≤ (f.phiIds old).length) (hstep : f.PhisInStep repl)
    (hs : Straightened m g b repl (f.block repl).preds.length) :
    (g.block repl).preds = (f.block repl).preds ∧
      ∀ v ∈ f.phiIds repl, g.argFor repl b v = f.argFor repl b v := by
  obtain ⟨-, hpreds, hargs⟩ := h.gains hne hlen hstep
  have hkept : (g.block repl).preds = (f.block repl).preds := by
    rw [hs.preds, hpreds, List.eraseIdx_append_of_length_le (Nat.le_refl _)]
    simp
  refine ⟨hkept, fun v hv => argFor_congr hkept ?_⟩
  obtain ⟨n, hn⟩ := List.getElem?_of_mem hv
  obtain ⟨o, -, ho⟩ := hargs n v hn
  rw [hs.args v (h.same.phiIds.symm ▸ hv), ho,
    ← hstep v (mem_phiIds.mp hv).1 (mem_phiIds.mp hv).2,
    List.eraseIdx_append_of_length_le (Nat.le_refl _)]
  simp

/-- Without the predecessor that was there, a target has for the edge what the old one had. -/
theorem Redirected.fold_second (h : Redirected f m b old repl i j incoming) (hne : repl ≠ old)
    (hlen : (f.phiIds repl).length ≤ (f.phiIds old).length) (hstep : f.PhisInStep repl) {k : Nat}
    (hk : (f.block repl).preds[k]? = some b) (hcount : (f.block repl).preds.count b = 1)
    (hs : Straightened m g b repl k) : (g.block repl).preds.count b = 1 ∧
      ∀ (n : Nat) u v, (f.phiIds old)[n]? = some u → (f.phiIds repl)[n]? = some v →
        g.argFor repl b v = f.argFor old b u := by
  obtain ⟨-, hpreds, hargs⟩ := h.gains hne hlen hstep
  have hlt : k < (f.block repl).preds.length := (List.getElem?_eq_some_iff.mp hk).1
  have hgone : b ∉ (f.block repl).preds.eraseIdx k := by
    have hlost := count_eraseIdx hk b
    rw [← List.count_eq_zero]
    simp only [if_true] at hlost
    omega
  have hkept : (g.block repl).preds = (f.block repl).preds.eraseIdx k ++ [b] := by
    rw [hs.preds, hpreds, List.eraseIdx_append_of_lt_length hlt]
  refine ⟨?_, fun n u v hu hv => ?_⟩
  · rw [hkept, List.count_append, List.count_eq_zero.mpr hgone]
    simp
  obtain ⟨o, ho, hvargs⟩ := hargs n v hv
  have hin := List.mem_of_getElem? hv
  have hlenv := hstep v (mem_phiIds.mp hin).1 (mem_phiIds.mp hin).2
  have hgargs : (g.value v).args = (f.value v).args.eraseIdx k ++ [o] := by
    rw [hs.args v (h.same.phiIds.symm ▸ hin), hvargs,
      List.eraseIdx_append_of_lt_length (hlenv ▸ hlt)]
  have hlast : g.argFor repl b v = some o := argFor_last hgone hkept hgargs <| by
    rw [List.length_eraseIdx_of_lt hlt, List.length_eraseIdx_of_lt (hlenv ▸ hlt), hlenv]
  exact hlast.trans (h.incoming_eq hu ho).symm

/-- Redirecting one edge of a branch to where the other leads, and folding the branch along edge `e`
then: the block keeps one edge, and each phi of its target keeps what it had for the edge that was not
redirected if `e` is 0, and what the phi of the same number had for the redirected one if `e` is 1. That
is what belonged to edge `e` before exactly if edge 1 was redirected, or both are the same. -/
theorem redirected_fold_keeps (hf : f.Joined) (hne : x ≠ s)
    (hsuccs : (f.block b).succs = [x, s] ∨ (f.block b).succs = [s, x]) (hx : f.PhisInStep x)
    (hs : f.PhisInStep s) (hphis : (f.phiIds x).length = (f.phiIds s).length) (he : e < 2) :
    ∃ m g, f.replaceSucc b x s = .ok m ∧ m.foldBranch b e = .ok g ∧ (g.block b).succs = [s] ∧
      (g.block s).preds.count b = 1 ∧ g.PhisInStep s ∧
      ∀ (n : Nat) u v, (f.phiIds x)[n]? = some u → (f.phiIds s)[n]? = some v →
        g.argFor s b v = (if e = 0 then f.argFor s b v else f.argFor x b u) ∧
        (g.argFor s b v =
            (if (f.block b).succs[e]? = some x then f.argFor x b u else f.argFor s b v) ↔
          (f.block b).succs[1]? = some x ∨ f.argFor x b u = f.argFor s b v) := by
  obtain ⟨hhomed, hedges⟩ := hf
  have hxmem : x ∈ (f.block b).succs := by
    rcases hsuccs with h | h <;> simp [h]
  have hsmem : s ∈ (f.block b).succs := by
    rcases hsuccs with h | h <;> simp [h]
  have hcount : (f.block s).preds.count b = 1 := by
    rw [← hedges b s]
    rcases hsuccs with h | h <;> simp [h, hne]
  obtain ⟨m, hm⟩ := replaceSucc_answers hhomed hedges hx b s
  obtain ⟨i, j, incoming, hred⟩ := replaceSucc_redirected hhomed hedges (hedges.lt hsmem) hxmem hm
  obtain ⟨hstep, -⟩ := hred.gains hne.symm hphis.ge hs
  obtain ⟨k, hk, hkb⟩ := predIndex?_eq_some (hedges.mem_iff.mp hsmem)
  obtain ⟨hzero, hone⟩ := hred.places hne.symm hk hcount
  have hdouble := hred.doubled hne hsuccs
  have hmhomed := hred.same.homed hhomed
  obtain rfl | rfl : e = 0 ∨ e = 1 := by omega
  · -- the second entry goes, and that is the redirected one
    obtain ⟨g, hg, hstraight⟩ := foldBranch_double hmhomed hdouble he hone hstep
    obtain ⟨hpreds, hargs⟩ := hred.fold_first hne.symm hphis.ge hs hstraight
    refine ⟨m, g, hm, hg, hstraight.succs, hpreds ▸ hcount, hstraight.inStep, fun n u v hu hv => ?_⟩
    have hmain := hargs v (List.mem_of_getElem? hv)
    refine ⟨hmain, ?_⟩
    rw [hmain]
    rcases hsuccs with h | h <;> simp [h, hne.symm, eq_comm]
  · -- the first entry goes, and that is the one that was there
    obtain ⟨g, hg, hstraight⟩ := foldBranch_double hmhomed hdouble he hzero hstep
    obtain ⟨hkept, hargs⟩ := hred.fold_second hne.symm hphis.ge hs hkb hcount hstraight
    refine ⟨m, g, hm, hg, hstraight.succs, hkept, hstraight.inStep, fun n u v hu hv => ?_⟩
    have hmain := hargs n u v hu hv
    refine ⟨hmain, ?_⟩
    rw [hmain]
    rcases hsuccs with h | h <;> simp [h, hne.symm, eq_comm]

/-- A branch on true between two blocks that return a phi. -/
def swayed : Func where
  name := "swayed"
  ret := .i32
  params := []
  values := #[{ op := .const, type := .i1, aux := 1, block := some 0 },
    { op := .const, type := .i32, aux := 10, block := some 0 },
    { op := .const, type := .i32, aux := 20, block := some 0 },
    { op := .phi, type := .i32, args := [.value 1], block := some 1 },
    { op := .phi, type := .i32, args := [.value 2], block := some 2 }]
  blocks := #[{ values := [0, 1, 2], kind := .branch, control := .value 0, succs := [1, 2] },
    { values := [3], kind := .ret, control := .value 3, preds := [0] },
    { values := [4], kind := .ret, control := .value 4, preds := [0] }]
  layout := [0, 1, 2]

theorem swayed_drawn : swayed.Drawn := by
  refine ⟨"swayed", .i32, [], [.newBlock, .newBlock,
    .append 0 { op := .const, type := .i1, aux := 1 },
    .append 0 { op := .const, type := .i32, aux := 10 },
    .append 0 { op := .const, type := .i32, aux := 20 },
    .append 1 { op := .phi, type := .i32, args := [.value 1] },
    .append 2 { op := .phi, type := .i32, args := [.value 2] },
    .branch 0 (.value 0) 1 2, .ret 1 (.value 3), .ret 2 (.value 4)], ?_, ?_⟩
  · simp [Edit.Grounded, Edit.blocks, Edit.numNew]
  · rfl

/-- Edge 0, the one that is taken, brought 10 and is redirected; what stays is the 20 of edge 1. -/
theorem redirected_fold_keeps_swayed : swayed.Joined ∧ swayed.PhisInStep 1 ∧ swayed.PhisInStep 2 ∧
    (swayed.block 0).succs = [1, 2] ∧ swayed.argFor 1 0 3 = some (.value 1) ∧
    ∃ m g, swayed.replaceSucc 0 1 2 = .ok m ∧ m.foldBranch 0 0 = .ok g ∧
      g.argFor 2 0 4 = some (.value 2) := by
  have hone : swayed.PhisInStep 1 := by unfold PhisInStep; decide
  have htwo : swayed.PhisInStep 2 := by unfold PhisInStep; decide
  obtain ⟨m, g, hm, hg, -, -, -, hkept⟩ := redirected_fold_keeps swayed_drawn.joined
    (b := 0) (by decide : (1 : BlockId) ≠ 2) (.inl rfl) hone htwo (by decide) (by decide : 0 < 2)
  obtain ⟨hval, -⟩ := hkept 0 3 4 (by decide) (by decide)
  exact ⟨swayed_drawn.joined, hone, htwo, rfl, by decide, m, g, hm, hg, hval.trans (by decide)⟩

end SsaJit.Func
