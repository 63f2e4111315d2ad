import SsaJit.Proofs.Graph.Tree

/-! Dominance frontiers as they are computed: a block with several predecessors is in the frontier of
each block on the way up the dominator tree from a predecessor to its own immediate dominator. These
are the frontiers in their classical form, where the dominance of a block just ends. So whatever stays
the same on the way up, except where a frontier says otherwise, is the same at a predecessor as at the
immediate dominator. -/

namespace SsaJit

variable {f : Func} {t : DomTree} {e a b d p x y : BlockId}

namespace Func

theorem mem_enter (l : List BlockId) (df : Array (List BlockId)) :
    y ∈ (l.foldl (fun df x => df.modify x fun m => if m.contains b then m else m ++ [b]) df).getD x [] ↔
      y ∈ df.getD x [] ∨ y = b ∧ x ∈ l ∧ x < df.size := by
  induction l generalizing df with
  | nil => simp
  | cons a l ih =>
    rw [List.foldl_cons, ih, Array.size_modify]
    have hone : y ∈ (df.modify a fun m => if m.contains b then m else m ++ [b]).getD x [] ↔
        y ∈ df.getD x [] ∨ y = b ∧ x = a ∧ x < df.size := by
      by_cases hxa : x = a
      · subst hxa
        by_cases hlt : x < df.size
        · have hget : (df.modify x fun m => if m.contains b then m else m ++ [b]).getD x [] =
              if (df.getD x []).contains b then df.getD x [] else df.getD x [] ++ [b] := by
            simp [hlt, Array.getElem_modify]
          rw [hget]
          by_cases hin : b ∈ df.getD x []
          · rw [if_pos (by simpa using hin)]
            exact ⟨.inl, fun h => h.elim id fun h => h.1 ▸ hin⟩
          · rw [if_neg (by simpa using hin), List.mem_append, List.mem_singleton]
            exact or_congr_right ⟨fun h => ⟨h, rfl, hlt⟩, fun h => h.1⟩
        · simp [hlt]
      · simp [hxa, Array.getElem?_modify, Ne.symm hxa]
    rw [hone]
    constructor
    · rintro ((h | ⟨rfl, rfl, hlt⟩) | ⟨rfl, hx, hlt⟩)
      · exact .inl h
      · exact .inr ⟨rfl, List.mem_cons_self, hlt⟩
      · exact .inr ⟨rfl, List.mem_cons_of_mem _ hx, hlt⟩
    · rintro (h | ⟨rfl, hx, hlt⟩)
      · exact .inl (.inl h)
      · rcases List.mem_cons.mp hx with rfl | hx
        · exact .inl (.inr ⟨rfl, rfl, hlt⟩)
        · exact .inr ⟨rfl, hx, hlt⟩

theorem size_enter (l : List BlockId) (df : Array (List BlockId)) :
    (l.foldl (fun df x => df.modify x fun m => if m.contains b then m else m ++ [b]) df).size =
      df.size := by
  induction l generalizing df with
  | nil => rfl
  | cons a l ih => rw [List.foldl_cons, ih, Array.size_modify]

theorem nodup_enter (l : List BlockId) (df : Array (List BlockId)) (h : (df.getD x []).Nodup) :
    ((l.foldl (fun df x => df.modify x fun m => if m.contains b then m else m ++ [b]) df).getD x
      []).Nodup := by
  induction l generalizing df with
  | nil => exact h
  | cons a l ih =>
    rw [List.foldl_cons]
    refine ih _ ?_
    by_cases hxa : a = x
    · subst hxa
      by_cases hlt : a < df.size
      · rw [Array.getD_eq_getD_getElem?, Array.getElem?_eq_getElem hlt, Option.getD_some] at h
        simp only [Array.getD_eq_getD_getElem?, Array.getElem?_modify, Array.getElem?_eq_getElem hlt,
          if_pos, Option.map_some, Option.getD_some]
        split
        · exact h
        · next hb =>
          refine List.nodup_append.mpr ⟨h, by simp, fun c hc d hd hcd => hb ?_⟩
          obtain rfl := List.mem_singleton.mp hd
          simpa using hcd ▸ hc
      · simp [hlt]
    · simpa [Array.getElem?_modify, hxa] using h

/-- The blocks from `p` up to where the frontier of `b` ends. -/
def climb (t : DomTree) (b p : BlockId) : List BlockId :=
  (t.dominators p).takeWhile fun x => some x != t.idom.getD b none

/-- What one predecessor adds to the frontiers. -/
def frontierStep (t : DomTree) (b : BlockId) (df : Array (List BlockId)) (p : BlockId) :
    Array (List BlockId) :=
  if t.isReachable p then climbFrontier t (t.idom.getD b none) b p df else df

theorem mem_frontierStep_foldl (l : List BlockId) (df : Array (List BlockId)) :
    (l.foldl (frontierStep t b) df).size = df.size ∧
      (y ∈ (l.foldl (frontierStep t b) df).getD x [] ↔ y ∈ df.getD x [] ∨
        y = b ∧ x < df.size ∧ ∃ p ∈ l, t.isReachable p = true ∧ x ∈ climb t b p) := by
  induction l generalizing df with
  | nil => simp
  | cons p l ih =>
    rw [List.foldl_cons]
    obtain ⟨hsize, hmem⟩ := ih (frontierStep t b df p)
    have hstep : (frontierStep t b df p).size = df.size ∧
        (y ∈ (frontierStep t b df p).getD x [] ↔ y ∈ df.getD x [] ∨
          y = b ∧ x < df.size ∧ t.isReachable p = true ∧ x ∈ climb t b p) := by
      unfold frontierStep
      split
      · next hr =>
        refine ⟨size_enter _ _, ?_⟩
        rw [climbFrontier, mem_enter]
        exact or_congr_right ⟨fun ⟨h₁, h₂, h₃⟩ => ⟨h₁, h₃, hr, h₂⟩, fun ⟨h₁, h₃, _, h₂⟩ => ⟨h₁, h₂, h₃⟩⟩
      · next hr => exact ⟨rfl, ⟨.inl, fun h => h.elim id fun h => absurd h.2.2.1 hr⟩⟩
    refine ⟨hsize.trans hstep.1, ?_⟩
    rw [hmem, hstep.2, hstep.1]
    constructor
    · rintro ((h | ⟨rfl, hlt, hr, hc⟩) | ⟨rfl, hlt, q, hq, hr, hc⟩)
      · exact .inl h
      · exact .inr ⟨rfl, hlt, p, List.mem_cons_self, hr, hc⟩
      · exact .inr ⟨rfl, hlt, q, List.mem_cons_of_mem _ hq, hr, hc⟩
    · rintro (h | ⟨rfl, hlt, q, hq, hr, hc⟩)
      · exact .inl (.inl h)
      · rcases List.mem_cons.mp hq with rfl | hq
        · exact .inl (.inr ⟨rfl, hlt, hr, hc⟩)
        · exact .inr ⟨rfl, hlt, q, hq, hr, hc⟩

/-- What one block adds to the frontiers. -/
def frontiersAt (f : Func) (t : DomTree) (df : Array (List BlockId)) (b : BlockId) :
    Array (List BlockId) :=
  if (f.block b).preds.length < 2 || !t.isReachable b then df
  else (f.block b).preds.foldl (frontierStep t b) df

theorem frontiers_eq : f.frontiers t =
    f.layout.foldl (frontiersAt f t) (Array.replicate f.numBlocks []) := rfl

theorem mem_frontiersAt_foldl (l : List BlockId) (df : Array (List BlockId)) :
    (l.foldl (frontiersAt f t) df).size = df.size ∧
      (y ∈ (l.foldl (frontiersAt f t) df).getD x [] ↔ y ∈ df.getD x [] ∨
        y ∈ l ∧ 2 ≤ (f.block y).preds.length ∧ t.isReachable y = true ∧ x < df.size ∧
          ∃ p ∈ (f.block y).preds, t.isReachable p = true ∧ x ∈ climb t y p) := by
  induction l generalizing df with
  | nil => simp
  | cons b l ih =>
    rw [List.foldl_cons]
    obtain ⟨hsize, hmem⟩ := ih (frontiersAt f t df b)
    have hstep : (frontiersAt f t df b).size = df.size ∧
        (y ∈ (frontiersAt f t df b).getD x [] ↔ y ∈ df.getD x [] ∨ y = b ∧
          2 ≤ (f.block y).preds.length ∧ t.isReachable y = true ∧ x < df.size ∧
            ∃ p ∈ (f.block y).preds, t.isReachable p = true ∧ x ∈ climb t y p) := by
      unfold frontiersAt
      split
      · next hskip =>
        refine ⟨rfl, ⟨.inl, fun h => h.elim id ?_⟩⟩
        rintro ⟨rfl, hlen, hr, _⟩
        simp only [Bool.or_eq_true, decide_eq_true_eq, Bool.not_eq_true'] at hskip
        rcases hskip with hskip | hskip
        · omega
        · simp [hr] at hskip
      · next hskip =>
        simp only [Bool.or_eq_true, decide_eq_true_eq, Bool.not_eq_true', not_or,
          Bool.not_eq_false] at hskip
        obtain ⟨hs, hm⟩ := mem_frontierStep_foldl (t := t) (b := b) (x := x) (y := y)
          (f.block b).preds df
        refine ⟨hs, hm.trans (or_congr_right ⟨?_, ?_⟩)⟩
        · rintro ⟨rfl, hlt, hp⟩
          exact ⟨rfl, by omega, hskip.2, hlt, hp⟩
        · rintro ⟨rfl, _, _, hlt, hp⟩
          exact ⟨rfl, hlt, hp⟩
    refine ⟨hsize.trans hstep.1, ?_⟩
    rw [hmem, hstep.2, hstep.1, List.mem_cons, or_assoc, or_and_right]

/-- No frontier holds a block twice. -/
theorem nodup_frontiers : ((f.frontiers t).getD x []).Nodup := by
  have hpreds : ∀ (b : BlockId) (ps : List BlockId) (df : Array (List BlockId)),
      (df.getD x []).Nodup → ((ps.foldl (frontierStep t b) df).getD x []).Nodup := by
    intro b ps
    induction ps with
    | nil => exact fun _ h => h
    | cons p ps ih =>
      intro df h
      rw [List.foldl_cons]
      refine ih _ ?_
      unfold frontierStep
      split
      · exact nodup_enter _ _ h
      · exact h
  have hblocks : ∀ (bs : List BlockId) (df : Array (List BlockId)),
      (df.getD x []).Nodup → ((bs.foldl (frontiersAt f t) df).getD x []).Nodup := by
    intro bs
    induction bs with
    | nil => exact fun _ h => h
    | cons b bs ih =>
      intro df h
      rw [List.foldl_cons]
      refine ih _ ?_
      unfold frontiersAt
      split
      · exact h
      · exact hpreds b _ df h
  rw [frontiers_eq]
  refine hblocks f.layout _ ?_
  rw [getD_replicate]
  exact List.nodup_nil

/-- The frontiers as they are computed. -/
theorem mem_frontiers : y ∈ (f.frontiers t).getD x [] ↔ y ∈ f.layout ∧
    2 ≤ (f.block y).preds.length ∧ t.isReachable y = true ∧ x < f.numBlocks ∧
      ∃ p ∈ (f.block y).preds, t.isReachable p = true ∧ x ∈ climb t y p := by
  rw [frontiers_eq, (mem_frontiersAt_foldl f.layout _).2, Array.size_replicate, getD_replicate]
  simp

end Func

namespace DomTree.Of

/-- What the way up from `p` passes before a dominator `d` of `p`: the dominators of `p` that do not
dominate `d`. -/
theorem mem_chain_below (h : t.Of f e) (fuel : Nat) :
    ∀ p, Reach f.next e p → t.rpo.idxOf p < fuel → Dom f.next e d p →
      (x ∈ ((t.chain fuel p).takeWhile fun y => some y != some d) ↔
        Dom f.next e x p ∧ ¬ Dom f.next e x d) := by
  induction fuel with
  | zero => intro p _ hlt; omega
  | succ fuel ih =>
    intro p hp hlt hd
    by_cases hpd : p = d
    · subst hpd
      rw [DomTree.chain, List.takeWhile_cons_of_neg (by simp)]
      exact ⟨fun hx => absurd hx List.not_mem_nil, fun hx => absurd hx.1 hx.2⟩
    have hpe : p ≠ e := by
      rintro rfl
      exact hpd hd.eq_start.symm
    obtain ⟨q, hq?, hq, hne, hdom, himm⟩ := h.idom?_spec hp hpe
    have hlt' := (h.settled.forest.up p q hq hpe).1
    rw [DomTree.chain, hq?, List.takeWhile_cons_of_pos (by simpa using hpd), List.mem_cons]
    simp only
    rw [ih q (hdom.reach hp) (by omega) (himm d hd (Ne.symm hpd))]
    constructor
    · rintro (rfl | ⟨hxq, hxd⟩)
      · exact ⟨.refl _ _ _, fun hpd' => hpd (hd.antisymm hp hpd').symm⟩
      · exact ⟨hxq.trans hdom, hxd⟩
    · rintro ⟨hxp, hxd⟩
      by_cases hxp' : x = p
      · exact .inl hxp'
      · exact .inr ⟨himm x hxp hxp', hxd⟩

theorem chain_same {α : Type} {out : BlockId → α} (h : t.Of f e) (fuel : Nat) :
    ∀ p, Reach f.next e p → t.rpo.idxOf p < fuel → Dom f.next e d p →
      (∀ x ∈ (t.chain fuel p).takeWhile fun x => some x != some d,
        ∀ q, t.idom? x = some q → out x = out q) → out p = out d := by
  induction fuel with
  | zero => intro p _ hlt; omega
  | succ fuel ih =>
    intro p hp hlt hd hstep
    by_cases hpd : p = d
    · rw [hpd]
    have hpe : p ≠ e := by
      rintro rfl
      exact hpd hd.eq_start.symm
    obtain ⟨q, hq?, hq, hne, hdom, himm⟩ := h.idom?_spec hp hpe
    have hlt' := (h.settled.forest.up p q hq hpe).1
    rw [DomTree.chain, hq?, List.takeWhile_cons_of_pos (by simpa using hpd)] at hstep
    rw [hstep p List.mem_cons_self q hq?]
    exact ih q (hdom.reach hp) (by omega) (himm d hd (Ne.symm hpd))
      fun x hx => hstep x (List.mem_cons_of_mem _ hx)

/-- A block's only predecessor is its immediate dominator. -/
theorem idom_of_only_pred (h : t.Of f e) (hl : f.Linkage e) (hb : Reach f.next e b) (hbe : b ≠ e)
    (hp : Reach f.next e p) (hd : t.idom? b = some d) (hdp : Dom f.next e d p)
    (hone : ∀ q ∈ (f.block b).preds, q = p) : p = d := by
  have hpb : p ≠ b := by
    rintro rfl
    refine Reach.induct (P := (· ≠ p)) hbe.symm (fun a c ha hap hc => ?_) hb rfl
    rintro rfl
    exact hap (hone a ((hl.preds c a hb ha).mpr hc))
  obtain ⟨d', hd', _, _, _, himm⟩ := h.idom?_spec hb hbe
  obtain rfl : d = d' := Option.some.inj (hd.symm.trans hd')
  have hdom : Dom f.next e p b := .of_preds hbe fun a ha hab => by
    rw [hone a ((hl.preds b a hb ha).mpr hab)]
    exact .refl _ _ _
  exact Dom.antisymm (hdp.reach hp) (himm p hdom hpb) hdp

/-- What stays the same up the tree from every block with `b` in its frontier is the same at a
predecessor of `b` as at the immediate dominator of `b`. -/
theorem same_up {α : Type} {out : BlockId → α} (h : t.Of f e) (hl : f.Linkage e)
    (hb : Reach f.next e b) (hbe : b ≠ e) (hmem : b ∈ f.layout) (hp : Reach f.next e p)
    (hpred : p ∈ (f.block b).preds) (hd : t.idom? b = some d)
    (hstep : ∀ x, Reach f.next e x → b ∈ (f.frontiers t).getD x [] →
      ∀ q, t.idom? x = some q → out x = out q) : out p = out d := by
  obtain ⟨d', hd', hd'', hne, hdom, _⟩ := h.idom?_spec hb hbe
  obtain rfl : d = d' := Option.some.inj (hd.symm.trans hd')
  have hdp : Dom f.next e d p := hdom.of_edge ((hl.preds b p hb hp).mp hpred) hne
  by_cases hlen : 2 ≤ (f.block b).preds.length
  · refine h.chain_same t.idom.size p hp (by rw [h.settled.size]; exact h.idxOf_lt hp) hdp
      fun x hx q hq => ?_
    have hxr : Reach f.next e x := by
      have := (h.mem_dominators hp).mp ((List.takeWhile_subset _) hx)
      exact this.reach hp
    refine hstep x hxr (Func.mem_frontiers.mpr ⟨hmem, hlen, (h.reachable b).mpr hb, h.lt x hxr, p,
      hpred, (h.reachable p).mpr hp, ?_⟩) q hq
    rw [Func.climb, hd'']
    exact hx
  · rw [h.idom_of_only_pred hl hb hbe hp hd hdp]
    obtain ⟨q, hq⟩ := List.length_eq_one_iff.mp (show (f.block b).preds.length = 1 by
      have := List.length_pos_of_mem hpred
      omega)
    rw [hq] at hpred ⊢
    obtain rfl := List.mem_singleton.mp hpred
    exact fun r hr => List.mem_singleton.mp hr

end DomTree.Of

namespace Func

/-- The dominance of `x` just ends at `y`: it reaches to a predecessor and, but for `y` itself, no
further. -/
def EndsAt (f : Func) (x y : BlockId) : Prop :=
  (∃ p ∈ (f.block y).preds, Reach f.next f.start p ∧ Dom f.next f.start x p) ∧
    ¬ (Dom f.next f.start x y ∧ x ≠ y)

/-- Nothing ends at a block with a single predecessor. -/
theorem EndsAt.two_le (ht : t.Of f f.start) (hl : f.Linkage f.start) (hy : Reach f.next f.start y)
    (hys : y ≠ f.start) (h : f.EndsAt x y) : 2 ≤ (f.block y).preds.length := by
  obtain ⟨⟨p, hpred, hp, hxp⟩, hend⟩ := h
  obtain ⟨d, hd, -, hne, hdom, -⟩ := ht.idom?_spec hy hys
  have hdp : Dom f.next f.start d p := hdom.of_edge ((hl.preds y p hy hp).mp hpred) hne
  have hpos := List.length_pos_of_mem hpred
  by_contra hlen
  obtain ⟨q, hq⟩ := List.length_eq_one_iff.mp (show (f.block y).preds.length = 1 by omega)
  rw [hq] at hpred
  obtain rfl := List.mem_singleton.mp hpred
  obtain rfl : p = d := ht.idom_of_only_pred hl hy hys hp hd hdp fun r hr => by simpa [hq] using hr
  refine hend ⟨hxp.trans hdom, ?_⟩
  rintro rfl
  exact hne (hdom.antisymm hy hxp)

/-- Frontiers are computed exactly: among the blocks that control comes to, the frontier of a block
holds those where its dominance just ends, each once, and nothing else; all other frontiers are
empty. -/
theorem frontiers_exact (h : f.Wired) (hentry : (f.block f.start).preds = []) :
    ∃ t, f.domTree = .ok t ∧
      (∀ x y, Reach f.next f.start x → Reach f.next f.start y →
        (y ∈ (f.frontiers t).getD x [] ↔ f.EndsAt x y)) ∧
      (∀ x, ((f.frontiers t).getD x []).Nodup) ∧
      (∀ x, ∀ y ∈ (f.frontiers t).getD x [], Reach f.next f.start y) ∧
      ∀ x, ¬ Reach f.next f.start x → (f.frontiers t).getD x [] = [] := by
  obtain ⟨t, ht, hof⟩ := h.domTree
  have hclimb : ∀ {x y p}, Reach f.next f.start y → y ≠ f.start → p ∈ (f.block y).preds →
      Reach f.next f.start p → (x ∈ climb t y p ↔ Dom f.next f.start x p ∧
        ¬ (Dom f.next f.start x y ∧ x ≠ y)) := by
    intro x y p hy hys hpred hp
    obtain ⟨d, -, hd, hne, hdom, himm⟩ := hof.idom?_spec hy hys
    have hdp := hdom.of_edge ((h.linkage.preds y p hy hp).mp hpred) hne
    have hfuel : t.rpo.idxOf p < t.idom.size := by
      rw [hof.settled.size]
      exact hof.idxOf_lt hp
    rw [climb, hd, DomTree.dominators, hof.mem_chain_below _ p hp hfuel hdp]
    refine and_congr_right fun _ => not_congr ⟨fun hxd => ⟨hxd.trans hdom, ?_⟩, fun hx =>
      himm x hx.1 hx.2⟩
    rintro rfl
    exact hne (hdom.antisymm hy hxd)
  have hstart : ∀ {y}, 0 < (f.block y).preds.length → y ≠ f.start := by
    rintro y hpos rfl
    simp [hentry] at hpos
  refine ⟨t, ht, fun x y hx hy => ?_, fun _ => nodup_frontiers, fun x y hy =>
    (hof.reachable y).mp (mem_frontiers.mp hy).2.2.1, fun x hx => ?_⟩
  · rw [mem_frontiers]
    constructor
    · rintro ⟨-, hlen, -, -, p, hpred, hp, hxp⟩
      have hp := (hof.reachable p).mp hp
      obtain ⟨hdom, hend⟩ := (hclimb hy (hstart (by omega)) hpred hp).mp hxp
      exact ⟨⟨p, hpred, hp, hdom⟩, hend⟩
    · intro hends
      obtain ⟨p, hpred, hp, hxp⟩ := hends.1
      have hys := hstart (List.length_pos_of_mem hpred)
      exact ⟨h.reach_mem hy, hends.two_le hof h.linkage hy hys, (hof.reachable y).mpr hy,
        hof.lt x hx, p, hpred, (hof.reachable p).mpr hp,
        (hclimb hy hys hpred hp).mpr ⟨hxp, hends.2⟩⟩
  · refine List.eq_nil_iff_forall_not_mem.mpr fun y hy => hx ?_
    obtain ⟨-, hlen, hyr, -, p, hpred, hp, hxp⟩ := mem_frontiers.mp hy
    have hp := (hof.reachable p).mp hp
    exact ((hclimb ((hof.reachable y).mp hyr) (hstart (by omega)) hpred hp).mp hxp).1.reach hp

/-- A loop of one block that is entered twice from one branch and left to itself or onward, with a
block that control never comes to in front of the exit. -/
def pinched : Func where
  name := "pinched"
  ret := .void
  params := []
  layout := [0, 1, 2, 3]
  blocks := #[
    { kind := .branch, succs := [1, 1], preds := [] },
    { kind := .branch, succs := [1, 2], preds := [0, 0, 1] },
    { kind := .ret, preds := [1, 3] },
    { kind := .jump, succs := [2], preds := [] }]

/-- The dominance of the loop just ends at its own head. -/
theorem frontiers_exact_pinched : pinched.Wired ∧ (pinched.block pinched.start).preds = [] ∧
    ∃ t, pinched.domTree = .ok t ∧ 1 ∈ (pinched.frontiers t).getD 1 [] ∧
      2 ∉ (pinched.frontiers t).getD 1 [] := by
  have hwired : pinched.Wired := ⟨by decide, by decide, by decide, by decide⟩
  have hentry : (pinched.block pinched.start).preds = [] := by decide
  obtain ⟨t, ht, hmem, -⟩ := frontiers_exact hwired hentry
  have hone : Reach pinched.next pinched.start 1 := (Reach.refl _ _).step (by decide)
  have htwo : Reach pinched.next pinched.start 2 := hone.step (by decide)
  refine ⟨hwired, hentry, t, ht, (hmem 1 1 hone hone).mpr ⟨⟨1, by decide, hone, .refl _ _ _⟩,
    fun h => h.2 rfl⟩, fun hin => ((hmem 1 2 hone htwo).mp hin).2 ⟨?_, by decide⟩⟩
  -- the only way to the exit that begins at the entry leads through the loop
  refine Dom.of_preds (by decide) fun b hb hedge => ?_
  have hlt : b < 4 := hwired.linkage.lt b hb
  have hb1 : b = 1 ∨ b = 3 := by
    have hall : ∀ b < 4, 2 ∈ pinched.next b → b = 1 ∨ b = 3 := by decide
    exact hall b hlt hedge
  rcases hb1 with rfl | rfl
  · exact .refl _ _ _
  · obtain ⟨a, ha, hedge⟩ := hb.exists_pred (by decide)
    have hnone : ∀ a < 4, 3 ∉ pinched.next a := by decide
    exact absurd hedge (hnone a (hwired.linkage.lt a ha))

end Func
end SsaJit
