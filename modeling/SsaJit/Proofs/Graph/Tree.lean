import SsaJit.Proofs.Graph.Dominators

/-! The dominator tree: its queries answer what dominance along trails says. -/

namespace SsaJit

variable {f : Func} {t : DomTree} {e a b d x : BlockId}

/-- Blocks named by edges exist, and reachable blocks know their reachable predecessors. -/
structure Func.Linkage (f : Func) (e : BlockId) : Prop where
  lt : ∀ b, Reach f.next e b → b < f.numBlocks
  preds : ∀ b p, Reach f.next e b → Reach f.next e p → (p ∈ (f.block b).preds ↔ b ∈ f.next p)

/-- The tree belongs to the blocks that `e` reaches. -/
structure DomTree.Of (t : DomTree) (f : Func) (e : BlockId) : Prop where
  post : Func.Postordered f e t.rpo
  reachable : ∀ b, t.isReachable b = true ↔ Reach f.next e b
  settled : Func.Settled f e t.rpo t.idom
  /-- The rounds have come to rest. -/
  still : f.idomRound t.order t.rpo.tail t.idom = .ok (t.idom, false)
  lt : ∀ b, Reach f.next e b → b < f.numBlocks
  children : ∀ d < f.numBlocks, t.childrenOf d =
    t.rpo.tail.filter fun b => Func.parents t.idom b == some d

namespace Func

theorem getD_replicate {α : Type} (n i : Nat) (x : α) : (Array.replicate n x).getD i x = x := by
  by_cases hi : i < n <;> simp [hi]

/-- Entering the places of a list's elements into a table. -/
theorem places_foldl {α : Type} (g : Nat → α) (none : α) {n : Nat} (l : List BlockId) :
    ∀ (k : Nat) (a : Array α), a.size = n → l.Nodup → (∀ b ∈ l, b < n) → ∀ b,
      ((l.zipIdx k).foldl (fun (a : Array α) (x : BlockId × Nat) =>
        a.setIfInBounds x.1 (g x.2)) a).getD b none =
        if b ∈ l then g (k + l.idxOf b) else a.getD b none := by
  induction l with
  | nil => intro k a _ _ _ b; simp
  | cons c l ih =>
    intro k a hsize hnd hlt b
    obtain ⟨hc, hnd⟩ := List.nodup_cons.mp hnd
    rw [List.zipIdx_cons, List.foldl_cons,
      ih (k + 1) _ (by simpa using hsize) hnd (fun b hb => hlt b (List.mem_cons_of_mem _ hb)) b]
    have hcn : c < a.size := by rw [hsize]; exact hlt c List.mem_cons_self
    by_cases hbl : b ∈ l
    · have hbc : c ≠ b := fun h => hc (h ▸ hbl)
      rw [if_pos hbl, if_pos (List.mem_cons_of_mem _ hbl), List.idxOf_cons_ne _ hbc]
      congr 1
      omega
    · rw [if_neg hbl]
      by_cases hbc : b = c
      · subst hbc
        simp [hcn]
      · simp [hbl, hbc, Array.getElem?_setIfInBounds_ne (Ne.symm hbc)]

theorem children_foldl {n : Nat} (parent : BlockId → Option BlockId) (l : List BlockId) :
    ∀ (c : Array (List BlockId)), c.size = n → ∀ d < n,
      (l.foldl (fun (c : Array (List BlockId)) b => match parent b with
        | some d => c.modify d (· ++ [b])
        | none => c) c).getD d [] = c.getD d [] ++ l.filter fun b => parent b == some d := by
  induction l with
  | nil => simp
  | cons b l ih =>
    intro c hsize d hd
    rw [List.foldl_cons]
    cases hp : parent b with
    | none =>
      rw [ih c hsize d hd]
      simp [hp]
    | some q =>
      simp only
      rw [ih _ (by simpa using hsize) d hd]
      have hdc : d < c.size := hsize ▸ hd
      by_cases hq : q = d
      · subst hq
        simp [hp, hdc, Array.getElem_modify]
      · simp [hp, hdc, Array.getElem_modify, hq]

theorem domTree_spec (he : f.entry = .ok e) (hl : f.Linkage e) :
    ∃ t, f.domTree = .ok t ∧ t.Of f e := by
  have hpost := reversePostOrderFrom_spec hl.lt
  have hlt : ∀ b ∈ f.reversePostOrderFrom e, b < f.numBlocks :=
    fun b hb => hl.lt b ((hpost.mem_iff b).mp hb)
  unfold domTree
  simp only [he, bind, Except.bind, pure, Except.pure]
  generalize horder : List.foldl (fun (a : Array (Option Nat)) (x : BlockId × Nat) =>
    a.setIfInBounds x.1 (some x.2)) (Array.replicate f.numBlocks none)
    (f.reversePostOrderFrom e).zipIdx = order
  have hplaces : ∀ b, order.getD b none = if b ∈ f.reversePostOrderFrom e
      then some ((f.reversePostOrderFrom e).idxOf b) else none := by
    intro b
    rw [← horder, places_foldl some none _ 0 _ (by simp) hpost.nodup hlt b, getD_replicate, Nat.zero_add]
  have hord : Ordered f e (f.reversePostOrderFrom e) order := ⟨hpost, hl.lt, hplaces, hl.preds⟩
  have hen := hl.lt e (.refl _ _)
  have hstart : ∀ b, parents ((Array.replicate f.numBlocks none).setIfInBounds e (some e)) b =
      if b = e then some e else none := by
    intro b
    rw [Stage.parents_set (by simpa using hen), parents, getD_replicate]
  have hstage : Stage f e (f.reversePostOrderFrom e) 0 [e]
      ((Array.replicate f.numBlocks none).setIfInBounds e (some e)) := by
    refine ⟨by simp, ⟨by simp [hstart], ?_, ?_, ?_⟩, ?_, by simp, ?_, ?_⟩
    · intro b d hb
      have : b = e := by simp only [hstart] at hb; split at hb <;> simp_all
      exact this ▸ .refl _ _
    · intro b d hb hbe
      simp [hstart, hbe] at hb
    · intro b d hb hbe
      simp [hstart, hbe] at hb
    · intro b hb
      obtain rfl : b = e := by simpa using hb
      simp [hstart]
    · intro b d hd hb
      obtain rfl : b = e := by simpa using hb
      obtain rfl : b = d := by simpa [hstart] using hd
      exact fun p hp => hp.trail.self_mem
    · intro b d hd hb
      have hbe : b ≠ e := by simpa using hb
      simp [hstart, hbe] at hd
  obtain ⟨idom, hfix, hset, hstill⟩ := idomFix_spec hord (f.numBlocks * f.numBlocks + f.numBlocks + 1) 0 _
    hstage (by omega)
  rw [hfix]
  refine ⟨_, rfl, hpost, fun b => ?_, hset, hstill, hl.lt, fun d hd => ?_⟩
  · rw [DomTree.isReachable, hplaces, ← hpost.mem_iff]
    split <;> simp_all
  · rw [DomTree.childrenOf]
    have := children_foldl (parents idom) (f.reversePostOrderFrom e).tail
      (Array.replicate f.numBlocks []) (by simp) d hd
    rwa [getD_replicate, List.nil_append] at this

end Func

namespace DomTree.Of

theorem idom?_eq (h : t.Of f e) : t.idom? b =
    if b = e then none else Func.parents t.idom b := by
  unfold DomTree.idom?
  by_cases hbe : b = e
  · subst hbe
    have : t.idom.getD b none = some b := h.settled.forest.root
    simp [this]
  · rw [if_neg hbe]
    change _ = t.idom.getD b none
    cases hd : t.idom.getD b none with
    | none => rfl
    | some d =>
      have := (h.settled.forest.up b d hd hbe).1
      have hne : d ≠ b := fun heq => by rw [heq] at this; omega
      simp [hne]

/-- The immediate dominator: a strict one that every other dominates. -/
theorem idom?_spec (h : t.Of f e) (hb : Reach f.next e b) (hbe : b ≠ e) :
    ∃ d, t.idom? b = some d ∧ t.idom.getD b none = some d ∧ d ≠ b ∧ Dom f.next e d b ∧
      ∀ x, Dom f.next e x b → x ≠ b → Dom f.next e x d := by
  obtain ⟨d, hd⟩ := Option.isSome_iff_exists.mp (h.settled.all b hb)
  have hlt := (h.settled.forest.up b d hd hbe).1
  refine ⟨d, by rw [h.idom?_eq, if_neg hbe, hd], hd, ?_, h.settled.dom b d hd,
    h.settled.forest.keeps b d hd hbe⟩
  intro heq
  rw [heq] at hlt
  omega

/-- The children of a block are the blocks it is the immediate dominator of. -/
theorem mem_childrenOf (h : t.Of f e) (hb : Reach f.next e b) (hx : x ∈ t.childrenOf b) :
    Reach f.next e x ∧ x ≠ e ∧ t.idom? x = some b := by
  rw [h.children b (h.lt b hb), List.mem_filter, beq_iff_eq] at hx
  obtain ⟨hmem, hpar⟩ := hx
  have hxe : x ≠ e := by
    obtain ⟨rest, hrest⟩ : ∃ rest, t.rpo = e :: rest := by
      cases hr : t.rpo with
      | nil => simp [hr] at hmem
      | cons y rest =>
        have := h.post.head?
        rw [hr] at this
        exact ⟨rest, by rw [Option.some.inj this]⟩
    have hnd := h.post.nodup
    rw [hrest] at hmem hnd
    rintro rfl
    exact (List.nodup_cons.mp hnd).1 hmem
  exact ⟨(h.post.mem_iff x).mp (List.mem_of_mem_tail hmem), hxe,
    by rw [h.idom?_eq, if_neg hxe, hpar]⟩

theorem child_spec (h : t.Of f e) (hb : Reach f.next e b) (hx : x ∈ t.childrenOf b) :
    Reach f.next e x ∧ Dom f.next e b x ∧ b ≠ x := by
  obtain ⟨hreach, hxe, hidom⟩ := h.mem_childrenOf hb hx
  obtain ⟨d, hd, _, hne, hdom, _⟩ := h.idom?_spec hreach hxe
  obtain rfl : d = b := Option.some.inj (hd.symm.trans hidom)
  exact ⟨hreach, hdom, hne⟩

/-- What dominates a child, but for the child itself, dominates its parent. -/
theorem dom_child_iff (h : t.Of f e) (hb : Reach f.next e b) (hx : x ∈ t.childrenOf b) :
    Dom f.next e d x ∧ d ≠ x ↔ Dom f.next e d b := by
  obtain ⟨hrx, hbx, hne⟩ := h.child_spec hb hx
  refine ⟨fun ⟨hdx, hdne⟩ => ?_, fun hdb => ⟨hdb.trans hbx, ?_⟩⟩
  · obtain ⟨-, hxe, hidom⟩ := h.mem_childrenOf hb hx
    obtain ⟨q, hq, -, -, -, himm⟩ := h.idom?_spec hrx hxe
    obtain rfl : b = q := Option.some.inj (hidom.symm.trans hq)
    exact himm d hdx hdne
  · rintro rfl
    exact hne (hbx.antisymm hrx hdb)

theorem child_mem (h : t.Of f e) (hx : Reach f.next e x) (hd : t.idom? x = some b) :
    x ∈ t.childrenOf b := by
  rw [h.idom?_eq] at hd
  split at hd
  · cases hd
  · next hxe =>
    rw [h.children b (h.lt b ((h.settled.dom x b hd).reach hx)), List.mem_filter, beq_iff_eq]
    refine ⟨?_, hd⟩
    have hmem := (h.post.mem_iff x).mpr hx
    have hhead := h.post.head?
    cases hr : t.rpo with
    | nil => simp [hr] at hhead
    | cons y rest =>
      rw [hr] at hmem hhead
      obtain rfl := Option.some.inj hhead
      exact (List.mem_cons.mp hmem).resolve_left hxe

theorem nodup_childrenOf (h : t.Of f e) (hb : Reach f.next e b) : (t.childrenOf b).Nodup := by
  rw [h.children b (h.lt b hb)]
  exact (h.post.nodup.sublist (List.tail_sublist _)).filter _

/-- An immediate dominator comes earlier in reverse postorder. -/
theorem idxOf_idom (h : t.Of f e) (hd : t.idom? x = some d) : t.rpo.idxOf d < t.rpo.idxOf x := by
  rw [h.idom?_eq] at hd
  split at hd
  · cases hd
  · next hxe => exact (h.settled.forest.up x d hd hxe).1

theorem idxOf_dom (h : t.Of f e) (hb : Reach f.next e b) (hdom : Dom f.next e d b) (hne : d ≠ b) :
    t.rpo.idxOf d < t.rpo.idxOf b := by
  induction hk : t.rpo.idxOf b using Nat.strongRecOn generalizing b with
  | _ k ih =>
    subst hk
    have hbe : b ≠ e := by
      rintro rfl
      exact hne hdom.eq_start
    obtain ⟨q, hq, -, -, hqb, himm⟩ := h.idom?_spec hb hbe
    have hlt := h.idxOf_idom hq
    by_cases hdq : d = q
    · rwa [hdq]
    · exact (ih _ hlt (hqb.reach hb) (himm d hdom hne) hdq rfl).trans hlt

/-- What a block dominates, but for the block itself, one of its children dominates. -/
theorem exists_child (h : t.Of f e) (hx : Reach f.next e x) (hdom : Dom f.next e b x) (hne : b ≠ x) :
    ∃ c ∈ t.childrenOf b, Dom f.next e c x := by
  induction hk : t.rpo.idxOf x using Nat.strongRecOn generalizing x with
  | _ k ih =>
    subst hk
    have hxe : x ≠ e := by
      rintro rfl
      exact hne hdom.eq_start
    obtain ⟨d, hd, -, -, hdx, himm⟩ := h.idom?_spec hx hxe
    by_cases hbd : b = d
    · exact ⟨x, h.child_mem hx (hbd ▸ hd), .refl _ _ _⟩
    · obtain ⟨c, hc, hcd⟩ := ih _ (h.idxOf_idom hd) (hdx.reach hx) (himm b hdom hne) hbd rfl
      exact ⟨c, hc, hcd.trans hdx⟩

/-- Of two children of a block only one dominates a block. -/
theorem child_unique (h : t.Of f e) (hb : Reach f.next e b) {c c' : BlockId} (hc : c ∈ t.childrenOf b)
    (hc' : c' ∈ t.childrenOf b) (hx : Reach f.next e x) (hcx : Dom f.next e c x)
    (hcx' : Dom f.next e c' x) : c = c' := by
  -- a child does not dominate another, as it would dominate their parent
  have hapart : ∀ {y z}, y ∈ t.childrenOf b → z ∈ t.childrenOf b → Dom f.next e y z → y = z := by
    intro y z hy hz hyz
    by_contra hne
    obtain ⟨hry, hby, hbne⟩ := h.child_spec hb hy
    exact hbne (hby.antisymm hry ((h.dom_child_iff hb hz).mp ⟨hyz, hne⟩))
  induction hk : t.rpo.idxOf x using Nat.strongRecOn generalizing x with
  | _ k ih =>
    subst hk
    by_cases heq : c = x
    · exact (hapart hc' hc (heq ▸ hcx')).symm
    by_cases heq' : c' = x
    · exact hapart hc hc' (heq' ▸ hcx)
    have hxe : x ≠ e := by
      rintro rfl
      exact heq hcx.eq_start
    obtain ⟨d, hd, -, -, hdx, himm⟩ := h.idom?_spec hx hxe
    exact ih _ (h.idxOf_idom hd) (hdx.reach hx) (himm c hcx heq) (himm c' hcx' heq') rfl

theorem idxOf_lt (h : t.Of f e) (hb : Reach f.next e b) : t.rpo.idxOf b < f.numBlocks := by
  have hlen : t.rpo.length ≤ f.numBlocks := by
    have hsub : t.rpo.Subperm (List.range f.numBlocks) :=
      List.subperm_of_subset h.post.nodup fun x hx =>
        List.mem_range.mpr (h.lt x ((h.post.mem_iff x).mp hx))
    simpa using hsub.length_le
  exact Nat.lt_of_lt_of_le (List.idxOf_lt_length_of_mem ((h.post.mem_iff b).mpr hb)) hlen

theorem mem_chain (h : t.Of f e) (fuel : Nat) :
    ∀ b, Reach f.next e b → t.rpo.idxOf b < fuel →
      (a ∈ t.chain fuel b ↔ Dom f.next e a b) := by
  induction fuel with
  | zero => intro b _ hlt; omega
  | succ fuel ih =>
    intro b hb hlt
    rw [DomTree.chain, List.mem_cons]
    by_cases hbe : b = e
    · subst hbe
      rw [h.idom?_eq, if_pos rfl]
      constructor
      · rintro (rfl | hm)
        · exact .refl _ _ _
        · simp at hm
      · exact fun hd => .inl hd.eq_start
    · obtain ⟨d, hd?, hd, hne, hdom, himm⟩ := h.idom?_spec hb hbe
      have hlt' := (h.settled.forest.up b d hd hbe).1
      rw [hd?]
      simp only
      rw [ih d (hdom.reach hb) (by omega)]
      constructor
      · rintro (rfl | had)
        · exact .refl _ _ _
        · exact had.trans hdom
      · intro hab
        by_cases heq : a = b
        · exact .inl heq
        · exact .inr (himm a hab heq)

theorem mem_dominators (h : t.Of f e) (hb : Reach f.next e b) :
    a ∈ t.dominators b ↔ Dom f.next e a b := by
  refine h.mem_chain _ b hb ?_
  rw [h.settled.size]
  exact h.idxOf_lt hb

theorem dominates_iff (h : t.Of f e) :
    t.dominates a b = true ↔ Reach f.next e b ∧ Dom f.next e a b := by
  unfold DomTree.dominates
  simp only [Bool.and_eq_true, h.reachable, List.contains_eq_mem, decide_eq_true_eq]
  constructor
  · rintro ⟨⟨_, hb⟩, hm⟩
    exact ⟨hb, (h.mem_dominators hb).mp hm⟩
  · rintro ⟨hb, hd⟩
    exact ⟨⟨hd.reach hb, hb⟩, (h.mem_dominators hb).mpr hd⟩

end DomTree.Of
end SsaJit

/-! ## Dominators all told

Dominators of a control-flow graph, all told: the computation ends by itself, `dominates` answers
whether every trail passes a block, and `idom?` is the nearest strict dominator. The graph may have
blocks that control never comes to, edges in parallel, edges back to the entry and cycles with several
ways in. -/

namespace SsaJit

variable {f : Func} {t : DomTree} {a b c d : BlockId}

namespace Func

/-- The blocks make a control-flow graph: there is an entry, edges lead from block to block, and each is
entered as often at one end as at the other. -/
structure Wired (f : Func) : Prop where
  layout_ne : f.layout ≠ []
  lt : ∀ b ∈ f.layout, b < f.numBlocks
  succs_mem : ∀ b ∈ f.layout, ∀ s ∈ (f.block b).succs, s ∈ f.layout
  edges : ∀ b ∈ f.layout, ∀ c ∈ f.layout, (f.block b).succs.count c = (f.block c).preds.count b

namespace Wired

theorem start_mem (h : f.Wired) : f.start ∈ f.layout := by
  obtain ⟨e, l, hl⟩ := List.exists_cons_of_ne_nil h.layout_ne
  simp [start, hl]

theorem entry_eq (h : f.Wired) : f.entry = .ok f.start := by
  obtain ⟨e, l, hl⟩ := List.exists_cons_of_ne_nil h.layout_ne
  simp [entry, start, hl]

theorem reach_mem (h : f.Wired) (hb : Reach f.next f.start b) : b ∈ f.layout :=
  hb.induct h.start_mem fun x _ _ hx hy => h.succs_mem x hx _ hy

theorem linkage (h : f.Wired) : f.Linkage f.start where
  lt b hb := h.lt b (h.reach_mem hb)
  preds b p hb hp := by
    have hcount := h.edges p (h.reach_mem hp) b (h.reach_mem hb)
    rw [next, ← List.count_pos_iff, ← List.count_pos_iff, hcount]

theorem domTree (h : f.Wired) : ∃ t, f.domTree = .ok t ∧ t.Of f f.start :=
  domTree_spec h.entry_eq h.linkage

end Wired

/-- The walk through the graph and the rounds over the tree have ended by themselves: no block is open,
and one more round would change nothing. -/
structure CameToRest (f : Func) (t : DomTree) : Prop where
  walk : (Walk.run f f.walkBound ⟨[f.start], [(f.start, f.next f.start)], []⟩).stack = []
  rounds : f.idomRound t.order t.rpo.tail t.idom = .ok (t.idom, false)

theorem Wired.cameToRest (h : f.Wired) (ht : t.Of f f.start) : f.CameToRest t where
  walk := Walk.rests h.linkage.lt
  rounds := ht.still

/-- `d` is a strict dominator of `b`, and every other one dominates it. -/
def NearestDominator (f : Func) (d b : BlockId) : Prop :=
  (Dom f.next f.start d b ∧ d ≠ b) ∧
    ∀ x, Dom f.next f.start x b → x ≠ b → x ≠ d → Dom f.next f.start x d

theorem NearestDominator.unique (hb : Reach f.next f.start b) (hc : f.NearestDominator c b)
    (hd : f.NearestDominator d b) : c = d := by
  by_contra hne
  have hcd := hd.2 c hc.1.1 hc.1.2 hne
  have hdc := hc.2 d hd.1.1 hd.1.2 fun h => hne h.symm
  exact hne (hcd.antisymm (hd.1.1.reach hb) hdc)

end Func

/-- The immediate dominator is the nearest one. -/
theorem DomTree.Of.nearest (h : t.Of f f.start) (hb : Reach f.next f.start b) (hbe : b ≠ f.start) :
    ∃ d, t.idom? b = some d ∧ f.NearestDominator d b := by
  obtain ⟨d, hd, -, hne, hdom, hall⟩ := h.idom?_spec hb hbe
  exact ⟨d, hd, ⟨hdom, hne⟩, fun x hx hxb _ => hall x hx hxb⟩

namespace Func

/-- Dominators are computed exactly: `dominates a b` says that control comes to both blocks and to `b`
only through `a`, and every other block that control comes to has the one nearest strict dominator for
its immediate dominator. -/
theorem dominators_exact (h : f.Wired) : ∃ t, f.domTree = .ok t ∧ f.CameToRest t ∧
    (∀ a b, t.dominates a b = true ↔ Reach f.next f.start a ∧ Reach f.next f.start b ∧
      ∀ p, Trail f.next f.start b p → a ∈ p) ∧
    ∀ b, Reach f.next f.start b → b ≠ f.start →
      ∃ d, t.idom? b = some d ∧ f.NearestDominator d b ∧
        ∀ c, f.NearestDominator c b → c = d := by
  obtain ⟨t, ht, hof⟩ := h.domTree
  refine ⟨t, ht, h.cameToRest hof, fun a b => ?_, fun b hb hbe => ?_⟩
  · rw [hof.dominates_iff]
    exact ⟨fun ⟨hb, hd⟩ => ⟨hd.reach hb, hb, hd⟩, fun ⟨_, hb, hd⟩ => ⟨hb, hd⟩⟩
  · obtain ⟨d, hd, hnear⟩ := hof.nearest hb hbe
    exact ⟨d, hd, hnear, fun c hc => hc.unique hb hnear⟩

/-- Two ways into a cycle, an edge back to the entry, edges in parallel and a block that control never
comes to. -/
def tangled : Func where
  name := "tangled"
  ret := .void
  params := []
  layout := [0, 1, 2, 3, 4]
  blocks := #[
    { kind := .branch, succs := [1, 2], preds := [3] },
    { kind := .branch, succs := [2, 3], preds := [0, 2, 2] },
    { kind := .branch, succs := [1, 1], preds := [0, 1, 4] },
    { kind := .jump, succs := [0], preds := [1] },
    { kind := .jump, succs := [2], preds := [] }]

theorem dominators_exact_tangled : tangled.Wired ∧ ∃ t, tangled.domTree = .ok t ∧
    tangled.CameToRest t ∧
    (t.dominates 1 3 = true ↔ Reach tangled.next 0 1 ∧ Reach tangled.next 0 3 ∧
      ∀ p, Trail tangled.next 0 3 p → 1 ∈ p) ∧
    (Reach tangled.next 0 2 → ∃ d, t.idom? 2 = some d ∧ tangled.NearestDominator d 2) := by
  have hwired : tangled.Wired := ⟨by decide, by decide, by decide, by decide⟩
  obtain ⟨t, ht, hrest, hdom, hidom⟩ := dominators_exact hwired
  refine ⟨hwired, t, ht, hrest, hdom 1 3, fun hreach => ?_⟩
  obtain ⟨d, hd, hnear, -⟩ := hidom 2 hreach (by decide)
  exact ⟨d, hd, hnear⟩

end Func
end SsaJit
