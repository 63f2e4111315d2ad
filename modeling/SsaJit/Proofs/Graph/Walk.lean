import Mathlib.Algebra.Order.Ring.Nat
import SsaJit.Graph.Order
import SsaJit.Proofs.Graph.Paths

/-! The depth-first walk visits the reachable blocks, each once, and leaves every block but the start
before one of its predecessors. The last fact is all that the dominator algorithm needs of reverse
postorder. -/

namespace SsaJit.Func

variable {f : Func} {e b s : BlockId} {w : Walk}

/-- Each open block is a successor of the one below it, and the start is at the bottom. -/
def Linked (f : Func) (e : BlockId) : List (BlockId × List BlockId) → Prop
  | [] => True
  | [x] => x.1 = e
  | x :: y :: rest => x.1 ∈ f.next y.1 ∧ Linked f e (y :: rest)

/-- What every step of a walk keeps. -/
structure Walk.Sound (f : Func) (e : BlockId) (w : Walk) : Prop where
  nodup : w.seen.Nodup
  perm : w.seen.Perm (w.stack.map (·.1) ++ w.done)
  reach : ∀ b ∈ w.seen, Reach f.next e b
  untried : ∀ x ∈ w.stack, ∀ s ∈ x.2, s ∈ f.next x.1
  tried : ∀ x ∈ w.stack, ∀ s ∈ f.next x.1, s ∈ w.seen ∨ s ∈ x.2
  closed : ∀ b ∈ w.done, ∀ s ∈ f.next b, s ∈ w.seen
  linked : Linked f e w.stack
  parent : ∀ l b r, w.done = l ++ b :: r → b ≠ e →
    ∃ p, b ∈ f.next p ∧ (p ∈ w.stack.map (·.1) ∨ p ∈ l)
  start : w.stack = [] → w.done.head? = some e

theorem Walk.Sound.mem_seen (h : w.Sound f e) :
    b ∈ w.seen ↔ b ∈ w.stack.map (·.1) ∨ b ∈ w.done := by
  rw [h.perm.mem_iff, List.mem_append]

theorem Walk.sound_init (f : Func) (e : BlockId) :
    Walk.Sound f e ⟨[e], [(e, f.next e)], []⟩ where
  nodup := by simp
  perm := by simp
  reach := by
    intro b hb
    obtain rfl : b = e := by simpa using hb
    exact .refl _ _
  untried := by simp
  tried := by
    intro x hx s hs
    obtain rfl : x = (e, f.next e) := by simpa using hx
    exact .inr hs
  closed := by simp
  linked := rfl
  parent := by simp
  start := by simp

/-- Passing over a successor that has been entered before. -/
theorem Walk.Sound.skip {rest : List BlockId} {below : List (BlockId × List BlockId)}
    (h : w.Sound f e) (hst : w.stack = (b, s :: rest) :: below) (hs : s ∈ w.seen) :
    Walk.Sound f e { w with stack := (b, rest) :: below } := by
  have htop : (b, s :: rest) ∈ w.stack := by rw [hst]; exact List.mem_cons_self
  have hsub : ∀ x ∈ below, x ∈ w.stack := fun x hx => by rw [hst]; exact List.mem_cons_of_mem _ hx
  refine ⟨h.nodup, by simpa [hst] using h.perm, h.reach, ?_, ?_, h.closed, ?_, ?_, by simp⟩
  · intro x hx t ht
    rcases List.mem_cons.mp hx with rfl | hx
    · exact h.untried _ htop t (List.mem_cons_of_mem _ ht)
    · exact h.untried x (hsub x hx) t ht
  · intro x hx t ht
    rcases List.mem_cons.mp hx with rfl | hx
    · rcases h.tried _ htop t ht with hseen | hrest
      · exact .inl hseen
      · rcases List.mem_cons.mp hrest with rfl | hrest
        · exact .inl hs
        · exact .inr hrest
    · exact h.tried x (hsub x hx) t ht
  · have hl := h.linked
    rw [hst] at hl
    cases below <;> exact hl
  · intro l c r hd hc
    simpa [hst] using h.parent l c r hd hc

/-- Entering a successor. -/
theorem Walk.Sound.enter {rest : List BlockId} {below : List (BlockId × List BlockId)}
    (h : w.Sound f e) (hst : w.stack = (b, s :: rest) :: below) (hs : s ∉ w.seen) :
    Walk.Sound f e
      { w with seen := s :: w.seen, stack := (s, f.next s) :: (b, rest) :: below } := by
  have htop : (b, s :: rest) ∈ w.stack := by rw [hst]; exact List.mem_cons_self
  have hedge : s ∈ f.next b := h.untried _ htop s List.mem_cons_self
  have hb : b ∈ w.seen := h.mem_seen.mpr (.inl (by simp [hst]))
  refine ⟨List.nodup_cons.mpr ⟨hs, h.nodup⟩, ?_, ?_, ?_, ?_, ?_, ?_, ?_, by simp⟩
  · simpa [hst] using h.perm
  · intro c hc
    rcases List.mem_cons.mp hc with rfl | hc
    · exact (h.reach b hb).step hedge
    · exact h.reach c hc
  · intro x hx t ht
    rcases List.mem_cons.mp hx with rfl | hx
    · exact ht
    rcases List.mem_cons.mp hx with rfl | hx
    · exact h.untried _ htop t (List.mem_cons_of_mem _ ht)
    · exact h.untried x (by rw [hst]; exact List.mem_cons_of_mem _ hx) t ht
  · intro x hx t ht
    rcases List.mem_cons.mp hx with rfl | hx
    · exact .inr ht
    rcases List.mem_cons.mp hx with rfl | hx
    · rcases h.tried _ htop t ht with hseen | hrest
      · exact .inl (List.mem_cons_of_mem _ hseen)
      · rcases List.mem_cons.mp hrest with rfl | hrest
        · exact .inl List.mem_cons_self
        · exact .inr hrest
    · have := h.tried x (by rw [hst]; exact List.mem_cons_of_mem _ hx) t ht
      exact this.imp (List.mem_cons_of_mem _) id
  · intro c hc t ht
    exact List.mem_cons_of_mem _ (h.closed c hc t ht)
  · have hl := h.linked
    rw [hst] at hl
    refine ⟨hedge, ?_⟩
    cases below <;> exact hl
  · intro l c r hd hc
    obtain ⟨p, hp, hm⟩ := h.parent l c r hd hc
    refine ⟨p, hp, hm.imp (fun hm => ?_) id⟩
    simp only [hst, List.map_cons, List.mem_cons] at hm ⊢
    exact .inr hm

/-- Leaving a block all of whose successors have been tried. -/
theorem Walk.Sound.leave {below : List (BlockId × List BlockId)}
    (h : w.Sound f e) (hst : w.stack = (b, []) :: below) :
    Walk.Sound f e { w with stack := below, done := b :: w.done } := by
  have htop : (b, []) ∈ w.stack := by rw [hst]; exact List.mem_cons_self
  have hsub : ∀ x ∈ below, x ∈ w.stack := fun x hx => by rw [hst]; exact List.mem_cons_of_mem _ hx
  refine ⟨h.nodup, ?_, h.reach, fun x hx => h.untried x (hsub x hx),
    fun x hx => h.tried x (hsub x hx), ?_, ?_, ?_, ?_⟩
  · have := h.perm
    rw [hst, List.map_cons, List.cons_append] at this
    exact this.trans List.perm_middle.symm
  · intro c hc t ht
    rcases List.mem_cons.mp hc with rfl | hc
    · exact (h.tried _ htop t ht).resolve_right (by simp)
    · exact h.closed c hc t ht
  · have hl := h.linked
    rw [hst] at hl
    match below, hl with
    | [], _ => trivial
    | _ :: _, hl => exact hl.2
  · intro l c r hd hc
    match l, hd with
    | [], hd =>
      obtain ⟨rfl, rfl⟩ := List.cons.inj hd
      have hl := h.linked
      rw [hst] at hl
      match below, hl with
      | [], hl => exact absurd hl hc
      | y :: _, hl => exact ⟨y.1, hl.1, .inl (by simp)⟩
    | x :: l, hd =>
      obtain ⟨rfl, hdone⟩ : b = x ∧ w.done = l ++ c :: r := by simpa using hd
      obtain ⟨p, hp, hm⟩ := h.parent l c r hdone hc
      refine ⟨p, hp, ?_⟩
      rcases hm with hm | hm
      · rw [hst, List.map_cons, List.mem_cons] at hm
        rcases hm with rfl | hm
        · exact .inr List.mem_cons_self
        · exact .inl hm
      · exact .inr (List.mem_cons_of_mem _ hm)
  · rintro rfl
    have hl := h.linked
    rw [hst] at hl
    obtain rfl : b = e := hl
    rfl

theorem Walk.Sound.step (h : w.Sound f e) : (w.step f).Sound f e := by
  unfold Walk.step
  match hst : w.stack with
  | [] => simpa [hst] using h
  | (b, []) :: below => exact h.leave hst
  | (b, s :: rest) :: below =>
    by_cases hs : s ∈ w.seen
    · simpa [hs] using h.skip hst hs
    · simpa [hs, Func.next] using h.enter hst hs

theorem Walk.Sound.run (h : w.Sound f e) (fuel : Nat) : (Walk.run f fuel w).Sound f e := by
  induction fuel generalizing w with
  | zero => exact h
  | succ fuel ih =>
    rw [Walk.run]
    split
    · exact h
    · exact ih h.step

/-! ## The bound on the steps -/

/-- Steps a block can account for. -/
def weight (f : Func) (b : BlockId) : Nat := (f.next b).length + 1

/-- Steps the blocks not entered yet account for. -/
def unseenWeight (f : Func) (seen : List BlockId) : Nat :=
  (((List.range f.numBlocks).filter fun b => b ∉ seen).map f.weight).sum

/-- Steps left: those of the blocks not entered yet and those of the open ones. -/
def Walk.potential (f : Func) (w : Walk) : Nat :=
  f.unseenWeight w.seen + (w.stack.map fun x => x.2.length + 1).sum

theorem sum_filter_insert {l seen : List Nat} (wt : Nat → Nat) (hl : l.Nodup) (hs : s ∈ l)
    (hseen : s ∉ seen) :
    ((l.filter fun b => b ∉ s :: seen).map wt).sum + wt s =
      ((l.filter fun b => b ∉ seen).map wt).sum := by
  induction l with
  | nil => simp at hs
  | cons x l ih =>
    obtain ⟨hx, hl⟩ := List.nodup_cons.mp hl
    rcases List.mem_cons.mp hs with rfl | hs
    · have hrest : (l.filter fun b => b ∉ s :: seen) = l.filter fun b => b ∉ seen := by
        refine List.filter_congr fun b hb => ?_
        have : b ≠ s := fun h => hx (h ▸ hb)
        simp [this]
      rw [List.filter_cons_of_neg (by simp), List.filter_cons_of_pos (by simpa using hseen), hrest,
        List.map_cons, List.sum_cons]
      omega
    · have hne : x ≠ s := fun h => hx (h ▸ hs)
      have := ih hl hs
      by_cases hxs : x ∈ seen
      · rw [List.filter_cons_of_neg (by simp [hxs]), List.filter_cons_of_neg (by simp [hxs])]
        exact this
      · rw [List.filter_cons_of_pos (by simp [hxs, hne]), List.filter_cons_of_pos (by simp [hxs]),
          List.map_cons, List.sum_cons, List.map_cons, List.sum_cons]
        omega

theorem unseenWeight_cons {seen : List BlockId} (hlt : s < f.numBlocks) (hs : s ∉ seen) :
    f.unseenWeight (s :: seen) + f.weight s = f.unseenWeight seen :=
  sum_filter_insert f.weight List.nodup_range (List.mem_range.mpr hlt) hs

theorem Walk.potential_step (h : w.Sound f e) (hin : ∀ b, Reach f.next e b → b < f.numBlocks)
    (hne : w.stack ≠ []) : (w.step f).potential f + 1 ≤ w.potential f := by
  unfold Walk.step
  match hst : w.stack with
  | [] => exact absurd hst hne
  | (b, []) :: below =>
    simp only [Walk.potential, hst, List.map_cons, List.sum_cons, List.length_nil]
    omega
  | (b, s :: rest) :: below =>
    by_cases hs : s ∈ w.seen
    · simp only [Walk.potential, hst, List.contains_eq_mem, hs, decide_true, if_true, List.map_cons,
        List.sum_cons, List.length_cons]
      omega
    · have hreach : Reach f.next e s := by
        have hb : b ∈ w.seen := h.mem_seen.mpr (.inl (by simp [hst]))
        exact (h.reach b hb).step (h.untried _ (by rw [hst]; exact List.mem_cons_self) s
          List.mem_cons_self)
      have hsum := unseenWeight_cons (hin s hreach) hs
      have hw : f.weight s = (f.block s).succs.length + 1 := rfl
      simp only [Walk.potential, hst, List.contains_eq_mem, hs, decide_false, Bool.false_eq_true,
        if_false, List.map_cons, List.sum_cons, List.length_cons]
      omega

theorem Walk.run_stack (hin : ∀ b, Reach f.next e b → b < f.numBlocks) {fuel : Nat}
    (h : w.Sound f e) (hfuel : w.potential f ≤ fuel) : (Walk.run f fuel w).stack = [] := by
  induction fuel generalizing w with
  | zero =>
    by_cases hne : w.stack = []
    · exact hne
    · have := Walk.potential_step h hin hne
      omega
  | succ fuel ih =>
    rw [Walk.run]
    split
    · next hempty => simpa using hempty
    · next hempty =>
      have := Walk.potential_step h hin (by simpa using hempty)
      exact ih h.step (by omega)

theorem blocks_toList (f : Func) : f.blocks.toList = (List.range f.numBlocks).map f.block := by
  apply List.ext_getElem
  · simp [numBlocks]
  · intro i hi _
    simp only [Array.length_toList] at hi
    simp [block, hi]

theorem walkBound_eq (f : Func) : f.walkBound = f.unseenWeight [] := by
  have hfold : ∀ (l : List Block) (n : Nat),
      l.foldl (fun n b => n + b.succs.length + 1) n =
        n + (l.map fun b => b.succs.length + 1).sum := by
    intro l
    induction l with
    | nil => simp
    | cons b l ih => intro n; simp [ih]; omega
  have hall : ((List.range f.numBlocks).filter fun b => b ∉ ([] : List BlockId)) =
      List.range f.numBlocks := List.filter_eq_self.mpr (by simp)
  rw [walkBound, ← Array.foldl_toList, hfold, blocks_toList, List.map_map, unseenWeight, hall,
    Nat.zero_add]
  rfl

/-- The bound on the steps is never reached: when the walk stops, no block is open. -/
theorem Walk.rests (hin : ∀ b, Reach f.next e b → b < f.numBlocks) :
    (Walk.run f f.walkBound ⟨[e], [(e, f.next e)], []⟩).stack = [] := by
  refine Walk.run_stack hin (Walk.sound_init f e) ?_
  have hsum : f.unseenWeight [e] + f.weight e = f.unseenWeight [] :=
    unseenWeight_cons (hin e (.refl _ _)) (by simp)
  have hw : f.weight e = (f.next e).length + 1 := rfl
  simp only [walkBound_eq, Walk.potential, List.map_cons, List.sum_cons, List.map_nil,
    List.sum_nil]
  omega

/-! ## Reverse postorder -/

/-- What the blocks in reverse postorder are: the reachable ones, each once, the start first, and
each other one behind one of its predecessors. -/
structure Postordered (f : Func) (e : BlockId) (rpo : List BlockId) : Prop where
  mem_iff : ∀ b, b ∈ rpo ↔ Reach f.next e b
  nodup : rpo.Nodup
  head? : rpo.head? = some e
  pred : ∀ l b r, rpo = l ++ b :: r → b ≠ e → ∃ p ∈ l, b ∈ f.next p

theorem reversePostOrderFrom_spec (hin : ∀ b, Reach f.next e b → b < f.numBlocks) :
    Postordered f e (f.reversePostOrderFrom e) := by
  have hs := (Walk.sound_init f e).run f.walkBound
  have hst := Walk.rests hin
  unfold reversePostOrderFrom
  generalize hw : Walk.run f f.walkBound ⟨[e], [(e, (f.block e).succs)], []⟩ = w
  rw [show Walk.run f f.walkBound ⟨[e], [(e, f.next e)], []⟩ = w from hw] at hs hst
  have hperm : w.seen.Perm w.done := by simpa [hst] using hs.perm
  have hhead := hs.start hst
  refine ⟨fun b => ⟨fun hb => hs.reach b (hperm.mem_iff.mpr hb), fun hb => ?_⟩,
    hperm.nodup_iff.mp hs.nodup, hhead, ?_⟩
  · refine hb.induct (List.mem_of_mem_head? (by rw [hhead]; rfl)) fun b c _ hb hc => ?_
    exact hperm.mem_iff.mp (hs.closed b hb c hc)
  · intro l b r heq hne
    obtain ⟨p, hp, hm⟩ := hs.parent l b r heq hne
    refine ⟨p, hm.resolve_left (by simp [hst]), hp⟩

end SsaJit.Func
