import Mathlib.Algebra.Order.BigOperators.Group.List
import Mathlib.Data.List.Nodup
import Mathlib.Logic.Relation
import SsaJit.Proofs.Graph.Tree

/-! Depth-first search told by recursion: the successors of a block are tried in order, and one that is
met for the first time is searched to the end before the next is tried. What is entered on the way
makes a forest. The walk with its stack of open blocks leaves the blocks in the postorder of this
forest. So an edge that does not go forward in reverse postorder leads back to its own block or to one
above it in the tree. -/

namespace SsaJit

/-- Trees side by side: the first by its root and what hangs below it, and the others. -/
inductive Trees
  | nil
  | tree (root : BlockId) (below rest : Trees)

namespace Trees

/-- Each block behind all that are below it, trees in order. -/
def postorder : Trees → List BlockId
  | nil => []
  | tree b below rest => below.postorder ++ b :: rest.postorder

/-- `a` is an ancestor of `b`. -/
def Above (a b : BlockId) : Trees → Prop
  | nil => False
  | tree root below rest => a = root ∧ b ∈ below.postorder ∨ below.Above a b ∨ rest.Above a b

end Trees

/-- Searching the blocks of the second list in order, when those of the first have been met before,
enters the forest. -/
inductive DepthFirst (next : BlockId → List BlockId) : List BlockId → List BlockId → Trees → Prop
  | done {seen} : DepthFirst next seen [] .nil
  | pass {seen s todo t} : s ∈ seen → DepthFirst next seen todo t → DepthFirst next seen (s :: todo) t
  | enter {seen s todo below rest} : s ∉ seen → DepthFirst next (s :: seen) (next s) below →
      DepthFirst next (below.postorder ++ s :: seen) todo rest →
      DepthFirst next seen (s :: todo) (.tree s below rest)

namespace DepthFirst

variable {next : BlockId → List BlockId} {seen todo : List BlockId} {t t' : Trees} {s u v : BlockId}

theorem unique (h : DepthFirst next seen todo t) (h' : DepthFirst next seen todo t') : t = t' := by
  induction h generalizing t' with
  | done =>
    cases h'
    rfl
  | pass hs _ ih =>
    cases h' with
    | pass _ h' => exact ih h'
    | enter hs' _ _ => exact absurd hs hs'
  | enter hs _ _ ihBelow ihRest =>
    cases h' with
    | pass hs' _ => exact absurd hs' hs
    | enter _ hbelow hrest =>
      obtain rfl := ihBelow hbelow
      obtain rfl := ihRest hrest
      rfl

theorem tried (h : DepthFirst next seen todo t) (hs : s ∈ todo) : s ∈ seen ∨ s ∈ t.postorder := by
  induction h with
  | done => cases hs
  | pass hseen _ ih =>
    rcases List.mem_cons.mp hs with rfl | hs
    · exact .inl hseen
    · exact ih hs
  | enter _ _ _ _ ih =>
    simp only [Trees.postorder, List.mem_append, List.mem_cons] at ih ⊢
    rcases List.mem_cons.mp hs with rfl | hs
    · exact .inr (.inr (.inl rfl))
    · rcases ih hs with (h | h | h) | h
      · exact .inr (.inl h)
      · exact .inr (.inr (.inl h))
      · exact .inl h
      · exact .inr (.inr (.inr h))

/-- Where an edge leads: to what was met before, to what was left earlier, to its own block, or up. -/
theorem edge (h : DepthFirst next seen todo t) (hu : u ∈ t.postorder) (hv : v ∈ next u) :
    v ∈ seen ∨ [v, u].Sublist t.postorder ∨ v = u ∨ t.Above v u := by
  induction h with
  | done => cases hu
  | pass _ _ ih => exact ih hu
  | @enter seen s todo below rest hs hbelow hrest ihBelow ihRest =>
    simp only [Trees.postorder, Trees.Above]
    rcases List.mem_append.mp hu with hin | hin
    · rcases ihBelow hin with hseen | hleft | hself | hup
      · rcases List.mem_cons.mp hseen with rfl | hseen
        · exact .inr (.inr (.inr (.inl ⟨rfl, hin⟩)))
        · exact .inl hseen
      · exact .inr (.inl (hleft.trans (List.sublist_append_left _ _)))
      · exact .inr (.inr (.inl hself))
      · exact .inr (.inr (.inr (.inr (.inl hup))))
    rcases List.mem_cons.mp hin with rfl | hafter
    · -- the root itself: all its successors were tried below it
      rcases hbelow.tried hv with hseen | hleft
      · rcases List.mem_cons.mp hseen with rfl | hseen
        · exact .inr (.inr (.inl rfl))
        · exact .inl hseen
      · exact .inr (.inl ((List.singleton_sublist.mpr hleft).append
          (List.singleton_sublist.mpr List.mem_cons_self)))
    · have hright : [u].Sublist (s :: rest.postorder) :=
        List.singleton_sublist.mpr (List.mem_cons_of_mem _ hafter)
      rcases ihRest hafter with hseen | hleft | hself | hup
      · rcases List.mem_append.mp hseen with hmet | hmet
        · exact .inr (.inl ((List.singleton_sublist.mpr hmet).append hright))
        rcases List.mem_cons.mp hmet with rfl | hmet
        · exact .inr (.inl (((List.singleton_sublist.mpr hafter).cons_cons v).trans
            (List.sublist_append_right _ _)))
        · exact .inl hmet
      · exact .inr (.inl ((hleft.cons s).trans (List.sublist_append_right _ _)))
      · exact .inr (.inr (.inl hself))
      · exact .inr (.inr (.inr (.inr (.inr hup))))

end DepthFirst

namespace Func

variable {f : Func} {e b s u v : BlockId} {w w' : Walk} {seen todo : List BlockId} {t : Trees}

/-! ## The search comes to an end -/

theorem unseenWeight_anti {seen' : List BlockId} (h : seen ⊆ seen') :
    f.unseenWeight seen' ≤ f.unseenWeight seen := by
  have hsub : ((List.range f.numBlocks).filter fun b => b ∉ seen').Sublist
      ((List.range f.numBlocks).filter fun b => b ∉ seen) := by
    refine List.monotone_filter_right _ fun b hb => ?_
    simp only [decide_eq_true_eq] at hb ⊢
    exact fun hin => hb (h hin)
  exact (hsub.map f.weight).sum_le_sum fun _ _ => Nat.zero_le _

theorem exists_depthFirst (hnext : ∀ b < f.numBlocks, ∀ s ∈ f.next b, s < f.numBlocks) (n : Nat) :
    ∀ seen todo, (∀ s ∈ todo, s < f.numBlocks) → f.unseenWeight seen + todo.length ≤ n →
      ∃ t, DepthFirst f.next seen todo t := by
  induction n with
  | zero =>
    intro seen todo _ hn
    obtain rfl : todo = [] := List.eq_nil_of_length_eq_zero (by omega)
    exact ⟨.nil, .done⟩
  | succ n ih =>
    rintro seen (_ | ⟨s, todo⟩) hlt hn
    · exact ⟨.nil, .done⟩
    obtain ⟨hslt, hlt⟩ := List.forall_mem_cons.mp hlt
    rw [List.length_cons] at hn
    by_cases hs : s ∈ seen
    · obtain ⟨t, ht⟩ := ih seen todo hlt (by omega)
      exact ⟨t, .pass hs ht⟩
    · have hsum := unseenWeight_cons hslt hs
      rw [weight] at hsum
      obtain ⟨below, hbelow⟩ := ih (s :: seen) (f.next s) (hnext s hslt) (by omega)
      have hanti : f.unseenWeight (below.postorder ++ s :: seen) ≤ f.unseenWeight (s :: seen) :=
        unseenWeight_anti (List.subset_append_right _ _)
      obtain ⟨rest, hrest⟩ := ih (below.postorder ++ s :: seen) todo hlt (by omega)
      exact ⟨.tree s below rest, .enter hs hbelow hrest⟩

/-! ## The walk follows the search -/

/-- Steps of a walk, as long as a block is open. -/
abbrev Walk.Steps (f : Func) : Walk → Walk → Prop :=
  Relation.ReflTransGen fun w w' => w.stack ≠ [] ∧ w' = w.step f

/-- A run that comes to rest comes to where the steps lead. -/
theorem Walk.Steps.run_eq (h : Walk.Steps f w w') (hend : w'.stack = []) :
    ∀ {fuel}, (Walk.run f fuel w).stack = [] → Walk.run f fuel w = w' := by
  induction h using Relation.ReflTransGen.head_induction_on with
  | refl =>
    intro fuel _
    cases fuel with
    | zero => rfl
    | succ fuel => simp [Walk.run, hend]
  | @head w x hstep _ ih =>
    obtain ⟨hopen, rfl⟩ := hstep
    intro fuel hrest
    cases fuel with
    | zero => exact absurd hrest hopen
    | succ fuel =>
      have hne : w.stack.isEmpty = false := by simpa using hopen
      simp only [Walk.run, hne, Bool.false_eq_true, if_false] at hrest ⊢
      exact ih hrest

end Func

namespace DepthFirst

variable {f : Func} {e : BlockId} {seen todo : List BlockId} {t : Trees}

/-- The walk tries the successors that are left to an open block as the search does, and comes back to
the block. -/
theorem steps (h : DepthFirst f.next seen todo t) :
    ∀ (w : Func.Walk) b below, w.stack = (b, todo) :: below → (∀ x, x ∈ w.seen ↔ x ∈ seen) →
      ∃ w', Func.Walk.Steps f w w' ∧ w'.stack = (b, []) :: below ∧
        (∀ x, x ∈ w'.seen ↔ x ∈ t.postorder ∨ x ∈ seen) ∧ w'.done = t.postorder.reverse ++ w.done := by
  induction h with
  | done =>
    intro w b below hst hseen
    exact ⟨w, .refl, hst, fun x => by simp [hseen, Trees.postorder], rfl⟩
  | @pass seen s todo t hs _ ih =>
    intro w b below hst hseen
    have hw : w.step f = { w with stack := (b, todo) :: below } := by
      simp [Func.Walk.step, hst, hseen, hs]
    obtain ⟨w', hsteps, hw'⟩ := ih (w.step f) b below (by rw [hw]) (by rw [hw]; exact hseen)
    refine ⟨w', .head ⟨by simp [hst], rfl⟩ hsteps, ?_⟩
    rwa [hw] at hw'
  | @enter seen s todo kids rest hs _ _ ihKids ihRest =>
    intro w b below hst hseen
    have hw : w.step f =
        { w with seen := s :: w.seen, stack := (s, f.next s) :: (b, todo) :: below } := by
      simp [Func.Walk.step, hst, hseen, hs, Func.next]
    obtain ⟨w₁, hsteps₁, hst₁, hseen₁, hdone₁⟩ := ihKids (w.step f) s ((b, todo) :: below)
      (by rw [hw]) (by rw [hw]; simp [hseen])
    have hw₁ : w₁.step f = { w₁ with stack := (b, todo) :: below, done := s :: w₁.done } := by
      simp [Func.Walk.step, hst₁]
    obtain ⟨w', hsteps', hst', hseen', hdone'⟩ := ihRest (w₁.step f) b below
      (by rw [hw₁]) (by rw [hw₁]; simp [hseen₁])
    refine ⟨w', .head ⟨by simp [hst], rfl⟩ (hsteps₁.trans (.head ⟨by simp [hst₁], rfl⟩ hsteps')),
      hst', fun x => ?_, ?_⟩
    · rw [hseen']
      simp only [Trees.postorder, List.mem_append, List.mem_cons]
      tauto
    · rw [hdone', hw₁]
      simp [hdone₁, hw, Trees.postorder]

/-! ## Postorder -/

/-- Reverse postorder is the search's, and the walk that finds it comes to rest. -/
theorem reversePostOrderFrom (h : DepthFirst f.next [] [e] t)
    (hrest : (Func.Walk.run f f.walkBound ⟨[e], [(e, f.next e)], []⟩).stack = []) :
    f.reversePostOrderFrom e = t.postorder.reverse := by
  cases h with
  | pass hs _ => cases hs
  | enter _ hbelow hnone =>
    cases hnone
    obtain ⟨w, hsteps, hst, -, hdone⟩ := hbelow.steps ⟨[e], [(e, f.next e)], []⟩ e [] rfl
      fun _ => .rfl
    have hleave : Func.Walk.Steps f w (w.step f) := .single ⟨by simp [hst], rfl⟩
    have hw : w.step f = { w with stack := [], done := e :: w.done } := by simp [Func.Walk.step, hst]
    have hrun := Func.Walk.Steps.run_eq (hsteps.trans hleave) (by rw [hw]) hrest
    rw [Func.reversePostOrderFrom, show (f.block e).succs = f.next e from rfl, hrun, hw]
    simp [hdone, Trees.postorder]

end DepthFirst

namespace Func

variable {f : Func} {e : BlockId}

/-- Postorder and its reverse are those of the recursive search. There is one tree of the search from the
entry; the walk comes to rest and lists the blocks of the tree, each once, and these are the blocks that
control can come to. In reverse the entry is first, and every edge goes forward, to its own block or to
an ancestor in the tree. -/
theorem depth_first_order (he : f.entry = .ok e) (helt : e < f.numBlocks)
    (hnext : ∀ b < f.numBlocks, ∀ s ∈ f.next b, s < f.numBlocks) :
    ∃ t, (∀ t', DepthFirst f.next [] [e] t' ↔ t' = t) ∧
      (Walk.run f f.walkBound ⟨[e], [(e, f.next e)], []⟩).stack = [] ∧
      f.postOrder = .ok t.postorder ∧ t.postorder.Nodup ∧
      (∀ b, b ∈ t.postorder ↔ Reach f.next e b) ∧
      ∃ rpo, f.reversePostOrder = .ok rpo ∧ rpo = t.postorder.reverse ∧ rpo.head? = some e ∧
        ∀ u v, Reach f.next e u → v ∈ f.next u →
          [u, v].Sublist rpo ∨ v = u ∨ t.Above v u := by
  have hin : ∀ b, Reach f.next e b → b < f.numBlocks := fun b hb =>
    Reach.induct (P := fun x => x < f.numBlocks) helt (fun x y _ hx hy => hnext x hx y hy) hb
  obtain ⟨t, ht⟩ :=
    exists_depthFirst hnext (f.unseenWeight [] + 1) [] [e] (by simpa using helt) (by simp)
  have hrest := Walk.rests hin
  have horder := ht.reversePostOrderFrom hrest
  have hpost := reversePostOrderFrom_spec hin
  have hrpo : f.reversePostOrder = .ok t.postorder.reverse := by
    simp [reversePostOrder, he, horder]
  rw [horder] at hpost
  have hmem : ∀ b, b ∈ t.postorder ↔ Reach f.next e b := fun b => by
    rw [← List.mem_reverse]
    exact hpost.mem_iff b
  refine ⟨t, fun t' => ⟨fun ht' => ht'.unique ht, fun heq => heq ▸ ht⟩, hrest, ?_,
    List.nodup_reverse.mp hpost.nodup, hmem, _, hrpo, rfl, hpost.head?, fun u v hu hv => ?_⟩
  · simp [postOrder, hrpo]
  · rcases ht.edge ((hmem u).mpr hu) hv with hseen | hleft | hself | hup
    · cases hseen
    · exact .inl (by simpa using hleft.reverse)
    · exact .inr (.inl hself)
    · exact .inr (.inr hup)

theorem depth_first_order_tangled : tangled.entry = .ok 0 ∧ 0 < tangled.numBlocks ∧
    (∀ b < tangled.numBlocks, ∀ s ∈ tangled.next b, s < tangled.numBlocks) ∧
    ∃ t, DepthFirst tangled.next [] [0] t ∧ t.postorder = [2, 3, 1, 0] ∧
      (∀ b, b ∈ t.postorder ↔ Reach tangled.next 0 b) ∧
      tangled.reversePostOrder = .ok [0, 1, 3, 2] ∧ t.Above 1 2 ∧ t.Above 0 3 := by
  have hnext : ∀ b < tangled.numBlocks, ∀ s ∈ tangled.next b, s < tangled.numBlocks := by decide
  obtain ⟨t, ht, -, hpost, -, hmem, rpo, hrpo, rfl, -, hedge⟩ :=
    depth_first_order (f := tangled) (e := 0) rfl (by decide) hnext
  have horder : t.postorder = [2, 3, 1, 0] := Except.ok.inj (hpost.symm.trans rfl)
  rw [horder] at hrpo hedge
  refine ⟨rfl, by decide, hnext, t, (ht t).mpr rfl, horder, hmem, hrpo, ?_, ?_⟩
  · exact ((hedge 2 1 ((hmem 2).mp (by simp [horder])) (by decide)).resolve_left
      (by decide)).resolve_left (by decide)
  · exact ((hedge 3 0 ((hmem 3).mp (by simp [horder])) (by decide)).resolve_left
      (by decide)).resolve_left (by decide)

end Func
end SsaJit
