import SsaJit.Proofs.Ssa.Edges

/-! Which way control goes. A block may go to one block along two edges; the first of them is the one
that the first entry among the target's predecessors stands for, and the second the second. -/

namespace SsaJit

/-- The edge, as a place among the successors, that a block is left by; `yes` is the answer to its
condition. -/
def Block.edge? (blk : Block) (yes : Bool) : Option Nat :=
  match blk.kind with
  | .jump => some 0
  | .branch => some (if yes then 0 else 1)
  | _ => none

namespace Func

variable {f : Func} {b s : BlockId} {i j : Nat}

/-- Where an edge leads: the block, and the place among its predecessors that stands for the edge. -/
def follow (f : Func) (b : BlockId) (i : Nat) : Option (BlockId × Nat) := do
  let s ← (f.block b).succs[i]?
  let j ← (f.predPlaces s b)[((f.block b).succs.take i).count s]?
  return (s, j)

theorem follow_eq_some : f.follow b i = some (s, j) ↔ (f.block b).succs[i]? = some s ∧
    (f.block s).preds[j]? = some b ∧
      ((f.block s).preds.take j).count b = ((f.block b).succs.take i).count s := by
  simp only [follow, Option.bind_eq_bind, Option.bind_eq_some_iff, Option.pure_def,
    Option.some.injEq, Prod.mk.injEq, getElem?_predPlaces]
  constructor
  · rintro ⟨s', hs, j', hj, rfl, rfl⟩
    exact ⟨hs, hj⟩
  · rintro ⟨hs, hj⟩
    exact ⟨s, hs, j, hj, rfl, rfl⟩

/-- Every edge leads somewhere. -/
theorem Flow.follow (h : f.Flow) (hb : b ∈ f.layout) (hs : (f.block b).succs[i]? = some s) :
    ∃ j, f.follow b i = some (s, j) := by
  have hmem := h.succs_mem b hb s (List.mem_of_getElem? hs)
  obtain ⟨hi, hget⟩ := List.getElem?_eq_some_iff.mp hs
  have hlt : ((f.block b).succs.take i).count s < (f.predPlaces s b).length := by
    rw [length_predPlaces, ← h.edges b hb s hmem]
    have hsplit : ((f.block b).succs.take (i + 1)).count s ≤ (f.block b).succs.count s :=
      (List.take_sublist _ _).count_le s
    rw [List.take_succ_eq_append_getElem hi, List.count_append, hget] at hsplit
    simp at hsplit
    omega
  refine ⟨(f.predPlaces s b)[((f.block b).succs.take i).count s], ?_⟩
  simp [Func.follow, hs, hlt]

/-- With all successors different, an edge stands at the only place that there is. -/
theorem predIndex_of_follow (hdist : (f.block b).succs.Nodup) (h : f.follow b i = some (s, j)) :
    (f.block s).predIndex? b = some j := by
  obtain ⟨hs, hj, hcount⟩ := follow_eq_some.mp h
  obtain ⟨hi, hget⟩ := List.getElem?_eq_some_iff.mp hs
  have hzero : ((f.block b).succs.take i).count s = 0 := by
    rw [List.count_eq_zero]
    intro hmem
    rw [← List.take_append_drop i (f.block b).succs, List.nodup_append] at hdist
    refine hdist.2.2 s hmem s ?_ rfl
    rw [← hget]
    exact List.mem_drop_iff_getElem.mpr ⟨0, by omega, by simp⟩
  rw [hzero, List.count_eq_zero] at hcount
  rw [Block.predIndex?, List.findIdx?_eq_some_iff_getElem]
  obtain ⟨hlt, hjb⟩ := List.getElem?_eq_some_iff.mp hj
  refine ⟨hlt, by simp [hjb], fun k hk => ?_⟩
  have hne : (f.block s).preds[k] ≠ b := by
    intro heq
    refine hcount ?_
    rw [← heq]
    exact List.mem_take_iff_getElem.mpr ⟨k, by omega, rfl⟩
  simpa using hne

/-! ## A branch that becomes a jump -/

section erase

variable {α : Type} {l : List α}

/-- Where an element stands after another one has been taken out. -/
def placeAfter (i j : Nat) : Nat := if j < i then j else j - 1

theorem getElem?_placeAfter (hne : j ≠ i) : (l.eraseIdx i)[placeAfter i j]? = l[j]? := by
  rw [List.getElem?_eraseIdx, placeAfter]
  split
  · rfl
  · rw [if_neg (by omega), Nat.sub_add_cancel (by omega)]

theorem take_eraseIdx_of_lt (h : i < j) : (l.eraseIdx i).take (j - 1) = (l.take j).eraseIdx i := by
  refine List.ext_getElem? fun n => ?_
  simp only [List.getElem?_take, List.getElem?_eraseIdx]
  split <;> split <;> grind

theorem count_take_placeAfter [DecidableEq α] {a x : α} (ha : l[i]? = some a) (hne : j ≠ i) :
    ((l.eraseIdx i).take (placeAfter i j)).count x + (if i < j ∧ x = a then 1 else 0) =
      (l.take j).count x := by
  rcases Nat.lt_or_gt_of_ne hne with hlt | hgt
  · have htake : (l.eraseIdx i).take j = l.take j := by
      refine List.ext_getElem? fun n => ?_
      simp only [List.getElem?_take, List.getElem?_eraseIdx]
      split <;> grind
    rw [placeAfter, if_pos hlt, htake, if_neg (by omega), Nat.add_zero]
  · have htake : (l.take j)[i]? = some a := by rw [List.getElem?_take_of_lt hgt, ha]
    rw [placeAfter, if_neg (by omega), take_eraseIdx_of_lt hgt, ← count_eraseIdx htake x]
    simp [hgt]

/-- Of two places the one with more before it is behind the other. -/
theorem lt_of_count_take_lt [DecidableEq α] {x : α} (h : (l.take i).count x < (l.take j).count x) :
    i < j := by
  refine Nat.lt_of_not_le fun hle => Nat.not_le_of_lt h ?_
  exact (List.take_sublist_take_left hle).count_le x

end erase

/-- Two edges bring the phis of their target the same arguments. -/
def Brings (f g : Func) (s : BlockId) (j j' : Nat) : Prop :=
  ∀ v ∈ (f.block s).values, (f.value v).op = .phi → (g.value v).args[j']? = (f.value v).args[j]?

namespace BranchFolded

variable {g : Func} {k n : Nat} {keep drop p : BlockId}

theorem brings_same (h : BranchFolded f g b k keep drop i) (hl : f.Listing) (hs : s ∈ f.layout)
    (hdrop : drop ∈ f.layout) (hne : s ≠ drop) : Brings f g s j j := by
  intro v hv _
  rw [h.value, if_neg fun hd => hne (hl.unique hs hdrop hv hd.1)]

theorem brings_dropped (h : BranchFolded f g b k keep drop i) (hne : j ≠ i) :
    Brings f g drop j (placeAfter i j) := by
  intro v hv hphi
  rw [h.value, if_pos ⟨hv, hphi⟩]
  exact getElem?_placeAfter hne

/-- An edge of another block leads where it led. -/
theorem follow_other (h : BranchFolded f g b k keep drop i) (hf : f.Ssa) (hb : b ∈ f.layout)
    (hp : p ∈ f.layout) (hpb : p ≠ b) (hfollow : f.follow p n = some (s, j)) :
    ∃ j', g.follow p n = some (s, j') ∧ Brings f g s j j' := by
  obtain ⟨hs, hj, hcount⟩ := follow_eq_some.mp hfollow
  have hdrop := hf.flow.succs_mem b hb drop (List.mem_of_getElem? h.dropped)
  have hsuccs := (h.others p hpb).2.2
  by_cases hsd : s = drop
  · subst hsd
    have hne : j ≠ i := by
      rintro rfl
      exact hpb (Option.some.inj (hj.symm.trans h.pred))
    refine ⟨placeAfter i j, follow_eq_some.mpr ⟨by rw [hsuccs, hs], ?_, ?_⟩, h.brings_dropped hne⟩
    · rw [h.preds, if_pos rfl, getElem?_placeAfter hne, hj]
    · have := count_take_placeAfter (x := p) h.pred hne
      rw [if_neg fun hx => hpb hx.2, Nat.add_zero] at this
      rw [h.preds, if_pos rfl, this, hcount, hsuccs]
  · refine ⟨j, follow_eq_some.mpr ⟨by rw [hsuccs, hs], ?_, ?_⟩,
      h.brings_same hf.listing (hf.flow.succs_mem p hp s (List.mem_of_getElem? hs)) hdrop hsd⟩
    · rw [h.preds, if_neg hsd, hj]
    · rw [h.preds, if_neg hsd, hcount, hsuccs]

/-- The jump leads where the edge that is kept led. -/
theorem follow_kept (h : BranchFolded f g b k keep drop i) (hf : f.Ssa) (hb : b ∈ f.layout)
    (hfollow : f.follow b k = some (s, j)) :
    s = keep ∧ ∃ j', g.follow b 0 = some (keep, j') ∧ Brings f g keep j j' := by
  obtain ⟨hs, hj, hcount⟩ := follow_eq_some.mp hfollow
  obtain rfl : s = keep := Option.some.inj (hs.symm.trans h.kept)
  refine ⟨rfl, ?_⟩
  have hdrop := hf.flow.succs_mem b hb drop (List.mem_of_getElem? h.dropped)
  have hjump : (g.block b).succs[0]? = some s ∧ ((g.block b).succs.take 0).count s = 0 := by
    simp [h.jump.2.2]
  obtain ⟨yes, no, hyn⟩ := List.length_eq_two.mp h.two.2
  obtain rfl | rfl : k = 0 ∨ k = 1 := by have := h.two.1; omega
  all_goals
    have hkept := h.kept
    have hdropped := h.dropped
    have hplace := h.place
    rw [hyn] at hkept hdropped hplace hcount
    simp only [Nat.sub_self, Nat.sub_zero, List.getElem?_cons_zero, List.getElem?_cons_succ,
      Option.some.injEq, List.take_zero, List.count_nil, List.take_succ_cons] at hkept hdropped hplace hcount
    subst hkept hdropped
  · -- the first edge is kept: an entry for the second stands behind its own
    by_cases hsd : yes = no
    · subst hsd
      have hlt : j < i := lt_of_count_take_lt (x := b) (l := (f.block yes).preds) (by simp_all)
      refine ⟨placeAfter i j, follow_eq_some.mpr ⟨hjump.1, ?_, ?_⟩, h.brings_dropped (by omega)⟩
      · rw [h.preds, if_pos rfl, getElem?_placeAfter (by omega), hj]
      · have := count_take_placeAfter (x := b) (j := j) h.pred (by omega)
        rw [h.preds, if_pos rfl, hjump.2]
        omega
    · refine ⟨j, follow_eq_some.mpr ⟨hjump.1, ?_, ?_⟩, h.brings_same hf.listing
        (hf.flow.succs_mem b hb yes (List.mem_of_getElem? hs)) hdrop hsd⟩
      · rw [h.preds, if_neg hsd, hj]
      · rw [h.preds, if_neg hsd, hcount, hjump.2]
  · by_cases hsd : no = yes
    · subst hsd
      have hlt : i < j := lt_of_count_take_lt (x := b) (l := (f.block no).preds) (by simp_all)
      refine ⟨placeAfter i j, follow_eq_some.mpr ⟨hjump.1, ?_, ?_⟩, h.brings_dropped (by omega)⟩
      · rw [h.preds, if_pos rfl, getElem?_placeAfter (by omega), hj]
      · have := count_take_placeAfter (x := b) (j := j) h.pred (by omega)
        rw [if_pos ⟨hlt, rfl⟩, hcount] at this
        rw [h.preds, if_pos rfl, hjump.2]
        simpa using this
    · refine ⟨j, follow_eq_some.mpr ⟨hjump.1, ?_, ?_⟩, h.brings_same hf.listing
        (hf.flow.succs_mem b hb no (List.mem_of_getElem? hs)) hdrop hsd⟩
      · rw [h.preds, if_neg hsd, hj]
      · rw [h.preds, if_neg hsd, hcount, hjump.2]
        simp [Ne.symm hsd]

end BranchFolded

end Func
end SsaJit
