import SsaJit.Proofs.Lower.Phis

/-! Code for a branch on a constant beside code for the jump that it folds to. Both go to the same block.
The jump leaves its phis what they take along the edge that is kept; the branch leaves them what they take
along the first edge to that block, which is another one if both edges lead there and the second is
taken. -/

namespace SsaJit.Lower

open X86

variable {f g : Func} {b s keep drop : BlockId} {v w : ValueId} {i j k : Nat}

/-! ## The folded function -/

section folded

variable (h : Func.BranchFolded f g b k keep drop i)

include h

theorem roomsIn_folded : roomsIn g = roomsIn f := by
  rw [roomsIn, roomsIn, h.layout, List.flatMap_assoc, List.flatMap_assoc]
  refine List.flatMap_congr fun d _ => ?_
  rw [Func.valuesOf, Func.valuesOf, h.values, List.flatMap_map, List.flatMap_map]
  refine List.flatMap_congr fun v _ => ?_
  obtain ⟨a, ha⟩ := h.head v
  simp only [ha]
  rfl

theorem ofFunc_folded : Frame.ofFunc g = Frame.ofFunc f := by
  rw [Frame.ofFunc, Frame.ofFunc, h.numValues, h.layout]
  generalize Frame.blank f.numValues = fr
  induction f.layout generalizing fr with
  | nil => rfl
  | cons d l ih =>
    rw [List.flatMap_cons, List.flatMap_cons, List.foldl_append, List.foldl_append, ih]
    congr 1
    rw [Func.valuesOf, Func.valuesOf, h.values, List.foldl_map, List.foldl_map]
    refine List.foldl_ext _ _ _ fun fr v _ => ?_
    obtain ⟨a, ha⟩ := h.head v
    simp only [ha]
    rfl

theorem typesValid_folded (hty : f.TypesValid) : g.TypesValid := by
  intro d hd v hv
  obtain ⟨a, ha⟩ := h.head v
  rw [ha]
  exact hty d (h.layout ▸ hd) v (h.values d ▸ hv)

theorem lowerable_folded (hf : Lowerable f) (hb : b ∈ f.layout) : Lowerable g where
  ssa := h.ssa hf.ssa hb
  args s hs v hv hphi w hw := by
    rw [h.layout] at hs
    rw [h.values] at hv
    rw [h.op] at hphi
    have hmem : .value w ∈ (f.value v).args := by
      rw [h.value] at hw
      split at hw
      · exact List.mem_of_mem_eraseIdx hw
      · exact hw
    obtain ⟨d, hd, hw⟩ := hf.args s hs v hv hphi w hmem
    exact ⟨d, h.layout ▸ hd, h.values d ▸ hw⟩
  control d hd hk w hw := by
    by_cases hdb : d = b
    · subst hdb
      rw [h.jump.1] at hk
      cases hk
    · obtain ⟨hkind, hctl, -⟩ := h.others d hdb
      rw [hkind] at hk
      rw [hctl] at hw
      obtain ⟨e, he, hw⟩ := hf.control d (h.layout ▸ hd) hk w hw
      exact ⟨e, h.layout ▸ he, h.values e ▸ hw⟩

/-- Control still comes to the block whose branch was folded: it did not come there from itself first. -/
theorem reached_folded (hb : f.Reached b) : g.Reached b := by
  obtain ⟨p, hp⟩ := hb
  obtain ⟨q, hq, hnodup, -⟩ := hp.exists_nodup
  have hkeep : ∀ {d r}, Trail f.next f.start d r → b ∉ r → Trail g.next f.start d r := by
    intro d r hr hbr
    refine hr.mono fun x hx y hy => ?_
    have hxb : x ≠ b := fun heq => hbr (heq ▸ hx)
    rwa [Func.next, (h.others x hxb).2.2]
  rw [Func.Reached, h.start]
  cases hq with
  | start => exact .refl _ _
  | @step d c r hr hc =>
    obtain ⟨hbr, -⟩ := List.nodup_cons.mp hnodup
    have hdb : d ≠ b := fun heq => hbr (heq ▸ hr.self_mem)
    refine ⟨_, (hkeep hr hbr).step ?_⟩
    rwa [Func.next, (h.others d hdb).2.2]

end folded

/-! ## Both codes side by side -/

/-- The place that stands for the first edge to a block is the first place for the edge's source. -/
theorem first_of_follow (hfollow : f.follow b k = some (s, j))
    (hi : (f.block s).predIndex? b = some i) (hk : k = 0 ∨ (f.block b).succs.Nodup) : i = j := by
  rcases hk with rfl | hdist
  · obtain ⟨hs, hj, hcount⟩ := Func.follow_eq_some.mp hfollow
    obtain ⟨hlt, hib, hmin⟩ := List.findIdx?_eq_some_iff_getElem.mp hi
    rw [List.take_zero, List.count_nil, List.count_eq_zero] at hcount
    obtain ⟨hjlt, hjb⟩ := List.getElem?_eq_some_iff.mp hj
    rcases Nat.lt_trichotomy i j with hij | rfl | hji
    · refine absurd (List.mem_take_iff_getElem.mpr ⟨i, by omega, ?_⟩) hcount
      simpa using hib
    · rfl
    · exact absurd hjb (by simpa using hmin j hji)
  · exact Option.some.inj (hi.symm.trans (Func.predIndex_of_follow hdist hfollow))

/-- The block ends with a branch on a constant bit. -/
structure BranchesOn (f : Func) (b : BlockId) (w : ValueId) (bit : UInt64) : Prop where
  kind : (f.block b).kind = .branch
  control : (f.block b).control = .value w
  const : (f.value w).constLanes = some [bit]
  isBit : bit = 0 ∨ bit = 1

/-- A branch on a constant and the jump that it folds to go to the same block. There the branch has left
each phi what its argument at the first place for the branch had, and the jump what its argument for the
edge had; these are the same place if the first edge is taken or the edges lead to different blocks. -/
theorem branch_beside_fold {cpu : Features} {prog : Code} {ls : Labels} {bit : UInt64}
    (h : f.Consistent) (hty : f.TypesValid) (hneed : frameNeed f < 2147483648)
    (hgen : Context.function ⟨f, .ofFunc f, cpu⟩ = .ok (prog, ls)) (hb : f.Reached b)
    (hbranch : BranchesOn f b w bit) :
    ∃ g s i j, f.foldBranch b (if bit ≠ 0 then 0 else 1) = .ok g ∧
      f.follow b (if bit ≠ 0 then 0 else 1) = some (s, j) ∧
      (f.block s).predIndex? b = some i ∧ (bit ≠ 0 ∨ (f.block b).succs.Nodup → i = j) ∧
      ∀ prog' ls', Context.function ⟨g, .ofFunc g, cpu⟩ = .ok (prog', ls') →
        ∃ body term rest next body' term' rest' next',
          Stands ⟨f, .ofFunc f, cpu⟩ prog b body term rest next ∧
          Stands ⟨g, .ofFunc g, cpu⟩ prog' b body' term' rest' next' ∧
          ∀ m : Machine,
            m.mem.readWord (addressOf m (Context.home ⟨f, .ofFunc f, cpu⟩ w)) 1 = bit →
            ∃ after m₁ after' m₂,
              behind (blockMark s) prog = some (Context.takes ⟨f, .ofFunc f, cpu⟩ s ++ after) ∧
              behind (blockMark s) prog' = some (Context.takes ⟨g, .ofFunc g, cpu⟩ s ++ after') ∧
              Runs prog (term ++ rest) m after m₁ ∧ Runs prog' (term' ++ rest') m after' m₂ ∧
              ∀ v ∈ (f.block s).values, (f.value v).op = .phi → ∃ a a',
                (f.value v).args[i]? = some (.value a) ∧ (f.value v).args[j]? = some (.value a') ∧
                m₁.mem.read (addressOf m₁ (Context.home ⟨f, .ofFunc f, cpu⟩ v))
                  (f.value v).type.size =
                    m.mem.read (addressOf m (Context.home ⟨f, .ofFunc f, cpu⟩ a))
                      (f.value v).type.size ∧
                m₂.mem.read (addressOf m₂ (Context.home ⟨g, .ofFunc g, cpu⟩ v))
                  (f.value v).type.size =
                    m.mem.read (addressOf m (Context.home ⟨f, .ofFunc f, cpu⟩ a'))
                      (f.value v).type.size := by
  generalize hkdef : (if bit ≠ 0 then 0 else 1) = k
  have hk : k < 2 := by rw [← hkdef]; split <;> decide
  have hbl := h.flow.reached_mem hb
  obtain ⟨g, keep, drop, e, hfold, hg⟩ := Func.foldBranch_spec h.ssa hbl hbranch.kind hk
  obtain ⟨j, hfollow⟩ := h.flow.follow hbl hg.kept
  obtain ⟨-, j', hfollow', hbrings⟩ := hg.follow_kept h.ssa hbl hfollow
  obtain ⟨i, hi⟩ := exists_predIndex h.flow hbl (List.mem_of_getElem? hg.kept)
  refine ⟨g, keep, i, j, hfold, hfollow, hi, fun hor => ?_, fun prog' ls' hgen' => ?_⟩
  · refine first_of_follow hfollow hi (hor.imp_left fun hne => ?_)
    rw [← hkdef, if_pos hne]
  -- the frame is the same, so both codes keep each value at the same place
  have hlaid := laid_ofFunc h.ssa hneed
  have hlaid' : (Frame.ofFunc g).Laid (frameNeed f) (roomsIn g) := by
    rw [ofFunc_folded hg, roomsIn_folded hg]
    exact hlaid
  have hlow := lowerable h
  have hlow' := lowerable_folded hg hlow hbl
  have hb' := reached_folded hg hb
  obtain ⟨body, term, rest, next, hst⟩ := function_stands h.flow hgen hb
  obtain ⟨body', term', rest', next', hst'⟩ := function_stands hlow'.ssa.flow hgen' hb'
  refine ⟨body, term, rest, next, body', term', rest', next', hst, hst', fun m hslot => ?_⟩
  have hedge : (f.block b).edge? (Context.answer ⟨f, .ofFunc f, cpu⟩ m b) = some k := by
    rw [Block.edge?, hbranch.kind, Context.answer, hbranch.control]
    change some (if m.mem.readWord (addressOf m (Context.home ⟨f, .ofFunc f, cpu⟩ w)) 1 != 0
      then 0 else 1) = some k
    rw [hslot, ← hkdef]
    simp
  obtain ⟨s, i₁, hs, hi₁, after, m₁, hafter, hrun, hin⟩ :=
    runs_first hlow hty hlaid hgen hb hst hedge
  obtain rfl : keep = s := Option.some.inj (hg.kept.symm.trans hs)
  obtain rfl : i = i₁ := Option.some.inj (hi.symm.trans hi₁)
  have hedge' : (g.block b).edge? (Context.answer ⟨g, .ofFunc g, cpu⟩ m b) = some 0 := by
    rw [Block.edge?, hg.jump.1]
  obtain ⟨s', j₁, hs', hj₁, after', m₂, hafter', hrun', hin'⟩ :=
    runs_first hlow' (typesValid_folded hg hty) hlaid' hgen' hb' hst' hedge'
  obtain rfl : keep = s' := by simpa [hg.jump.2.2] using hs'
  obtain rfl : j' = j₁ := by
    have hnodup : (g.block b).succs.Nodup := by simp [hg.jump.2.2]
    exact Option.some.inj ((Func.predIndex_of_follow hnodup hfollow').symm.trans hj₁)
  refine ⟨after, m₁, after', m₂, hafter, hafter', hrun, hrun', fun v hv hphi => ?_⟩
  obtain ⟨a, ha, hread⟩ := hin.phis v hv hphi
  obtain ⟨a', ha', hread'⟩ := hin'.phis v (by rw [hg.values]; exact hv) (by rw [hg.op]; exact hphi)
  have htype : (g.value v).type = (f.value v).type := by
    obtain ⟨l, hl⟩ := hg.head v
    rw [hl]
  have hplace : addressOf m (Context.home ⟨g, .ofFunc g, cpu⟩ a') =
      addressOf m (Context.home ⟨f, .ofFunc f, cpu⟩ a') := by
    rw [Context.home, Context.home, ofFunc_folded hg]
  refine ⟨a, a', ha, (hbrings v hv hphi).symm.trans ha', hread, ?_⟩
  rw [← htype, ← hplace]
  exact hread'

/-- Both ways of a branch on a true bit lead to one block, whose phi takes something else from each. -/
def forked : Func where
  name := "forked"
  ret := .i32
  params := []
  values := #[
    { op := .const, type := .i1, block := some 0, aux := 1 },
    { op := .const, type := .i32, block := some 0, aux := 1 },
    { op := .const, type := .i32, block := some 0, aux := 2 },
    { op := .phi, type := .i32, block := some 1, args := [.value 1, .value 2] }]
  blocks := #[
    { values := [0, 1, 2], kind := .branch, control := .value 0, succs := [1, 1] },
    { values := [3], kind := .ret, control := .value 3, preds := [0, 0] }]
  layout := [0, 1]

set_option maxRecDepth 10000 in
/-- The first edge is taken, so that the branch and the jump leave the phi the same. -/
theorem branch_beside_fold_forked : ∃ g s i j, forked.foldBranch 0 0 = .ok g ∧
    forked.follow 0 0 = some (s, j) ∧ (forked.block s).predIndex? 0 = some i ∧ i = j := by
  obtain ⟨g, s, i, j, hfold, hfollow, hi, hij, -⟩ :=
    branch_beside_fold (show forked.Consistent by decide +kernel) (by decide +kernel)
      (by decide +kernel) (show Context.function ⟨forked, .ofFunc forked, {}⟩ = .ok _ from rfl)
      (Reach.refl _ _) (show BranchesOn forked 0 0 1 from ⟨rfl, rfl, rfl, .inr rfl⟩)
  exact ⟨g, s, i, j, hfold, hfollow, hi, hij (.inl (by decide))⟩

end SsaJit.Lower
