import SsaJit.Proofs.Pass.CommonValue

/-! Sharing common values is complete: after one run no pure value repeats another whose definition
dominates it, so a second run finds nothing to do. Giving a value up changes the keys of the values that
read it, but all of those come after it, and the table has only values met before. -/

namespace SsaJit.Func

variable {f : Func} {b : BlockId} {v w : ValueId}

/-- Of two pure values of one key in blocks that control comes to, neither's definition dominates the
other's. Of two definitions in one block one always does. -/
def NoRepeats (f : Func) : Prop :=
  ∀ b d v w, f.Reached b → f.Dominates d b → v ∈ (f.block b).values → w ∈ (f.block d).values →
    (f.value v).isPure = true → (f.value w).isPure = true →
      f.valueKey (f.value v) = f.valueKey (f.value w) → v = w

theorem NoRepeats.of_unrepeated (hs : f.Ssa) (h : ∀ b, f.Reached b → f.Unrepeated b) :
    f.NoRepeats := by
  intro b d v w hr hdom hv hw hpv hpw hkey
  obtain ⟨k, hek⟩ := hs.entered (hs.flow.reached_mem hr) hv hpv
  obtain ⟨l, hel⟩ := hs.entered (hs.flow.reached_mem (hdom.reach hr)) hw hpw
  obtain rfl : k = l := Except.ok.inj (hek.valueKey.symm.trans (hkey.trans hel.valueKey))
  exact (h b hr k d v w hdom hel hek).symm

theorem ordered_swap {op : Op} (h : op.isCommutative = true) (a c : Nat) :
    ordered op [a, c] = ordered op [c, a] := by
  rcases Nat.lt_trichotomy a c with hlt | rfl | hlt
  · simp [ordered, h, hlt, Nat.lt_asymm hlt]
  · rfl
  · simp [ordered, h, hlt, Nat.lt_asymm hlt]

/-- A value that can give way has the key of the one that takes its place. -/
theorem Shares.key (h : f.Shares b v w) : f.valueKey (f.value v) = f.valueKey (f.value w) := by
  obtain ⟨l, m, hl, hm, hor⟩ := h.args
  have hordered : ordered (f.value v).op m = ordered (f.value v).op l := by
    rcases hor with rfl | ⟨hcomm, a, c, rfl, rfl⟩
    · rfl
    · exact ordered_swap hcomm c a
  obtain ⟨hop, htype, haux, hlanes, hmask, hglobal⟩ := h.work
  rw [valueKey_eq hl, valueKey_eq hm]
  simp only [keyOf, hop, htype, haux, hlanes, hmask, hglobal, hordered]

/-- Without repeats no value can give way. -/
theorem NoRepeats.not_shares (h : f.NoRepeats) (hs : f.Ssa) : ¬ f.Shares b v w := by
  intro hsh
  obtain ⟨x, hx, hbefore⟩ := hsh.before
  obtain rfl : w = x := by simpa using hx
  obtain ⟨d, hd, hor⟩ := (hbefore.resolve_left hsh.source_noStore).2 hsh.reached
  have hdom : f.Dominates d b := hor.elim (fun ⟨heq, _⟩ => heq ▸ .refl _ _ _) And.right
  exact hsh.ne hs (h b d v w hsh.reached hdom hsh.mem ((hs.listing.listed w d).mp hd).2 hsh.pure
    hsh.source hsh.key).symm

/-- Without repeats there is nothing to share. -/
theorem NoRepeats.shareCommon_eq (h : f.NoRepeats) (hs : f.Ssa) : f.shareCommon = .ok (f, false) := by
  have hnone : ∀ {k : Func} {b v w}, k = f → ¬ k.Shares b v w := fun heq => heq ▸ h.not_shares hs
  obtain ⟨g, ch, hg, hsh, -⟩ := shareCommon_spec (P := (· = f))
    (fun _ _ _ _ _ heq hsh => absurd hsh (hnone heq)) hs rfl
  obtain rfl : g = f := hsh.kept
  have hch : ch ≠ true := fun hch => by
    obtain ⟨_, _, _, _, -, heq, hsh⟩ := hsh.reported hch
    exact hnone heq hsh
  rw [hg, Bool.eq_false_iff.mpr hch]

/-- What is left of a function after some values have given way is still that after one more. -/
theorem substituted_kept (hf : f.Ssa) :
    KeptByShares fun k => SameGraph f k ∧ ∃ σ, Substituted f k σ := by
  rintro k b v w hk ⟨hgraph, σ, hσ⟩ hsh
  exact ⟨hgraph.trans (hsh.keeps hk).graph, _, hσ.share hgraph hf hk hsh⟩

/-- One run of sharing gives up values for others that come before them and do the same work, until in
the blocks that control comes to there are no two pure values of one key of which one's definition
dominates the other's; the next run reports no change and makes none. -/
theorem shareCommon_complete (h : f.Consistent) : ∃ g ch σ, f.shareCommon = .ok (g, ch) ∧
    SameGraph f g ∧ Substituted f g σ ∧ g.NoRepeats ∧ g.shareCommon = .ok (g, false) := by
  obtain ⟨g, ch, hg, hsh, hunrepeated⟩ := shareCommon_spec (substituted_kept h.ssa) h.ssa
    ⟨.refl f, id, .refl f⟩
  obtain ⟨hgraph, σ, hσ⟩ := hsh.kept
  have hno : g.NoRepeats := .of_unrepeated hsh.ssa hunrepeated
  exact ⟨g, ch, σ, hg, hgraph, hσ, hno, hno.shareCommon_eq hsh.ssa⟩

/-- A sum is made again the other way round, and squared again. -/
def sumSquared : Func where
  name := "sumSquared"
  ret := .i32
  params := [.i32, .i32]
  values := #[
    { op := .param, type := .i32, block := some 0 },
    { op := .param, type := .i32, block := some 0, aux := 1 },
    { op := .add, type := .i32, block := some 0, args := [.value 0, .value 1] },
    { op := .mul, type := .i32, block := some 0, args := [.value 2, .value 2] },
    { op := .add, type := .i32, block := some 1, args := [.value 1, .value 0] },
    { op := .mul, type := .i32, block := some 1, args := [.value 4, .value 4] },
    { op := .sub, type := .i32, block := some 1, args := [.value 3, .value 5] }]
  blocks := #[
    { values := [0, 1, 2, 3], kind := .jump, succs := [1] },
    { values := [4, 5, 6], kind := .ret, control := .value 6, preds := [0] }]
  layout := [0, 1]
  paramValues := [0, 1]

/-- The second square has the key of the first only once the second sum has given way. -/
theorem shareCommon_complete_sumSquared : sumSquared.Consistent ∧
    ∃ g ch σ, sumSquared.shareCommon = .ok (g, ch) ∧ SameGraph sumSquared g ∧
      Substituted sumSquared g σ ∧ g.NoRepeats ∧ g.shareCommon = .ok (g, false) ∧
        (g.block 1).values = [6] ∧ (g.value 6).args = [.value 3, .value 3] := by
  have hcons : sumSquared.Consistent := by decide +kernel
  obtain ⟨g, ch, σ, hg, hgraph, hσ, hno, hagain⟩ := shareCommon_complete hcons
  have hrun : sumSquared.shareCommon.toOption.map
      (fun r => ((r.1.block 1).values, (r.1.value 6).args)) =
      some ([6], [.value 3, .value 3]) := by decide +kernel
  rw [hg] at hrun
  obtain ⟨hvals, hargs⟩ := Prod.mk.inj (Option.some.inj hrun)
  exact ⟨hcons, g, ch, σ, hg, hgraph, hσ, hno, hagain, hvals, hargs⟩

end SsaJit.Func
