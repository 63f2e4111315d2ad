import SsaJit.Proofs.Pass.Report
import SsaJit.Proofs.Pass.Promote

/-! What optimisations are made of, whatever the function is like. Blocks are rearranged at will, but of
values little is changed: operands and places, a subtraction that becomes an addition, and new
constants and phis. Every optimisation is a sequence of such edits, so what they all keep, every
sequence of optimisations keeps. -/

namespace SsaJit

namespace Func

/-- A change of a value's operands and of the block it names. -/
def Rewires (e : Value → Value) : Prop :=
  ∀ y, ∃ args block, e y = { y with args := args, block := block }

/-- `g` comes from `f` by edits of the kinds that optimisations make. -/
inductive Rewrites (f : Func) : Func → Prop
  | refl : Rewrites f f
  | block {g : Func} (b : BlockId) (e : Block → Block) (h : Rewrites f g) :
      Rewrites f (g.modifyBlock b e)
  | layout {g : Func} (l : List BlockId) (h : Rewrites f g) : Rewrites f { g with layout := l }
  | rewire {g : Func} (v : ValueId) {e : Value → Value} (he : Rewires e) (h : Rewrites f g) :
      Rewrites f (g.modifyValue v e)
  | toAdd {g : Func} (v : ValueId) (h : Rewrites f g) :
      Rewrites f (g.modifyValue v fun y => { y with op := .add })
  | const {g : Func} {b : BlockId} {i : Int} {t : Ty} {lanes : List UInt64} {x : Func × ValueId}
      (h : Rewrites f g) (hx : g.insertConst b i t lanes = .ok x) : Rewrites f x.1
  | phi {g : Func} {b : BlockId} {i : Int} {y : Value} {x : Func × ValueId} (h : Rewrites f g)
      (hy : y.op = .phi) (hx : g.insertValue b i y = .ok x) : Rewrites f x.1

namespace Rewrites

variable {f g k : Func} {b c : BlockId} {v w : ValueId} {ch : Bool} {o : Operand}
  {lanes : List UInt64}

theorem trans (h₁ : Rewrites f g) (h₂ : Rewrites g k) : Rewrites f k := by
  induction h₂ with
  | refl => exact h₁
  | block b e _ ih => exact ih.block b e
  | layout l _ ih => exact ih.layout l
  | rewire v he _ ih => exact ih.rewire v he
  | toAdd v _ ih => exact ih.toAdd v
  | const _ hx ih => exact ih.const hx
  | phi _ hy hx ih => exact ih.phi hy hx

/-! ## Runs over lists -/

section run

variable {α σ : Type} {get : σ → Func}

/-- A run each of whose steps edits the function that is part of the state. -/
theorem of_foldlM (get : σ → Func) {step : σ → α → Outcome σ} {l : List α} {x z : σ}
    (hstep : ∀ a ∈ l, ∀ x z, step x a = .ok z → Rewrites (get x) (get z))
    (h : l.foldlM step x = .ok z) : Rewrites (get x) (get z) :=
  Outcome.foldlM_relates (R := fun x z => Rewrites (get x) (get z)) (fun _ => .refl)
    (fun _ _ _ => .trans) hstep h

theorem of_foldl (get : σ → Func) {step : σ → α → σ} {l : List α} {x : σ}
    (hstep : ∀ a ∈ l, ∀ x, Rewrites (get x) (get (step x a))) :
    Rewrites (get x) (get (l.foldl step x)) := by
  have hrun : l.foldlM (fun x a => (.ok (step x a) : Outcome σ)) x = .ok (l.foldl step x) :=
    List.foldlM_pure
  refine of_foldlM get (fun a ha x z h => ?_) hrun
  obtain rfl := Except.ok.inj h
  exact hstep a ha x

end run

/-! ## Edits that optimisations share -/

theorem replaceUses (old new : Operand) : Rewrites f (f.replaceUses old new) := by
  rw [replaceUses_eq]
  refine of_foldl id fun b _ k => ?_
  refine block b _ (of_foldl id fun v _ k => ?_)
  exact rewire v (fun y => ⟨y.args.map (swap old new), y.block, rfl⟩) .refl

theorem removeValue (b : BlockId) (v : ValueId) : Rewrites f (f.removeValue b v) := by
  unfold Func.removeValue
  split
  · exact rewire v (fun y => ⟨y.args, none, rfl⟩) (.block b _ .refl)
  · exact .refl

theorem replaceValue (v : ValueId) (o : Operand) : Rewrites f (f.replaceValue v o) := by
  simp only [Func.replaceValue]
  split
  · exact (replaceUses _ _).trans (removeValue _ _)
  · exact replaceUses _ _

theorem replaceByConst (h : f.replaceByConst v lanes = .ok g) : Rewrites f g := by
  obtain ⟨b, -, h⟩ := Outcome.bind_eq_ok.mp h
  obtain ⟨x, hx, h⟩ := Outcome.bind_eq_ok.mp h
  obtain rfl := Except.ok.inj h
  exact (const .refl hx).trans (replaceValue _ _)

theorem removePred {i : Int} (h : f.removePred b i = .ok g) : Rewrites f g := by
  unfold Func.removePred at h
  split at h
  · cases h
  obtain ⟨preds, -, h⟩ := Outcome.bind_eq_ok.mp h
  refine (block b _ .refl).trans (of_foldlM id (fun x _ k k' hk => ?_) h)
  dsimp only at hk
  split at hk
  · obtain ⟨args, -, hk⟩ := Outcome.bind_eq_ok.mp hk
    obtain rfl := Except.ok.inj hk
    exact rewire x.1 (fun y => ⟨args, y.block, rfl⟩) .refl
  · exact Except.ok.inj hk ▸ .refl

theorem clearTerminator (h : f.clearTerminator b = .ok g) : Rewrites f g := by
  obtain ⟨k, hk, h⟩ := Outcome.bind_eq_ok.mp h
  obtain rfl := Except.ok.inj h
  refine block b _ (of_foldlM id (fun s _ m m' hm => ?_) hk)
  split at hm
  · exact removePred hm
  · exact Except.ok.inj hm ▸ .refl

theorem foldBranch {n : Nat} (h : f.foldBranch b n = .ok g) : Rewrites f g := by
  obtain ⟨keep, -, h⟩ := Outcome.bind_eq_ok.mp h
  obtain ⟨drop, -, h⟩ := Outcome.bind_eq_ok.mp h
  obtain ⟨i, -, h⟩ := Outcome.bind_eq_ok.mp h
  obtain ⟨k, hk, h⟩ := Outcome.bind_eq_ok.mp h
  obtain rfl := Except.ok.inj h
  exact (removePred hk).block b _

theorem unlisted (l : List ValueId) (block : Option BlockId) :
    Rewrites f (l.foldl (fun f v => f.modifyValue v fun y => { y with block := block }) f) :=
  of_foldl id fun v _ _ => rewire v (fun y => ⟨y.args, block, rfl⟩) .refl

theorem removeUnreachable (h : f.removeUnreachable = .ok (g, ch)) : Rewrites f g := by
  rw [removeUnreachable_eq] at h
  obtain ⟨live, -, h⟩ := Outcome.bind_eq_ok.mp h
  obtain ⟨k, hk, h⟩ := Outcome.bind_eq_ok.mp h
  obtain ⟨rfl, -⟩ := Prod.mk.inj (Except.ok.inj h)
  refine (of_foldlM id (fun b _ m m' hm => clearTerminator hm) hk).trans (of_foldl id fun b _ m => ?_)
  exact (unlisted _ none).layout _

/-- A step whose report is added to those before. -/
theorem or_report {x : Optimized} {s t : Func × Bool}
    (hx : ∀ g ch, x = .ok (g, ch) → Rewrites s.1 g)
    (h : (x >>= fun r => .ok (r.1, s.2 || r.2)) = .ok t) : Rewrites s.1 t.1 := by
  obtain ⟨⟨g, ch⟩, hg, h⟩ := Outcome.bind_eq_ok.mp h
  obtain rfl := Except.ok.inj h
  exact hx g ch hg

/-- A step that is taken at every value of the reachable blocks. -/
theorem sweep (skip : Value → Bool) (step : Func → ValueId → Optimized)
    (hstep : ∀ k v g ch, step k v = .ok (g, ch) → Rewrites k g)
    (h : (f.reversePostOrder >>= fun rpo => rpo.foldlM (fun (s : Func × Bool) b =>
      (s.1.block b).values.foldlM (stepAt skip step) s) (f, false)) = .ok (g, ch)) :
    Rewrites f g := by
  obtain ⟨rpo, -, h⟩ := Outcome.bind_eq_ok.mp h
  refine of_foldlM Prod.fst (fun b _ s t hst => ?_) h
  refine of_foldlM Prod.fst (fun v _ s t hst => ?_) hst
  simp only [stepAt] at hst
  split at hst
  · exact Except.ok.inj hst ▸ .refl
  · exact or_report (fun g ch hg => hstep _ _ _ _ hg) hst

/-! ## Combining and reassociating -/

theorem rewires_exchanged : Rewires exchanged := fun y => ⟨_, y.block, rfl⟩

theorem commuteConst (h : f.commuteConst v = .ok g) : Rewrites f g := by
  simp only [Func.commuteConst] at h
  split at h
  · exact Except.ok.inj h ▸ .refl
  obtain ⟨a, -, h⟩ := Outcome.bind_eq_ok.mp h
  split at h
  · exact Except.ok.inj h ▸ .refl
  obtain ⟨a', -, h⟩ := Outcome.bind_eq_ok.mp h
  split at h
  · exact Except.ok.inj h ▸ .refl
  · exact Except.ok.inj h ▸ rewire v rewires_exchanged .refl

theorem combineValue (h : f.combineValue v = .ok (g, ch)) : Rewrites f g := by
  have hconst : ∀ {k : Func} {lanes}, (do return (← k.replaceByConst v lanes, true) : Optimized) =
      .ok (g, ch) → Rewrites k g := by
    intro k lanes h
    obtain ⟨m, hm, h⟩ := Outcome.bind_eq_ok.mp h
    obtain ⟨rfl, -⟩ := Prod.mk.inj (Except.ok.inj h)
    exact replaceByConst hm
  rw [combineValue_eq] at h
  obtain ⟨k, hk, h⟩ := Outcome.bind_eq_ok.mp h
  obtain ⟨r, -, h⟩ := Outcome.bind_eq_ok.mp h
  refine (commuteConst hk).trans ?_
  cases r with
  | some lanes => exact hconst h
  | none =>
    obtain ⟨o, -, h⟩ := Outcome.bind_eq_ok.mp h
    split at h
    · split at h
      · exact hconst h
      · exact (Prod.mk.inj (Except.ok.inj h)).1 ▸ .refl
    · exact (Prod.mk.inj (Except.ok.inj h)).1 ▸ replaceValue _ _

theorem combine (h : f.combine = .ok (g, ch)) : Rewrites f g :=
  sweep (fun y => y.block.isNone || y.volatile) Func.combineValue
    (fun _ _ _ _ => combineValue) h

theorem setSecondConst (h : f.setSecondConst v lanes = .ok g) : Rewrites f g := by
  obtain ⟨b, -, h⟩ := Outcome.bind_eq_ok.mp h
  obtain ⟨x, hx, h⟩ := Outcome.bind_eq_ok.mp h
  obtain rfl := Except.ok.inj h
  exact rewire v (fun y => ⟨_, y.block, rfl⟩) (const .refl hx)

theorem joinPicked {c₂ : Value} {r : Option (Operand × Value)}
    (h : f.joinPicked v c₂ r = .ok (g, ch)) : Rewrites f g := by
  match r, h with
  | none, h => exact (Prod.mk.inj (Except.ok.inj h)).1 ▸ .refl
  | some (x, c₁), h =>
    obtain ⟨joined, -, h⟩ := Outcome.bind_eq_ok.mp h
    split at h
    · exact (Prod.mk.inj (Except.ok.inj h)).1 ▸ .refl
    · obtain ⟨m, hm, h⟩ := Outcome.bind_eq_ok.mp h
      obtain ⟨rfl, -⟩ := Prod.mk.inj (Except.ok.inj h)
      exact (rewire v (fun y => ⟨_, y.block, rfl⟩) .refl).trans (setSecondConst hm)

theorem joinOriented (h : joinOriented v f = .ok (g, ch)) : Rewrites f g := by
  obtain ⟨inner, -, h⟩ := Outcome.bind_eq_ok.mp h
  split at h
  · exact (Prod.mk.inj (Except.ok.inj h)).1 ▸ .refl
  obtain ⟨c, -, h⟩ := Outcome.bind_eq_ok.mp h
  split at h
  · exact (Prod.mk.inj (Except.ok.inj h)).1 ▸ .refl
  obtain ⟨x, -, h⟩ := Outcome.bind_eq_ok.mp h
  obtain ⟨y, -, h⟩ := Outcome.bind_eq_ok.mp h
  obtain ⟨a, -, h⟩ := Outcome.bind_eq_ok.mp h
  split at h
  · exact joinPicked h
  · obtain ⟨e, -, h⟩ := Outcome.bind_eq_ok.mp h
    exact joinPicked h

theorem reassociateValue (h : f.reassociateValue v = .ok (g, ch)) : Rewrites f g := by
  have hjoin : isAssociative (f.value v).op = true → f.joinConstants v = .ok (g, ch) →
      Rewrites f g := by
    intro hop h
    rw [joinConstants_eq (isAssociative_op hop).2.2] at h
    obtain ⟨k, hk, h⟩ := Outcome.bind_eq_ok.mp h
    exact (commuteConst hk).trans (joinOriented h)
  have hrest : (if isAssociative (f.value v).op then f.joinConstants v else
      (return (f, false) : Optimized)) = .ok (g, ch) → Rewrites f g := by
    intro h
    split at h
    · next hop => exact hjoin hop h
    · exact (Prod.mk.inj (Except.ok.inj h)).1 ▸ .refl
  simp only [Func.reassociateValue] at h
  split at h
  · exact (Prod.mk.inj (Except.ok.inj h)).1 ▸ .refl
  split at h
  · obtain ⟨c, -, h⟩ := Outcome.bind_eq_ok.mp h
    split at h
    · obtain ⟨m, hm, h⟩ := Outcome.bind_eq_ok.mp h
      obtain ⟨rfl, -⟩ := Prod.mk.inj (Except.ok.inj h)
      obtain ⟨l, -, hm⟩ := Outcome.bind_eq_ok.mp hm
      exact (toAdd v .refl).trans (setSecondConst hm)
    · exact hrest h
  · exact hrest h

theorem reassociate (h : f.reassociate = .ok (g, ch)) : Rewrites f g :=
  sweep (fun y => y.block.isNone || !y.type.isInt || y.volatile) Func.reassociateValue
    (fun _ _ _ _ => reassociateValue) h

/-! ## Sharing, pruning and hoisting -/

theorem shareBlock {seen : Available} {r : Func × Available × Bool}
    (h : f.shareBlock seen b = .ok r) : Rewrites f r.1 := by
  rw [shareBlock_eq] at h
  refine of_foldlM (fun s : Func × Available × Bool => s.1) (fun v _ s t hst => ?_) h
  rw [shareStep] at hst
  split at hst
  · exact Except.ok.inj hst ▸ .refl
  · obtain ⟨key, -, hst⟩ := Outcome.bind_eq_ok.mp hst
    split at hst
    · exact Except.ok.inj hst ▸ replaceValue _ _
    · exact Except.ok.inj hst ▸ .refl

theorem shareTree {dom : DomTree} {fuel : Nat} {seen : Available}
    (h : shareTree dom fuel f seen b = .ok (g, ch)) : Rewrites f g := by
  induction fuel generalizing f g seen b ch with
  | zero => exact (Prod.mk.inj (Except.ok.inj h)).1 ▸ .refl
  | succ fuel ih =>
    rw [Func.shareTree] at h
    obtain ⟨⟨k, seen', ch'⟩, hk, h⟩ := Outcome.bind_eq_ok.mp h
    refine (shareBlock hk).trans ?_
    exact of_foldlM Prod.fst (fun c _ s t hst => or_report (fun g ch hg => ih hg) hst) h

theorem shareCommon (h : f.shareCommon = .ok (g, ch)) : Rewrites f g := by
  obtain ⟨dom, -, h⟩ := Outcome.bind_eq_ok.mp h
  obtain ⟨entry, -, h⟩ := Outcome.bind_eq_ok.mp h
  exact shareTree h

theorem removeDead (h : f.removeDead = .ok (g, ch)) : Rewrites f g := by
  rw [removeDead_eq] at h
  obtain ⟨live, -, h⟩ := Outcome.bind_eq_ok.mp h
  have hrun : Rewrites (Prod.fst (f, false)) (Prod.fst (f.layout.foldl (dropDead live) (f, false))) :=
    of_foldl Prod.fst fun b _ s => (block b _ .refl).trans (unlisted _ none)
  rw [Except.ok.inj h] at hrun
  exact hrun

theorem moveValue (pre : BlockId) : Rewrites f (f.moveValue b pre v) :=
  ((removeValue b v).rewire v fun y => ⟨y.args, some pre, rfl⟩).block pre _

theorem hoistSweep {l : Loop} {pre : BlockId} {rpo : List BlockId}
    (h : hoistSweep l pre rpo f = .ok (g, ch)) : Rewrites f g := by
  rw [hoistSweep_eq] at h
  refine of_foldlM Prod.fst (fun b _ s t hst => ?_) h
  refine of_foldlM Prod.fst (fun v _ s t hst => ?_) hst
  obtain ⟨r, -, hst⟩ := Outcome.bind_eq_ok.mp hst
  split at hst
  · exact Except.ok.inj hst ▸ moveValue pre
  · exact Except.ok.inj hst ▸ .refl

theorem hoistSweeps {l : Loop} {pre : BlockId} {rpo : List BlockId} {fuel : Nat}
    {r : Func × Bool} (h : hoistSweeps l pre rpo fuel f ch = .ok r) : Rewrites f r.1 := by
  induction fuel generalizing f ch with
  | zero => exact Except.ok.inj h ▸ .refl
  | succ fuel ih =>
    rw [Func.hoistSweeps] at h
    obtain ⟨⟨k, moved⟩, hk, h⟩ := Outcome.bind_eq_ok.mp h
    refine (hoistSweep hk).trans ?_
    cases moved with
    | true => exact ih h
    | false => exact Except.ok.inj h ▸ .refl

theorem hoist (h : f.hoist = .ok (g, ch)) : Rewrites f g := by
  obtain ⟨dom, -, h⟩ := Outcome.bind_eq_ok.mp h
  refine of_foldlM Prod.fst (fun l _ s t hst => ?_) h
  refine or_report (fun g ch hg => ?_) hst
  rw [hoistLoop] at hg
  split at hg
  · exact (Prod.mk.inj (Except.ok.inj hg)).1 ▸ .refl
  · exact hoistSweeps hg

/-! ## Simplifying control flow -/

theorem foldBranches (h : f.foldBranches = .ok (g, ch)) : Rewrites f g := by
  rw [foldBranches_eq] at h
  refine of_foldlM Prod.fst (fun b _ s t hst => ?_) h
  simp only [foldBranchAt] at hst
  split at hst
  · exact Except.ok.inj hst ▸ .refl
  obtain ⟨cond, -, hst⟩ := Outcome.bind_eq_ok.mp hst
  split at hst
  · obtain ⟨m, hm, hst⟩ := Outcome.bind_eq_ok.mp hst
    exact Except.ok.inj hst ▸ foldBranch hm
  obtain ⟨yes, -, hst⟩ := Outcome.bind_eq_ok.mp hst
  obtain ⟨no, -, hst⟩ := Outcome.bind_eq_ok.mp hst
  split at hst
  · obtain ⟨same, -, hst⟩ := Outcome.bind_eq_ok.mp hst
    split at hst
    · obtain ⟨m, hm, hst⟩ := Outcome.bind_eq_ok.mp hst
      exact Except.ok.inj hst ▸ foldBranch hm
    · exact Except.ok.inj hst ▸ .refl
  · exact Except.ok.inj hst ▸ .refl

theorem simplifyPhis : Rewrites f f.simplifyPhis.1 := by
  rw [simplifyPhis_eq]
  refine of_foldl Prod.fst (x := (f, false)) fun b _ s => of_foldl Prod.fst fun v _ s => ?_
  simp only [dropPhiAt]
  split
  · exact .refl
  · split
    · exact .refl
    · exact replaceValue _ _

theorem joined (b c : BlockId) : Rewrites f (f.joined b c) := by
  refine layout _ (block c _ ?_)
  refine ((unlisted (f.block c).values (some b)).block b (absorb (f.block c))).trans ?_
  exact of_foldl id fun s _ _ => block s (renamePred c b) .refl

theorem mergeInto (h : f.mergeInto b c = .ok g) : Rewrites f g := by
  rw [mergeInto_eq] at h
  obtain ⟨k, hk, h⟩ := Outcome.bind_eq_ok.mp h
  obtain rfl := Except.ok.inj h
  refine (of_foldlM id (fun v _ k k' hk => ?_) hk).trans (joined b c)
  simp only [dropPhiOf] at hk
  split at hk
  · obtain ⟨o, -, hk⟩ := Outcome.bind_eq_ok.mp hk
    exact Except.ok.inj hk ▸ replaceValue _ _
  · exact Except.ok.inj hk ▸ .refl

theorem mergeBlocks (h : f.mergeBlocks = .ok (g, ch)) : Rewrites f g := by
  rw [mergeBlocks_eq] at h
  refine of_foldlM Prod.fst (fun c _ s t hst => ?_) h
  obtain ⟨entry, -, hst⟩ := Outcome.bind_eq_ok.mp hst
  split at hst
  · exact Except.ok.inj hst ▸ .refl
  split at hst
  · split at hst
    · exact Except.ok.inj hst ▸ .refl
    · obtain ⟨m, hm, hst⟩ := Outcome.bind_eq_ok.mp hst
      exact Except.ok.inj hst ▸ mergeInto hm
  · exact Except.ok.inj hst ▸ .refl

theorem controlFlowRound (h : f.controlFlowRound = .ok (g, ch)) : Rewrites f g := by
  obtain ⟨⟨k₁, ch₁⟩, h₁, h⟩ := Outcome.bind_eq_ok.mp h
  obtain ⟨⟨k₂, ch₂⟩, h₂, h⟩ := Outcome.bind_eq_ok.mp h
  obtain ⟨⟨k₄, ch₄⟩, h₄, h⟩ := Outcome.bind_eq_ok.mp h
  obtain ⟨rfl, -⟩ := Prod.mk.inj (Except.ok.inj h)
  exact (((foldBranches h₁).trans (removeUnreachable h₂)).trans simplifyPhis).trans (mergeBlocks h₄)

theorem controlFlowRounds {fuel : Nat} {r : Func × Bool}
    (h : controlFlowRounds fuel f ch = .ok r) : Rewrites f r.1 := by
  induction fuel generalizing f ch with
  | zero => exact Except.ok.inj h ▸ .refl
  | succ fuel ih =>
    rw [Func.controlFlowRounds] at h
    obtain ⟨⟨k, more⟩, hk, h⟩ := Outcome.bind_eq_ok.mp h
    refine (controlFlowRound hk).trans ?_
    cases more with
    | true => exact ih h
    | false => exact Except.ok.inj h ▸ .refl

/-! ## Propagating constants -/

theorem substituteAt {r : Facts} {s t : Func × Bool} (h : substituteAt r b s v = .ok t) :
    Rewrites s.1 t.1 := by
  rw [Func.substituteAt] at h
  split at h
  · split at h
    · exact Except.ok.inj h ▸ .refl
    · obtain ⟨x, hx, h⟩ := Outcome.bind_eq_ok.mp h
      exact Except.ok.inj h ▸ (const .refl hx).trans (replaceValue _ _)
  · exact Except.ok.inj h ▸ .refl

theorem substituteIn {r : Facts} {s t : Func × Bool} (h : substituteIn r s b = .ok t) :
    Rewrites s.1 t.1 := by
  rw [Func.substituteIn] at h
  split at h
  · exact Except.ok.inj h ▸ .refl
  · refine or_report (fun g ch hg => ?_) h
    rw [substituteBlock_eq] at hg
    exact of_foldlM Prod.fst (fun v _ s t hst => substituteAt hst) hg

theorem settleAt {folds : List (BlockId × Nat)} {s t : Func × Bool}
    (h : settleAt folds s b = .ok t) : Rewrites s.1 t.1 := by
  rw [Func.settleAt] at h
  split at h
  · obtain ⟨m, hm, h⟩ := Outcome.bind_eq_ok.mp h
    exact Except.ok.inj h ▸ foldBranch hm
  · exact Except.ok.inj h ▸ .refl

theorem propagateConstants (h : f.propagateConstants = .ok (g, ch)) : Rewrites f g := by
  rw [propagateConstants_eq] at h
  obtain ⟨r, -, h⟩ := Outcome.bind_eq_ok.mp h
  obtain ⟨folds, -, h⟩ := Outcome.bind_eq_ok.mp h
  obtain ⟨x, hx, h⟩ := Outcome.bind_eq_ok.mp h
  obtain ⟨y, hy, h⟩ := Outcome.bind_eq_ok.mp h
  have hsub : Rewrites f x.1 := of_foldlM Prod.fst (fun b _ s t hst => substituteIn hst) hx
  have hset : Rewrites x.1 y.1 := of_foldlM Prod.fst (fun b _ s t hst => settleAt hst) hy
  exact (hsub.trans hset).trans (or_report (fun g ch hg => removeUnreachable hg) h)

/-! ## Promoting slots -/

variable {t : Ty} {e slot : ValueId} {phis : PlacedPhis} {dom : DomTree}

theorem placePhis {df : Array (List BlockId)} {fuel : Nat} {defs work : List BlockId}
    {y : Func × PlacedPhis} (h : placePhis t e df fuel f phis defs work = .ok y) :
    Rewrites f y.1 := by
  induction fuel generalizing f phis defs work with
  | zero => exact Except.ok.inj h ▸ .refl
  | succ fuel ih =>
    cases work with
    | nil => exact Except.ok.inj h ▸ .refl
    | cons b work =>
      rw [placePhis_succ] at h
      obtain ⟨s, hs, h⟩ := Outcome.bind_eq_ok.mp h
      refine (of_foldlM (fun s : Func × PlacedPhis × List BlockId × List BlockId => s.1)
        (fun d _ s s' hs => ?_) hs).trans (ih h)
      rw [placeAt] at hs
      split at hs
      · exact Except.ok.inj hs ▸ .refl
      obtain ⟨x, hx, hs⟩ := Outcome.bind_eq_ok.mp hs
      have hphi : Rewrites s.1 x.1 := phi .refl rfl hx
      split at hs <;> exact Except.ok.inj hs ▸ hphi

theorem renameBlock {cur : Operand} {r : Func × Operand × List ValueId}
    (h : renameBlock slot f cur b = .ok r) : Rewrites f r.1 := by
  rw [renameBlock_eq] at h
  refine of_foldlM (fun s : Func × Operand × List ValueId => s.1) (fun v _ s s' hs => ?_) h
  rw [renameAt] at hs
  obtain ⟨reads, -, hs⟩ := Outcome.bind_eq_ok.mp hs
  split at hs
  · exact Except.ok.inj hs ▸ replaceUses _ _
  obtain ⟨writes, -, hs⟩ := Outcome.bind_eq_ok.mp hs
  split at hs
  · obtain ⟨o, -, hs⟩ := Outcome.bind_eq_ok.mp hs
    exact Except.ok.inj hs ▸ .refl
  · exact Except.ok.inj hs ▸ .refl

theorem renameTree {fuel : Nat} {cur : Operand} {r : Func × List ValueId}
    (h : renameTree slot dom phis fuel f cur b = .ok r) : Rewrites f r.1 := by
  induction fuel generalizing f cur b r with
  | zero => exact Except.ok.inj h ▸ .refl
  | succ fuel ih =>
    rw [renameTree_succ] at h
    obtain ⟨x, hx, h⟩ := Outcome.bind_eq_ok.mp h
    have hargs : Rewrites x.1 ((x.1.block b).succs.foldl (setArgsOf phis b x.2.1) x.1) := by
      refine of_foldl id fun s _ m => ?_
      simp only [setArgsOf, id]
      split
      · exact rewire _ (fun y => ⟨_, y.block, rfl⟩) .refl
      · exact .refl
    refine ((renameBlock hx).trans hargs).trans (of_foldlM Prod.fst (fun c _ s s' hs => ?_) h)
    obtain ⟨y, hy, hs⟩ := Outcome.bind_eq_ok.mp hs
    obtain rfl := Except.ok.inj hs
    exact ih (r := y) hy

theorem promoteSlot {df : Array (List BlockId)} (h : f.promoteSlot dom df slot t = .ok g) :
    Rewrites f g := by
  rw [promoteSlot_eq] at h
  obtain ⟨e, -, h⟩ := Outcome.bind_eq_ok.mp h
  obtain ⟨x, hx, h⟩ := Outcome.bind_eq_ok.mp h
  obtain ⟨defs, -, h⟩ := Outcome.bind_eq_ok.mp h
  obtain ⟨y, hy, h⟩ := Outcome.bind_eq_ok.mp h
  obtain ⟨z, hz, h⟩ := Outcome.bind_eq_ok.mp h
  obtain ⟨m, hm, h⟩ := Outcome.bind_eq_ok.mp h
  obtain rfl := Except.ok.inj h
  have hfill : Rewrites z.1 (y.2.foldl (fillPhi x.2) z.1) :=
    of_foldl id fun p _ k => rewire p.2 (fun y => ⟨_, y.block, rfl⟩) .refl
  have hdead : Rewrites (y.2.foldl (fillPhi x.2) z.1) m := by
    refine of_foldlM id (fun v _ k k' hk => ?_) hm
    obtain ⟨b, -, hk⟩ := Outcome.bind_eq_ok.mp hk
    exact Except.ok.inj hk ▸ removeValue b v
  have hput : Rewrites f x.1 := const .refl hx
  exact ((((hput.trans (placePhis hy)).trans (renameTree hz)).trans hfill).trans hdead).trans
    (removeValue e slot)

theorem promote (h : f.promote = .ok (g, ch)) : Rewrites f g := by
  rw [promote_eq] at h
  obtain ⟨x, hx, h⟩ := Outcome.bind_eq_ok.mp h
  refine (removeUnreachable hx).trans ?_
  obtain ⟨e, -, h⟩ := Outcome.bind_eq_ok.mp h
  split at h
  · exact Except.ok.inj h ▸ .refl
  obtain ⟨dom, -, h⟩ := Outcome.bind_eq_ok.mp h
  refine of_foldlM Prod.fst (fun slot _ s t hst => ?_) h
  rw [promoteAt] at hst
  obtain ⟨r, -, hst⟩ := Outcome.bind_eq_ok.mp hst
  split at hst
  · exact Except.ok.inj hst ▸ .refl
  · obtain ⟨m, hm, hst⟩ := Outcome.bind_eq_ok.mp hst
    exact Except.ok.inj hst ▸ promoteSlot hm

end Rewrites

end Func

/-! ## All of them -/

namespace Pass

theorem run_rewrites (p : Pass) {f g : Func} {ch : Bool} (h : p.run f = .ok (g, ch)) :
    f.Rewrites g := by
  cases p with
  | instcombine => exact .combine h
  | reassociate => exact .reassociate h
  | simplifycfg => exact .controlFlowRounds h
  | licm => exact .hoist h
  | dce => exact .removeDead h
  | cse => exact .shareCommon h
  | sroa => exact .promote h
  | sccp => exact .propagateConstants h

/-- `P` holds after each optimisation of a sequence, and where the sequence ends or breaks off. -/
def Throughout (names : List String) (f : Func) (P : Func → Prop) : Prop :=
  (∀ l, (runNamed names f).1 = .ok l → ∀ x ∈ l, P x.2) ∧ P (runNamed names f).2

theorem Throughout.imp {names : List String} {f : Func} {P Q : Func → Prop}
    (h : Throughout names f P) (hPQ : ∀ g, P g → Q g) : Throughout names f Q :=
  ⟨fun l hl x hx => hPQ _ (h.1 l hl x hx), hPQ _ h.2⟩

/-- Whatever names are given, the functions on the way are made by such edits. -/
theorem throughout_rewrites (names : List String) (f : Func) :
    Throughout names f f.Rewrites := by
  induction names generalizing f with
  | nil => simp [Throughout, runNamed, Func.Rewrites.refl]
  | cons n rest ih =>
    rw [Throughout, runNamed]
    split
    · exact ⟨by simp, .refl⟩
    · next g ch h =>
      obtain ⟨p, -, hp⟩ := Outcome.bind_eq_ok.mp h
      have hg := run_rewrites p hp
      obtain ⟨hall, hlast⟩ := (ih g).imp fun _ => hg.trans
      refine ⟨fun l hl x hx => ?_, hlast⟩
      cases hmore : (runNamed rest g).1 with
      | error e => simp [hmore, Except.map] at hl
      | ok more =>
        obtain rfl : (ch, g) :: more = l := by simpa [hmore, Except.map] using hl
        rcases List.mem_cons.mp hx with rfl | hx
        · exact hg
        · exact hall more hmore x hx

end Pass

namespace Pipeline

variable {p : Pipeline} {f : Func} {t : Tally}

theorem run_rewrites {r : Func × Tally × Bool} (h : p.run f t = .ok r) : f.Rewrites r.1 := by
  refine Func.Rewrites.of_foldlM (x := (f, t, false))
    (fun s : Func × Tally × Bool => s.1) (fun q _ s s' hs => ?_) h
  obtain ⟨⟨g, ch⟩, hg, hs⟩ := Outcome.bind_eq_ok.mp hs
  exact Except.ok.inj hs ▸ q.run_rewrites hg

theorem runUntilFixed_rewrites {n : Nat} {r : Func × Tally} (h : p.runUntilFixed n f t = .ok r) :
    f.Rewrites r.1 := by
  induction n generalizing f t with
  | zero => exact Except.ok.inj h ▸ .refl
  | succ n ih =>
    rw [runUntilFixed] at h
    obtain ⟨⟨g, t', ch⟩, hg, h⟩ := Outcome.bind_eq_ok.mp h
    refine (run_rewrites hg).trans ?_
    cases ch with
    | true => exact ih h
    | false => exact Except.ok.inj h ▸ .refl

end Pipeline

end SsaJit
