import SsaJit.Pass.Pipeline
import SsaJit.Proofs.Pass.CommonValue
import SsaJit.Proofs.Pass.ConstProp
import SsaJit.Proofs.Pass.ControlFlow
import SsaJit.Proofs.Pass.Dead
import SsaJit.Proofs.Pass.Hoist
import SsaJit.Proofs.Pass.Reassociate
import SsaJit.Proofs.Ssa.Form

/-! What an optimisation has done that reports no change. Six of them have then done nothing. The other
two move a constant from the left of an operation to its right before they look at it and do not
report that, so they may have done this and nothing else. -/

namespace SsaJit

namespace Func

variable {f g k : Func} {v : ValueId} {b : BlockId} {ch : Bool} {y : Value}

/-! ## Moving constants to the right -/

/-- The value with its first two operands exchanged. -/
def exchanged (y : Value) : Value :=
  { y with args := match y.args with
      | a :: b :: rest => b :: a :: rest
      | args => args }

/-- A constant comes first and something else second, under an operation that takes them in either
order. -/
structure ConstFirst (f : Func) (y : Value) : Prop where
  op : y.op.isCommutative = true
  first : ∃ a, f.argument y 0 = .ok a ∧ a.isConst = true
  second : ∃ c, f.argument y 1 = .ok c ∧ c.isConst = false

/-- `g` is `f` but for values that had a constant first and have it second now. -/
structure Exchanged (f g : Func) : Prop where
  rest : { g with values := f.values } = f
  size : g.numValues = f.numValues
  value : ∀ v, g.value v = f.value v ∨
    f.ConstFirst (f.value v) ∧ g.value v = exchanged (f.value v)

namespace Exchanged

theorem refl (f : Func) : Exchanged f f := ⟨rfl, rfl, fun _ => .inl rfl⟩

theorem op (h : Exchanged f g) (v : ValueId) : (g.value v).op = (f.value v).op := by
  rcases h.value v with heq | ⟨-, heq⟩
  · rw [heq]
  · rw [heq]
    rfl

/-- An operand is a constant in both or in neither. -/
theorem find (h : Exchanged f g) {o : Operand} {a : Value} (ha : g.find o = .ok a) :
    ∃ a', f.find o = .ok a' ∧ a'.isConst = a.isConst := by
  cases o with
  | missing => cases ha
  | value v =>
    obtain rfl : g.value v = a := Except.ok.inj ha
    exact ⟨f.value v, rfl, by simp only [Value.isConst, h.op]⟩
  | foreign n =>
    have hforeigns : g.foreigns = f.foreigns := by
      rw [← h.rest]
    obtain rfl : (g.foreigns.getD n default).value = a := Except.ok.inj ha
    exact ⟨_, rfl, by rw [hforeigns]⟩

theorem argument (h : Exchanged f g) {i : Nat} {a : Value} (ha : g.argument y i = .ok a) :
    ∃ a', f.argument y i = .ok a' ∧ a'.isConst = a.isConst := by
  obtain ⟨o, ho, ha⟩ := Outcome.bind_eq_ok.mp ha
  obtain ⟨a', ha', hconst⟩ := h.find ha
  exact ⟨a', Outcome.bind_eq_ok.mpr ⟨o, ho, ha'⟩, hconst⟩

theorem constFirst (h : Exchanged f g) (hy : g.ConstFirst y) : f.ConstFirst y := by
  obtain ⟨a, ha, hconst⟩ := hy.first
  obtain ⟨c, hc, hother⟩ := hy.second
  obtain ⟨a', ha', heq⟩ := h.argument ha
  obtain ⟨c', hc', heq'⟩ := h.argument hc
  exact ⟨hy.op, ⟨a', ha', heq.trans hconst⟩, ⟨c', hc', heq'.trans hother⟩⟩

end Exchanged

/-- After the exchange the constant is no longer first. -/
theorem ConstFirst.not_exchanged (h : f.ConstFirst y) : ¬ f.ConstFirst (exchanged y) := by
  intro h'
  obtain ⟨c, hc, hother⟩ := h.second
  obtain ⟨a, ha, hconst⟩ := h'.first
  obtain ⟨o, ho, hc⟩ := Outcome.bind_eq_ok.mp hc
  obtain ⟨o', ho', ha⟩ := Outcome.bind_eq_ok.mp ha
  rw [Outcome.at?_eq_ok] at ho ho'
  match hargs : y.args with
  | [] | [_] => rw [hargs] at ho; simp at ho
  | p :: q :: rest =>
    obtain rfl : q = o := by simpa [hargs] using ho
    obtain rfl : q = o' := by simpa [exchanged, hargs] using ho'
    obtain rfl : c = a := Except.ok.inj (hc.symm.trans ha)
    rw [hconst] at hother
    cases hother

theorem Exchanged.trans (h₁ : Exchanged f g) (h₂ : Exchanged g k) : Exchanged f k where
  rest := by
    have := congrArg (fun m : Func => { m with values := f.values }) h₂.rest
    exact this.trans h₁.rest
  size := h₂.size.trans h₁.size
  value v := by
    rcases h₁.value v with h | ⟨hf, h⟩ <;> rcases h₂.value v with h' | ⟨hg, h'⟩
    · exact .inl (h'.trans h)
    · rw [h] at hg h'
      exact .inr ⟨h₁.constFirst hg, h'⟩
    · exact .inr ⟨hf, h'.trans h⟩
    · rw [h] at hg
      exact absurd (h₁.constFirst hg) hf.not_exchanged

theorem modifyValue_of_le {p : Value → Value} (h : f.numValues ≤ v) : f.modifyValue v p = f := by
  have : f.values.modify v p = f.values := by
    refine Array.ext (by simp) fun i hi hi' => ?_
    rw [Array.getElem_modify, if_neg (by have : i < f.numValues := hi'; omega)]
  rw [modifyValue, this]

theorem ConstFirst.exchanged (h : f.ConstFirst (f.value v)) :
    Exchanged f (f.modifyValue v exchanged) where
  rest := rfl
  size := numValues_modifyValue
  value w := by
    by_cases hwv : w = v
    · subst hwv
      rcases Nat.lt_or_ge w f.numValues with hlt | hge
      · exact .inr ⟨h, by rw [value_modifyValue hlt, if_pos rfl]⟩
      · exact .inl (by rw [modifyValue_of_le hge])
    · exact .inl (value_modifyValue_ne hwv)

theorem exchanged_of_commuteConst (h : f.commuteConst v = .ok g) : Exchanged f g := by
  simp only [commuteConst] at h
  split at h
  · exact Except.ok.inj h ▸ .refl f
  next hop =>
  obtain ⟨a, ha, h⟩ := Outcome.bind_eq_ok.mp h
  split at h
  · exact Except.ok.inj h ▸ .refl f
  next hconst =>
  obtain ⟨c, hc, h⟩ := Outcome.bind_eq_ok.mp h
  split at h
  · exact Except.ok.inj h ▸ .refl f
  next hother =>
  obtain rfl : f.modifyValue v Func.exchanged = g := Except.ok.inj h
  refine ConstFirst.exchanged ⟨by simpa using hop, ⟨a, ha, by simpa using hconst⟩, ⟨c, hc, ?_⟩⟩
  simpa using hother

/-! ## Runs that report nothing -/

/-- If no change is reported at `t`, then none was at `s`, and the functions are related. -/
def Unreported (R : Func → Func → Prop) (s t : Func × Bool) : Prop :=
  t.2 = false → s.2 = false ∧ R s.1 t.1

section run

variable {α : Type} {R : Func → Func → Prop}

theorem unreported_foldlM (hrefl : ∀ f, R f f) (htrans : ∀ f g k, R f g → R g k → R f k)
    {step : Func × Bool → α → Optimized} {l : List α} {s t : Func × Bool}
    (hstep : ∀ x ∈ l, ∀ s t, step s x = .ok t → Unreported R s t)
    (h : l.foldlM step s = .ok t) : Unreported R s t := by
  refine Outcome.foldlM_relates (R := Unreported R) (fun s hs => ⟨hs, hrefl s.1⟩) ?_ hstep h
  intro s t u hst htu hu
  obtain ⟨ht, hRtu⟩ := htu hu
  obtain ⟨hs, hRst⟩ := hst ht
  exact ⟨hs, htrans _ _ _ hRst hRtu⟩

/-- A step whose report is added to those before. -/
theorem unreported_or {x : Optimized} {s t : Func × Bool}
    (hx : ∀ g, x = .ok (g, false) → R s.1 g)
    (h : (x >>= fun r => .ok (r.1, s.2 || r.2)) = .ok t) : Unreported R s t := by
  obtain ⟨⟨g, ch⟩, hg, h⟩ := Outcome.bind_eq_ok.mp h
  obtain rfl := Except.ok.inj h
  intro hf
  obtain ⟨hs, rfl⟩ := Bool.or_eq_false_iff.mp hf
  exact ⟨hs, hx g hg⟩

/-- The same step at every value of the reachable blocks, with those skipped that a test tells. -/
theorem unreported_sweep (hrefl : ∀ f, R f f) (htrans : ∀ f g k, R f g → R g k → R f k)
    (skip : Value → Bool) (step : Func → ValueId → Optimized)
    (hstep : ∀ k v g, step k v = .ok (g, false) → R k g)
    (h : (f.reversePostOrder >>= fun rpo => rpo.foldlM (fun (s : Func × Bool) b =>
      (s.1.block b).values.foldlM (stepAt skip step) s) (f, false)) = .ok (g, false)) : R f g := by
  obtain ⟨rpo, -, h⟩ := Outcome.bind_eq_ok.mp h
  refine (unreported_foldlM hrefl htrans (fun b _ s t hst => ?_) h rfl).2
  refine unreported_foldlM hrefl htrans (fun v _ s t hst => ?_) hst
  simp only [stepAt] at hst
  split at hst
  · obtain rfl := Except.ok.inj hst
    exact fun hs => ⟨hs, hrefl _⟩
  · exact unreported_or (fun g hg => hstep _ _ _ hg) hst

end run

/-! ## The two that exchange operands -/

theorem exchanged_of_combineValue (h : f.combineValue v = .ok (g, false)) : Exchanged f g := by
  rw [combineValue_eq] at h
  obtain ⟨k, hk, h⟩ := Outcome.bind_eq_ok.mp h
  obtain ⟨r, -, h⟩ := Outcome.bind_eq_ok.mp h
  suffices k = g from this ▸ exchanged_of_commuteConst hk
  cases r with
  | some lanes =>
    obtain ⟨m, -, h⟩ := Outcome.bind_eq_ok.mp h
    cases h
  | none =>
    obtain ⟨o, -, h⟩ := Outcome.bind_eq_ok.mp h
    split at h
    · split at h
      · obtain ⟨m, -, h⟩ := Outcome.bind_eq_ok.mp h
        cases h
      · cases h
        rfl
    · cases h

theorem exchanged_of_combine (h : f.combine = .ok (g, false)) : Exchanged f g :=
  unreported_sweep .refl (fun _ _ _ => .trans) (fun y => y.block.isNone || y.volatile) combineValue
    (fun _ _ _ => exchanged_of_combineValue) h

theorem eq_of_joinPicked {c : Value} {r : Option (Operand × Value)}
    (h : f.joinPicked v c r = .ok (g, false)) : f = g := by
  match r, h with
  | none, h => exact (Prod.mk.inj (Except.ok.inj h)).1
  | some _, h =>
    obtain ⟨joined, -, h⟩ := Outcome.bind_eq_ok.mp h
    split at h
    · exact (Prod.mk.inj (Except.ok.inj h)).1
    · obtain ⟨m, -, h⟩ := Outcome.bind_eq_ok.mp h
      cases h

theorem eq_of_joinOriented (h : joinOriented v f = .ok (g, false)) : f = g := by
  obtain ⟨inner, -, h⟩ := Outcome.bind_eq_ok.mp h
  split at h
  · exact (Prod.mk.inj (Except.ok.inj h)).1
  obtain ⟨c, -, h⟩ := Outcome.bind_eq_ok.mp h
  split at h
  · exact (Prod.mk.inj (Except.ok.inj h)).1
  obtain ⟨x, -, h⟩ := Outcome.bind_eq_ok.mp h
  obtain ⟨y, -, h⟩ := Outcome.bind_eq_ok.mp h
  obtain ⟨a, -, h⟩ := Outcome.bind_eq_ok.mp h
  split at h
  · exact eq_of_joinPicked h
  · obtain ⟨e, -, h⟩ := Outcome.bind_eq_ok.mp h
    exact eq_of_joinPicked h

theorem exchanged_of_reassociateValue (h : f.reassociateValue v = .ok (g, false)) :
    Exchanged f g := by
  have hjoin : isAssociative (f.value v).op = true → f.joinConstants v = .ok (g, false) →
      Exchanged f g := by
    intro hop h
    rw [joinConstants_eq (isAssociative_op hop).2.2] at h
    obtain ⟨k, hk, h⟩ := Outcome.bind_eq_ok.mp h
    exact eq_of_joinOriented h ▸ exchanged_of_commuteConst hk
  simp only [reassociateValue] at h
  split at h
  · exact (Prod.mk.inj (Except.ok.inj h)).1 ▸ .refl f
  split at h
  · obtain ⟨c, -, h⟩ := Outcome.bind_eq_ok.mp h
    split at h
    · obtain ⟨m, -, h⟩ := Outcome.bind_eq_ok.mp h
      cases h
    · split at h
      · next hop => exact hjoin hop h
      · exact (Prod.mk.inj (Except.ok.inj h)).1 ▸ .refl f
  · split at h
    · next hop => exact hjoin hop h
    · exact (Prod.mk.inj (Except.ok.inj h)).1 ▸ .refl f

theorem exchanged_of_reassociate (h : f.reassociate = .ok (g, false)) : Exchanged f g :=
  unreported_sweep .refl (fun _ _ _ => .trans)
    (fun y => y.block.isNone || !y.type.isInt || y.volatile) reassociateValue
    (fun _ _ _ => exchanged_of_reassociateValue) h

/-! ## The six that do not -/

/-- If no change is reported at `t`, then none was at `s`, and the function is the same. -/
abbrev Silent : Func × Bool → Func × Bool → Prop := Unreported Eq

theorem silent_foldlM {α : Type} {q : Func × Bool → α → Optimized} {l : List α}
    {s t : Func × Bool} (hstep : ∀ x ∈ l, ∀ s t, q s x = .ok t → Silent s t)
    (h : l.foldlM q s = .ok t) : Silent s t :=
  unreported_foldlM (fun _ => rfl) (fun _ _ _ => Eq.trans) hstep h

theorem silent_foldl {α : Type} {step : Func × Bool → α → Func × Bool} {l : List α}
    {s : Func × Bool} (hstep : ∀ x ∈ l, ∀ s, Silent s (step s x)) : Silent s (l.foldl step s) := by
  refine silent_foldlM (q := fun s x => .ok (step s x)) (l := l) ?_ ?_
  · intro x hx s t h
    obtain rfl := Except.ok.inj h
    exact hstep x hx s
  · exact List.foldlM_pure

theorem silent_self (s : Func × Bool) : Silent s s := fun h => ⟨h, rfl⟩

theorem silent_true (s : Func × Bool) (g : Func) : Silent s (g, true) := fun h => by cases h

theorem eq_of_removeUnreachable (h : f.removeUnreachable = .ok (g, false)) : f = g := by
  rw [removeUnreachable_eq] at h
  obtain ⟨live, -, h⟩ := Outcome.bind_eq_ok.mp h
  obtain ⟨k, hk, h⟩ := Outcome.bind_eq_ok.mp h
  obtain ⟨rfl, hdead⟩ := Prod.mk.inj (Except.ok.inj h)
  have hnil : (f.layout.filter fun b => !live.contains b) = [] := by simpa using hdead
  rw [hnil] at hk ⊢
  exact Except.ok.inj hk

theorem eq_of_removeDead (h : f.removeDead = .ok (g, false)) : f = g := by
  rw [removeDead_eq] at h
  obtain ⟨live, -, h⟩ := Outcome.bind_eq_ok.mp h
  have hrun : Silent (f, false) (f.layout.foldl (dropDead live) (f, false)) := by
    refine silent_foldl fun b _ s hs => ?_
    obtain ⟨hs, hdead⟩ := Bool.or_eq_false_iff.mp hs
    refine ⟨hs, congrArg Prod.fst (dropDead_self (s := s) fun v hv => ?_).symm⟩
    have hnil : ((s.1.block b).values.filter fun v => !live.getD v false) = [] := by
      simpa using hdead
    simpa using List.filter_eq_nil_iff.mp hnil v hv
  rw [Except.ok.inj h] at hrun
  exact (hrun rfl).2

theorem silent_hoistStep {l : Loop} {pre : BlockId} {s t : Func × Bool}
    (h : hoistStep l pre b s v = .ok t) : Silent s t := by
  obtain ⟨r, -, h⟩ := Outcome.bind_eq_ok.mp h
  split at h
  · exact Except.ok.inj h ▸ silent_true s _
  · exact Except.ok.inj h ▸ silent_self s

theorem eq_of_hoistSweep {l : Loop} {pre : BlockId} {rpo : List BlockId}
    (h : hoistSweep l pre rpo f = .ok (g, false)) : f = g := by
  rw [hoistSweep_eq] at h
  refine (silent_foldlM (fun b _ s t hst => ?_) h rfl).2
  exact silent_foldlM (fun v _ s t hst => silent_hoistStep hst) hst

theorem silent_hoistSweeps {l : Loop} {pre : BlockId} {rpo : List BlockId} {fuel : Nat}
    {t : Func × Bool} (h : hoistSweeps l pre rpo fuel f ch = .ok t) : Silent (f, ch) t := by
  induction fuel generalizing f ch with
  | zero => exact Except.ok.inj h ▸ silent_self _
  | succ fuel ih =>
    rw [hoistSweeps] at h
    obtain ⟨⟨k, moved⟩, hk, h⟩ := Outcome.bind_eq_ok.mp h
    cases moved with
    | true =>
      intro ht
      cases (ih h ht).1
    | false =>
      obtain rfl := Except.ok.inj h
      rw [eq_of_hoistSweep hk]
      exact silent_self _

theorem eq_of_hoist (h : f.hoist = .ok (g, false)) : f = g := by
  obtain ⟨dom, -, h⟩ := Outcome.bind_eq_ok.mp h
  refine (silent_foldlM (fun l _ s t hst => ?_) h rfl).2
  refine unreported_or (fun g hg => ?_) hst
  rw [hoistLoop] at hg
  split at hg
  · exact (Prod.mk.inj (Except.ok.inj hg)).1
  · exact (silent_hoistSweeps hg rfl).2

theorem eq_of_shareBlock {seen seen' : Available}
    (h : f.shareBlock seen b = .ok (g, seen', false)) : f = g := by
  rw [shareBlock_eq] at h
  have hrun := Outcome.foldlM_relates
    (R := fun s t : Func × Available × Bool => Silent (s.1, s.2.2) (t.1, t.2.2))
    (fun s => silent_self _) (fun s t u hst htu hu => ?_) (fun v _ s t hst => ?_) h
  · exact (hrun rfl).2
  · obtain ⟨ht, heq⟩ := htu hu
    exact ⟨(hst ht).1, (hst ht).2.trans heq⟩
  · rw [shareStep] at hst
    split at hst
    · exact Except.ok.inj hst ▸ silent_self _
    · obtain ⟨key, -, hst⟩ := Outcome.bind_eq_ok.mp hst
      split at hst
      · exact Except.ok.inj hst ▸ silent_true _ _
      · exact Except.ok.inj hst ▸ silent_self _

theorem eq_of_shareTree {dom : DomTree} {fuel : Nat} {seen : Available}
    (h : shareTree dom fuel f seen b = .ok (g, false)) : f = g := by
  induction fuel generalizing f g seen b with
  | zero => exact (Prod.mk.inj (Except.ok.inj h)).1
  | succ fuel ih =>
    rw [shareTree] at h
    obtain ⟨⟨k, seen', ch⟩, hk, h⟩ := Outcome.bind_eq_ok.mp h
    obtain ⟨rfl, rfl⟩ := silent_foldlM (fun c _ s t hst => unreported_or (fun g hg => ih hg) hst) h rfl
    exact eq_of_shareBlock hk

theorem eq_of_shareCommon (h : f.shareCommon = .ok (g, false)) : f = g := by
  obtain ⟨dom, -, h⟩ := Outcome.bind_eq_ok.mp h
  obtain ⟨entry, -, h⟩ := Outcome.bind_eq_ok.mp h
  exact eq_of_shareTree h

theorem eq_of_promote (h : f.promote = .ok (g, false)) : f = g := by
  obtain ⟨⟨k, ch⟩, hk, h⟩ := Outcome.bind_eq_ok.mp h
  suffices Silent (k, ch) (g, false) by
    obtain ⟨rfl, rfl⟩ := this rfl
    exact eq_of_removeUnreachable hk
  obtain ⟨entry, -, h⟩ := Outcome.bind_eq_ok.mp h
  simp only at h
  split at h
  · exact Except.ok.inj h ▸ silent_self _
  obtain ⟨dom, -, h⟩ := Outcome.bind_eq_ok.mp h
  refine silent_foldlM (fun slot _ s t hst => ?_) h
  obtain ⟨type, -, hst⟩ := Outcome.bind_eq_ok.mp hst
  split at hst
  · exact Except.ok.inj hst ▸ silent_self _
  · obtain ⟨m, -, hst⟩ := Outcome.bind_eq_ok.mp hst
    exact Except.ok.inj hst ▸ silent_true _ _

theorem silent_substituteAt {r : Facts} {s t : Func × Bool}
    (h : substituteAt r b s v = .ok t) : Silent s t := by
  rw [substituteAt] at h
  split at h
  · split at h
    · exact Except.ok.inj h ▸ silent_self _
    · obtain ⟨m, -, h⟩ := Outcome.bind_eq_ok.mp h
      exact Except.ok.inj h ▸ silent_true _ _
  · exact Except.ok.inj h ▸ silent_self _

theorem silent_substituteIn {r : Facts} {s t : Func × Bool}
    (h : substituteIn r s b = .ok t) : Silent s t := by
  rw [substituteIn] at h
  split at h
  · exact Except.ok.inj h ▸ silent_self _
  · refine unreported_or (fun g hg => ?_) h
    rw [substituteBlock_eq] at hg
    exact (silent_foldlM (fun v _ s t hst => silent_substituteAt hst) hg rfl).2

theorem silent_settleAt {folds : List (BlockId × Nat)} {s t : Func × Bool}
    (h : settleAt folds s b = .ok t) : Silent s t := by
  rw [settleAt] at h
  split at h
  · obtain ⟨m, -, h⟩ := Outcome.bind_eq_ok.mp h
    exact Except.ok.inj h ▸ silent_true _ _
  · exact Except.ok.inj h ▸ silent_self _

theorem eq_of_propagateConstants (h : f.propagateConstants = .ok (g, false)) : f = g := by
  rw [propagateConstants_eq] at h
  obtain ⟨r, -, h⟩ := Outcome.bind_eq_ok.mp h
  obtain ⟨folds, -, h⟩ := Outcome.bind_eq_ok.mp h
  obtain ⟨⟨k, ch⟩, hk, h⟩ := Outcome.bind_eq_ok.mp h
  obtain ⟨⟨m, ch'⟩, hm, h⟩ := Outcome.bind_eq_ok.mp h
  obtain ⟨rfl, hmg⟩ := unreported_or (R := Eq) (fun g hg => eq_of_removeUnreachable hg) h rfl
  obtain ⟨rfl, hkm⟩ := silent_foldlM (fun b _ s t hst => silent_settleAt hst) hm rfl
  obtain ⟨-, hfk⟩ := silent_foldlM (fun b _ s t hst => silent_substituteIn hst) hk rfl
  exact hfk.trans (hkm.trans hmg)

theorem eq_of_foldBranches (h : f.foldBranches = .ok (g, false)) : f = g := by
  rw [foldBranches_eq] at h
  refine (silent_foldlM (fun b _ s t hst => ?_) h rfl).2
  simp only [foldBranchAt] at hst
  split at hst
  · exact Except.ok.inj hst ▸ silent_self _
  obtain ⟨cond, -, hst⟩ := Outcome.bind_eq_ok.mp hst
  split at hst
  · obtain ⟨m, -, hst⟩ := Outcome.bind_eq_ok.mp hst
    exact Except.ok.inj hst ▸ silent_true _ _
  obtain ⟨yes, -, hst⟩ := Outcome.bind_eq_ok.mp hst
  obtain ⟨no, -, hst⟩ := Outcome.bind_eq_ok.mp hst
  split at hst
  · obtain ⟨same, -, hst⟩ := Outcome.bind_eq_ok.mp hst
    split at hst
    · obtain ⟨m, -, hst⟩ := Outcome.bind_eq_ok.mp hst
      exact Except.ok.inj hst ▸ silent_true _ _
    · exact Except.ok.inj hst ▸ silent_self _
  · exact Except.ok.inj hst ▸ silent_self _

theorem eq_of_simplifyPhis (h : f.simplifyPhis = (g, false)) : f = g := by
  rw [simplifyPhis_eq] at h
  have hrun : Silent (f, false) (g, false) := by
    rw [← h]
    refine silent_foldl fun b _ s => silent_foldl fun v _ s => ?_
    simp only [dropPhiAt]
    split
    · exact silent_self _
    · split
      · exact silent_self _
      · exact silent_true _ _
  exact (hrun rfl).2

theorem eq_of_mergeBlocks (h : f.mergeBlocks = .ok (g, false)) : f = g := by
  rw [mergeBlocks_eq] at h
  refine (silent_foldlM (fun c _ s t hst => ?_) h rfl).2
  obtain ⟨entry, -, hst⟩ := Outcome.bind_eq_ok.mp hst
  split at hst
  · exact Except.ok.inj hst ▸ silent_self _
  split at hst
  · split at hst
    · exact Except.ok.inj hst ▸ silent_self _
    · obtain ⟨m, -, hst⟩ := Outcome.bind_eq_ok.mp hst
      exact Except.ok.inj hst ▸ silent_true _ _
  · exact Except.ok.inj hst ▸ silent_self _

theorem eq_of_controlFlowRound (h : f.controlFlowRound = .ok (g, false)) : f = g := by
  obtain ⟨⟨k₁, ch₁⟩, h₁, h⟩ := Outcome.bind_eq_ok.mp h
  obtain ⟨⟨k₂, ch₂⟩, h₂, h⟩ := Outcome.bind_eq_ok.mp h
  obtain ⟨⟨k₄, ch₄⟩, h₄, h⟩ := Outcome.bind_eq_ok.mp h
  obtain ⟨rfl, hch⟩ := Prod.mk.inj (Except.ok.inj h)
  simp only [Bool.or_eq_false_iff] at hch
  obtain ⟨⟨⟨rfl, rfl⟩, h₃⟩, rfl⟩ := hch
  calc f = k₁ := eq_of_foldBranches h₁
    _ = k₂ := eq_of_removeUnreachable h₂
    _ = k₂.simplifyPhis.1 := eq_of_simplifyPhis (Prod.ext rfl h₃)
    _ = k₄ := eq_of_mergeBlocks h₄

theorem silent_controlFlowRounds {fuel : Nat} {t : Func × Bool}
    (h : controlFlowRounds fuel f ch = .ok t) : Silent (f, ch) t := by
  induction fuel generalizing f ch with
  | zero => exact Except.ok.inj h ▸ silent_self _
  | succ fuel ih =>
    rw [controlFlowRounds] at h
    obtain ⟨⟨k, more⟩, hk, h⟩ := Outcome.bind_eq_ok.mp h
    cases more with
    | true =>
      intro ht
      cases (ih h ht).1
    | false =>
      obtain rfl := Except.ok.inj h
      rw [eq_of_controlFlowRound hk]
      exact silent_self _

end Func

/-! ## All of them -/

namespace Pass

open Func

/-- An optimisation that reports no change has at most moved constants to the right of commutative
operations, and only combining and reassociating have done that. -/
theorem unreported_run_exchanges_only (p : Pass) {f g : Func} (h : p.run f = .ok (g, false)) :
    Exchanged f g ∧ (p ≠ .instcombine → p ≠ .reassociate → g = f) := by
  have hsame : f = g → Exchanged f g ∧ (p ≠ .instcombine → p ≠ .reassociate → g = f) :=
    fun heq => ⟨heq ▸ .refl f, fun _ _ => heq.symm⟩
  cases p with
  | instcombine => exact ⟨exchanged_of_combine h, fun hp => absurd rfl hp⟩
  | reassociate => exact ⟨exchanged_of_reassociate h, fun _ hp => absurd rfl hp⟩
  | simplifycfg => exact hsame (silent_controlFlowRounds h rfl).2
  | licm => exact hsame (eq_of_hoist h)
  | dce => exact hsame (eq_of_removeDead h)
  | cse => exact hsame (eq_of_shareCommon h)
  | sroa => exact hsame (eq_of_promote h)
  | sccp => exact hsame (eq_of_propagateConstants h)

/-- Five more than the argument, with the five first. -/
def fiveMore : Func where
  name := "fiveMore"
  ret := .i32
  params := [.i32]
  values := #[
    { op := .param, type := .i32, block := some 0 },
    { op := .const, type := .i32, block := some 0, aux := 5 },
    { op := .add, type := .i32, block := some 0, args := [.value 1, .value 0] }]
  blocks := #[{ values := [0, 1, 2], kind := .ret, control := .value 2 }]
  layout := [0]
  paramValues := [0]

/-- Combining puts the five second and reports nothing. -/
theorem unreported_run_exchanges_fiveMore : fiveMore.Consistent ∧
    ∃ g, Pass.instcombine.run fiveMore = .ok (g, false) ∧ Exchanged fiveMore g ∧
      (fiveMore.value 2).args = [.value 1, .value 0] ∧ (g.value 2).args = [.value 0, .value 1] :=
  ⟨by decide +kernel, _, rfl, (unreported_run_exchanges_only .instcombine rfl).1, rfl, rfl⟩

end Pass

end SsaJit
