import SsaJit.Proofs.Ssa.Form
import SsaJit.Proofs.Ssa.Verify

/-! What the verifier's silence means along paths. A definition that dominates a use is passed on every
way to it, so whatever way control takes through a function without findings, each operand was computed
before it is read: the operands of a value earlier in its block or in a block before, what a block's end
reads by the time control is there, and the argument of a phi before control leaves the predecessor that
it belongs to. Here the entry may have predecessors and phis. -/

namespace SsaJit.Func

variable {f : Func} {t : DomTree} {b c d : BlockId} {u v : ValueId} {o : Operand} {i j n pos : Nat}
  {p : List BlockId}

/-! ## Paths -/

/-- The blocks `p` in the order in which control can go through them from the entry on. -/
structure Path (f : Func) (p : List BlockId) : Prop where
  start : p.head? = some f.start
  edge : ∀ i b c, p[i]? = some b → p[i + 1]? = some c → c ∈ f.next b

/-- The value is listed in one of the blocks. -/
def DefinedIn (f : Func) (p : List BlockId) (v : ValueId) : Prop := ∃ d ∈ p, v ∈ (f.block d).values

/-- What a path has passed when it comes to a block makes a trail to that block. -/
theorem Path.trail (h : f.Path p) (hb : p[n]? = some b) :
    Trail f.next f.start b (b :: (p.take n).reverse) := by
  induction n generalizing b with
  | zero =>
    have hstart := h.start
    rw [List.head?_eq_getElem?, hb] at hstart
    obtain rfl := Option.some.inj hstart
    exact .start
  | succ n ih =>
    obtain ⟨a, ha⟩ : ∃ a, p[n]? = some a := by
      have := (List.getElem?_eq_some_iff.mp hb).1
      exact ⟨p[n], List.getElem?_eq_getElem (by omega)⟩
    rw [List.take_add_one, ha, List.reverse_append]
    exact (ih ha).step (h.edge n a b ha hb)

/-- A dominator of a block on a path has been passed when control comes to the block, or is the block. -/
theorem Path.passed (h : f.Path p) (hb : p[n]? = some b) (hd : f.Dominates d b) :
    d = b ∨ d ∈ p.take n := by
  simpa using hd _ (h.trail hb)

theorem Path.reached (h : f.Path p) (hb : p[n]? = some b) : f.Reached b := ⟨_, h.trail hb⟩

/-! ## Where values stand -/

/-- A block records a place where it lists the value, or leaves what was recorded before. -/
theorem recorded_place {a : Array Nat} (hsize : a.size = f.numValues) (hlt : v < f.numValues)
    (b : BlockId) :
    (f.recorded a b).getD v 0 = a.getD v 0 ∧ v ∉ (f.block b).values ∨
      (f.block b).values[(f.recorded a b).getD v 0]? = some v := by
  suffices ∀ (l : List ValueId) (k : Nat) (a : Array Nat), a.size = f.numValues →
      ((l.zipIdx k).foldl (fun (a : Array Nat) (x : ValueId × Nat) =>
        a.setIfInBounds x.1 x.2) a).getD v 0 = a.getD v 0 ∧ v ∉ l ∨
      ∃ i, ((l.zipIdx k).foldl (fun (a : Array Nat) (x : ValueId × Nat) =>
        a.setIfInBounds x.1 x.2) a).getD v 0 = k + i ∧ l[i]? = some v by
    refine (this (f.block b).values 0 a hsize).imp id fun ⟨i, hi, hv⟩ => ?_
    rw [recorded, hi, Nat.zero_add]
    exact hv
  intro l
  induction l with
  | nil => exact fun _ _ _ => .inl ⟨rfl, by simp⟩
  | cons x l ih =>
    intro k a hsize
    rw [List.zipIdx_cons, List.foldl_cons]
    rcases ih (k + 1) (a.setIfInBounds x k) (by simpa using hsize) with ⟨h, hnot⟩ | ⟨i, h, hi⟩
    · by_cases hx : x = v
      · subst hx
        refine .inr ⟨0, ?_, by simp⟩
        rw [h]
        simp [hsize, hlt]
      · refine .inl ⟨?_, by simp [hnot, Ne.symm hx]⟩
        rw [h]
        simp [Array.getElem?_setIfInBounds_ne hx]
    · exact .inr ⟨i + 1, by rw [h]; omega, by simpa using hi⟩

/-- The place recorded for a value is one where it stands, however often it is listed. -/
theorem getElem?_positions (hl : ∀ v b, (f.value v).block = some b ↔
    b ∈ f.layout ∧ v ∈ (f.block b).values) (hv : (f.value v).block = some b) :
    (f.block b).values[f.positions.getD v 0]? = some v := by
  have hlt : v < f.numValues := by
    refine Nat.lt_of_not_le fun hge => ?_
    rw [value_of_le hge] at hv
    cases hv
  obtain ⟨hb, hvb⟩ := (hl v b).mp hv
  refine positions_induct (P := fun n => (f.block b).values[n]? = some v) hb (fun a hsize => ?_)
    fun c hc a hsize hP => ?_
  · exact (recorded_place hsize hlt b).resolve_left fun h => h.2 hvb
  · rcases recorded_place hsize hlt c with ⟨h, -⟩ | h
    · rw [h]
      exact hP
    · -- only `b` lists the value
      have hcv := (hl v c).mpr ⟨hc, List.mem_of_getElem? h⟩
      obtain rfl : b = c := Option.some.inj (hv.symm.trans hcv)
      exact h

/-! ## Operands without findings -/

/-- An operand without findings in a block that control comes to. -/
theorem use_value (ht : t.Of f f.start) (hb : f.Reached b)
    (h : (f.checker t).use b pos o = .ok []) :
    ∃ v d, o = .value v ∧ (f.value v).block = some d ∧
      (d = b ∧ f.positions.getD v 0 < pos ∨ d ≠ b ∧ f.Dominates d b) := by
  cases o with
  | missing => simp [Checker.use] at h
  | foreign k => simp [Checker.use, number] at h
  | value v =>
    cases hd : (f.value v).block with
    | none => simp [Checker.use, number, hd] at h
    | some d =>
      refine ⟨v, d, rfl, hd, ?_⟩
      have hr : t.isReachable b = true := (ht.reachable b).mpr hb
      by_cases hown : (f.block d).isForeign = true
      · simp [Checker.use, number, hd, hown] at h
      by_cases hdb : d = b
      · subst hdb
        exact .inl ⟨rfl, by simpa [Checker.use, number, hd, hown, hr, orReport_nil] using h⟩
      · simp only [Checker.use, number, hd, hown, hr, hdb] at h
        simp only [Outcome.ok_bind, reduceCtorEq, if_false, Bool.false_eq_true, Bool.not_true,
          Outcome.pure_eq_ok, Except.ok.injEq, orReport_nil] at h
        exact .inr ⟨hdb, ((ht.dominates_iff).mp h).2⟩

section path

variable (hl : ∀ v b, (f.value v).block = some b ↔ b ∈ f.layout ∧ v ∈ (f.block b).values)
  (ht : t.Of f f.start) (hp : f.Path p) (hb : p[n]? = some b)

include hl ht hp hb

/-- An operand without findings was computed before: earlier in the block or in a block passed before. -/
theorem Path.defined_before (h : (f.checker t).use b pos o = .ok []) :
    ∃ v, o = .value v ∧ (v ∈ (f.block b).values.take pos ∨ f.DefinedIn (p.take n) v) := by
  obtain ⟨v, d, rfl, hd, hdef⟩ := use_value ht (hp.reached hb) h
  refine ⟨v, rfl, ?_⟩
  rcases hdef with ⟨rfl, hlt⟩ | ⟨hne, hdom⟩
  · refine .inl (List.mem_of_getElem? (i := f.positions.getD v 0) ?_)
    rw [List.getElem?_take_of_lt hlt]
    exact getElem?_positions hl hd
  · have hpassed := (hp.passed hb hdom).resolve_left hne
    exact .inr ⟨d, hpassed, ((hl v d).mp hd).2⟩

/-- An operand without findings at the end of a block was computed by then. -/
theorem Path.defined_by_end (h : (f.checker t).use b (f.block b).values.length o = .ok []) :
    ∃ v, o = .value v ∧ f.DefinedIn (p.take (n + 1)) v := by
  obtain ⟨v, rfl, hdef⟩ := hp.defined_before hl ht hb h
  refine ⟨v, rfl, ?_⟩
  rw [List.take_add_one, hb]
  rcases hdef with hv | ⟨d, hd, hv⟩
  · exact ⟨b, by simp, List.mem_of_mem_take hv⟩
  · exact ⟨d, by simp [hd], hv⟩

end path

/-- In a function without findings everything is computed before it is read, whatever way control
takes. -/
theorem definitions_precede_uses (hw : f.Wired)
    (hl : ∀ v b, (f.value v).block = some b ↔ b ∈ f.layout ∧ v ∈ (f.block b).values)
    (hverify : f.verify = .ok []) (hp : f.Path p) (hb : p[n]? = some b) :
    (∀ i u, (f.block b).values[i]? = some u → (f.value u).op ≠ .phi → ∀ o ∈ (f.value u).args,
      ∃ v, o = .value v ∧ (v ∈ (f.block b).values.take i ∨ f.DefinedIn (p.take n) v)) ∧
    ((f.block b).kind = .branch ∨ (f.block b).kind = .ret ∧ (f.block b).control ≠ .missing →
      ∃ v, (f.block b).control = .value v ∧ f.DefinedIn (p.take (n + 1)) v) ∧
    ∀ (c : BlockId) (j : Nat), p[n + 1]? = some c → (f.block c).preds[j]? = some b → ∀ u ∈ (f.block c).values,
      (f.value u).op = .phi →
        ∃ v, (f.value u).args[j]? = some (.value v) ∧ f.DefinedIn (p.take (n + 1)) v := by
  obtain ⟨t, ht, hall⟩ := verify_nil.mp hverify
  obtain ⟨t', ht', hof⟩ := hw.domTree
  obtain rfl : t = t' := Except.ok.inj (ht.symm.trans ht')
  have hcheck : ∀ {x m}, p[m]? = some x → (f.checker t).block x = .ok [] :=
    fun hx => hall _ (hw.reach_mem (hp.reached hx))
  obtain ⟨-, -, hend, hvals⟩ := block_nil.mp (hcheck hb)
  refine ⟨fun i u hu hphi o ho => ?_, fun hk => ?_, fun c j hc hj u hu hphi => ?_⟩
  · exact hp.defined_before hl hof hb ((value_uses (values_nil.mp hvals i u hu) hphi).1 o ho)
  · exact hp.defined_by_end hl hof hb (terminator_use hend hk)
  · obtain ⟨i, hi⟩ := List.mem_iff_getElem?.mp hu
    obtain ⟨-, -, -, hvals'⟩ := block_nil.mp (hcheck hc)
    obtain ⟨hlen, huses⟩ := phi_uses (value_phi (values_nil.mp hvals' i u hi) hphi).2
    obtain ⟨hjlt, -⟩ := List.getElem?_eq_some_iff.mp hj
    have hlen : (f.value u).args.length = (f.block c).preds.length := hlen
    have hget : (f.value u).args[j]? = some (f.value u).args[j] := List.getElem?_eq_getElem (by omega)
    have hmem : ((f.value u).args[j], b) ∈ (f.value u).args.zip (f.block c).preds :=
      List.mem_of_getElem? (i := j) (List.getElem?_zip_eq_some.mpr ⟨hget, hj⟩)
    obtain ⟨v, hv, hdef⟩ := hp.defined_by_end hl hof hb (huses _ hmem).1
    exact ⟨v, hget.trans (congrArg some hv), hdef⟩

/-- A loop that adds to a phi until the sum is zero. -/
def summing : Func where
  name := "sum"
  ret := .i32
  params := [.i32]
  values := #[
    { op := .param, type := .i32, block := some 0 },
    { op := .phi, type := .i32, block := some 1, args := [.value 0, .value 2] },
    { op := .add, type := .i32, block := some 1, args := [.value 1, .value 0] },
    { op := .icmp, type := .i1, block := some 1, args := [.value 2, .value 0] }]
  blocks := #[
    { values := [0], kind := .jump, succs := [1] },
    { values := [1, 2, 3], kind := .branch, control := .value 3, succs := [1, 2], preds := [0, 1] },
    { kind := .ret, control := .value 2, preds := [1] }]
  layout := [0, 1, 2]
  paramValues := [0]

/-- On the second turn the phi takes the sum of the first. -/
theorem definitions_precede_uses_summing : summing.verify = .ok [] ∧
    summing.Path [0, 1, 1, 2] ∧ ∃ v, (summing.value 1).args[1]? = some (.value v) ∧
      summing.DefinedIn [0, 1] v := by
  have hw : summing.Wired := ⟨by decide, by decide, by decide, by decide⟩
  have hl := listed_iff.mp (show summing.Listed by decide)
  have hv : summing.verify = .ok [] := isVerified_iff.mp (by decide)
  have hp : summing.Path [0, 1, 1, 2] := by
    refine ⟨rfl, fun i b c hb hc => ?_⟩
    match i, hb, hc with
    | 0, hb, hc => cases hb; cases hc; decide
    | 1, hb, hc => cases hb; cases hc; decide
    | 2, hb, hc => cases hb; cases hc; decide
  exact ⟨hv, hp, (definitions_precede_uses (n := 1) (b := 1) hw hl hv hp rfl).2.2 1 1 rfl rfl 1
    (by decide) rfl⟩

end SsaJit.Func
