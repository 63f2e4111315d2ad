import SsaJit.Native.LifeCycle
import SsaJit.Proofs.Native.Pages
import SsaJit.Proofs.Outcome

/-! What the operations of a holder do: run one assignment after another they are the changes of the
routine, and one that is accepted is one of ten steps. -/

namespace SsaJit.Native

open Outcome

variable {h h' : Holding} {b : Bool} {e : Fault}

namespace HoldingM

variable {α β : Type}

theorem run_bind (act : HoldingM α) (k : α → HoldingM β) : (act >>= k).run.run h =
    match act.run.run h with
    | (.ok a, h') => (k a).run.run h'
    | (.error e, h') => (.error e, h') := by
  rw [ExceptT.run_bind, StateT.run_bind]
  match act.run.run h with
  | (.ok a, h') => rfl
  | (.error e, h') => rfl

theorem run_get : (get : HoldingM Holding).run.run h = (.ok h, h) := rfl

theorem run_lift (r : Outcome α) : (lift r).run.run h = (r, h) := rfl

theorem run_routine : routine.run.run h = (.ok h.routine, h) := rfl

theorem run_alter (f : Routine → Routine) :
    (alter f).run.run h = (.ok (), { h with routine := f h.routine }) := rfl

theorem run_remap (f : Pages → Pages) :
    (remap f).run.run h = (.ok (), { h with pages := f h.pages }) := rfl

theorem run_mutable (operation : String) :
    (mutable operation).run.run h = (h.routine.mutable operation, h) := rfl

theorem run_release :
    release.run.run h = (.ok (), ⟨(h.routine.release h.pages).1, (h.routine.release h.pages).2⟩) := by
  unfold release Routine.release
  simp only [run_bind, run_routine]
  by_cases hf : h.routine.freed = true
  · rw [if_neg (by simp [hf]), if_pos hf]
    rfl
  · rw [if_pos (by simpa using hf), if_neg hf]
    by_cases hd : h.routine.dynamic = true
    · rw [if_pos hd, if_pos hd]
      rfl
    · rw [if_neg hd, if_neg hd]
      rfl

end HoldingM

/-! ## The changes of the routine -/

namespace Holding

open HoldingM

/-- The new holding without news, or the fault and the old holding. -/
def settle (h : Holding) : Outcome Holding → Outcome Bool × Holding
  | .ok h' => (.ok false, h')
  | .error e => (.error e, h)

theorem exec_resize (n : Int) : h.exec (.resize n) =
    h.settle ((fun x => ⟨x.1, x.2⟩) <$> h.routine.resize n h.pages) := by
  simp only [exec, Operation.act, HoldingM.resize, run_bind, run_mutable, run_routine, Routine.resize]
  cases hm : h.routine.mutable "Resize" with
  | error e => rfl
  | ok u =>
    dsimp only [ok_bind]
    by_cases hd : (!h.routine.dynamic || h.routine.isSealed) = true
    · rw [if_pos hd, if_pos hd]
      rfl
    · rw [if_neg hd, if_neg hd]
      by_cases hn : n ≤ h.routine.length
      · rw [if_neg (Int.not_lt.mpr hn), if_pos hn]
        rfl
      · rw [if_pos (Int.not_le.mp hn), if_neg hn]
        simp only [run_bind, run_get, run_lift, run_remap, run_alter]
        match h.pages.allocateCode (.ofInt n) with
        | .error (.failure e) => rfl
        | .error (.crash e) => rfl
        | .error (.refusal e) => rfl
        | .error (.raised e) => rfl
        | .ok x => rfl

theorem exec_setFunctionSize (n : Int) : h.exec (.setFunctionSize n) =
    h.settle ((fun r => { h with routine := r }) <$> h.routine.setFunctionSize n) := by
  simp only [exec, Operation.act, HoldingM.setFunctionSize, run_bind, run_mutable, run_routine,
    Routine.setFunctionSize]
  cases hm : h.routine.mutable "SetFunctionSize" with
  | error e => rfl
  | ok u =>
    dsimp only [ok_bind]
    by_cases hn : n < 0 ∨ (h.routine.length : Int) < n
    · rw [if_pos hn, if_pos hn]
      rfl
    · rw [if_neg hn, if_neg hn]
      rfl

theorem exec_sealAt (offset : Int) : h.exec (.sealAt offset) =
    h.settle ((fun r => { h with routine := r }) <$> h.routine.sealAt offset) := by
  simp only [exec, Operation.act, HoldingM.sealAt, run_bind, run_mutable, run_routine, Routine.sealAt]
  cases hm : h.routine.mutable "Seal" with
  | error e => rfl
  | ok u =>
    dsimp only [ok_bind]
    by_cases hn : offset < 0 ∨ (h.routine.length : Int) ≤ offset
    · rw [if_pos hn, if_pos hn]
      rfl
    · rw [if_neg hn, if_neg hn]
      rfl

theorem exec_markExecutable : h.exec .markExecutable =
    h.settle ((fun r => { h with routine := r }) <$> h.routine.markExecutable h.pages) := by
  simp only [exec, Operation.act, HoldingM.markExecutable, run_bind, run_mutable, run_routine,
    Routine.markExecutable]
  cases hm : h.routine.mutable "MarkExecutable" with
  | error e => rfl
  | ok u =>
    dsimp only [ok_bind]
    by_cases hs : (!h.routine.isSealed) = true
    · rw [if_pos hs, if_pos hs]
      rfl
    · rw [if_neg hs, if_neg hs]
      by_cases hx : (h.routine.dynamic && !h.routine.executable) = true
      · rw [if_pos hx, if_neg (by simpa using hx)]
        simp only [run_bind, run_get, run_lift, run_alter]
        match h.pages.protect h.routine.length with
        | .error (.failure e) => rfl
        | .error (.crash e) => rfl
        | .error (.refusal e) => rfl
        | .error (.raised e) => rfl
        | .ok x => rfl
      · rw [if_neg hx, if_pos (by simpa [or_iff_not_imp_left] using hx)]
        rfl

theorem exec_bind : h.exec .bind = h.settle ((fun r => { h with routine := r }) <$> h.routine.bind) := by
  simp only [exec, Operation.act, HoldingM.bind, run_bind, run_routine, Routine.bind]
  by_cases hf : h.routine.freed = true
  · rw [if_pos hf, if_pos hf]
    rfl
  · rw [if_neg hf, if_neg hf]
    rfl

theorem exec_unbind : h.exec .unbind =
    ((h.routine.unbind h.pages).1, ⟨(h.routine.unbind h.pages).2.1, (h.routine.unbind h.pages).2.2⟩) := by
  simp only [exec, Operation.act, HoldingM.unbind, run_bind, run_alter, run_routine, Routine.unbind]
  by_cases hn : h.routine.uncounted.refs < 0
  · rw [if_pos hn, if_pos hn]
    rfl
  · rw [if_neg hn, if_neg hn]
    by_cases hn' : 0 < h.routine.uncounted.refs
    · rw [if_pos hn', if_pos hn']
      rfl
    · rw [if_neg hn', if_neg hn', run_bind, run_release]
      rfl

theorem exec_free : h.exec .free =
    h.settle ((fun x => ⟨x.1, x.2⟩) <$> h.routine.free h.pages) := by
  simp only [exec, Operation.act, HoldingM.free, run_bind, run_routine, Routine.free]
  by_cases hf : h.routine.frozen = true
  · rw [if_pos hf, if_pos hf]
    rfl
  · rw [if_neg hf, if_neg hf, run_release]
    rfl

end Holding

/-! ## Accepted operations -/

namespace Routine

variable {r r' : Routine} {p p' : Pages} {n : Int}

/-- One reference less is one less, but at the lower end, from where the counter jumps to the upper
one. -/
theorem refs_uncounted (r : Routine) :
    r.uncounted.refs = if r.refs = -2 ^ 31 then 2 ^ 31 - 1 else r.refs - 1 := by
  have hlow := r.counter.le_toInt
  have hhigh := r.counter.toInt_lt
  have hone : (1 : Int32).toInt = 1 := rfl
  rw [refs, uncounted, Int32.toInt_sub, hone, refs]
  split
  · next hend => rw [hend]; rfl
  · exact Int.bmod_eq_of_le (by omega) (by omega)

theorem refs_eq_zero : r.refs = 0 ↔ r.counter = 0 := Int32.toInt_inj (y := 0)

theorem refs_uncounted_neg_iff : r.uncounted.refs < 0 ↔ -2 ^ 31 < r.refs ∧ r.refs ≤ 0 := by
  have hlow : -2 ^ 31 ≤ r.refs := r.counter.le_toInt
  rw [refs_uncounted]
  split <;> omega

/-- A counter at zero has nothing to give. -/
theorem refs_uncounted_neg (h : r.counter = 0) : r.uncounted.refs < 0 := by
  rw [refs_uncounted_neg_iff, refs_eq_zero.mpr h]
  decide

/-- Neither bound nor freed. -/
structure Mutable (r : Routine) : Prop where
  frozen : r.frozen = false
  freed : r.freed = false

theorem mutable_eq_ok {operation : String} {u : Unit} (h : r.mutable operation = .ok u) : r.Mutable := by
  unfold Routine.mutable at h
  cases hfrozen : r.frozen with
  | true => exact nomatch (if_pos hfrozen).symm.trans h
  | false =>
    rw [hfrozen, if_neg Bool.false_ne_true] at h
    cases hfreed : r.freed with
    | true => exact nomatch (if_pos hfreed).symm.trans h
    | false => exact ⟨hfrozen, hfreed⟩

/-- The buffer in a new mapping, with more bytes behind the ones it had. -/
def moved (r : Routine) (mapping more : Nat) : Routine :=
  { r with buffer := some (r.bytes ++ Array.replicate more 0), mapping }

theorem resize_eq_ok (h : r.resize n p = .ok (r', p')) :
    r.Mutable ∧ r.dynamic = true ∧ r.isSealed = false ∧
      (n ≤ r.length ∧ r' = r ∧ p' = p ∨
        r.length < n ∧ (∃ more, r' = r.moved p.mapped more) ∧ p' = p.withMapping.unmap r.mapping) := by
  obtain ⟨u, hm, h⟩ := bind_eq_ok.mp h
  refine ⟨mutable_eq_ok hm, ?_⟩
  by_cases hd : (!r.dynamic || r.isSealed) = true
  · exact nomatch (if_pos hd).symm.trans h
  · rw [if_neg hd] at h
    obtain ⟨hd, hs⟩ : r.dynamic = true ∧ r.isSealed = false := by simpa using hd
    refine ⟨hd, hs, ?_⟩
    by_cases hn : n ≤ r.length
    · rw [if_pos hn] at h
      obtain ⟨rfl, rfl⟩ := Prod.mk.inj (Except.ok.inj h)
      exact .inl ⟨hn, rfl, rfl⟩
    · rw [if_neg hn, Pages.allocateCode_eq] at h
      cases hr : p.refusal (p.codeRoom (.ofInt n)) with
      | some reason =>
        rw [hr] at h
        exact nomatch h
      | none =>
        rw [hr] at h
        obtain ⟨rfl, rfl⟩ := Prod.mk.inj (Except.ok.inj h)
        exact .inr ⟨Int.not_le.mp hn, ⟨_, rfl⟩, rfl⟩

theorem setFunctionSize_eq_ok (h : r.setFunctionSize n = .ok r') :
    r.Mutable ∧ 0 ≤ n ∧ n ≤ r.length ∧ r' = { r with size := n } := by
  obtain ⟨u, hm, h⟩ := bind_eq_ok.mp h
  by_cases hn : n < 0 ∨ (r.length : Int) < n
  · exact nomatch (if_pos hn).symm.trans h
  · rw [if_neg hn] at h
    exact ⟨mutable_eq_ok hm, by omega, by omega, (Except.ok.inj h).symm⟩

theorem sealAt_eq_ok (h : r.sealAt n = .ok r') :
    r.Mutable ∧ 0 ≤ n ∧ n < r.length ∧ r' = { r with entry := n, isSealed := true } := by
  obtain ⟨u, hm, h⟩ := bind_eq_ok.mp h
  by_cases hn : n < 0 ∨ (r.length : Int) ≤ n
  · exact nomatch (if_pos hn).symm.trans h
  · rw [if_neg hn] at h
    exact ⟨mutable_eq_ok hm, by omega, by omega, (Except.ok.inj h).symm⟩

theorem markExecutable_eq_ok (h : r.markExecutable p = .ok r') :
    r.Mutable ∧ r.isSealed = true ∧ (r' = r ∨ r' = { r with executable := true }) := by
  obtain ⟨u, hm, h⟩ := bind_eq_ok.mp h
  by_cases hs : (!r.isSealed) = true
  · exact nomatch (if_pos hs).symm.trans h
  · rw [if_neg hs] at h
    refine ⟨mutable_eq_ok hm, by simpa using hs, ?_⟩
    split at h
    · exact .inl (Except.ok.inj h).symm
    · split at h
      · exact nomatch h
      · exact nomatch h
      · exact .inr (Except.ok.inj h).symm

theorem bind_ok (h : r.bind = .ok r') :
    r.freed = false ∧ r' = { r.counted with frozen := true } := by
  by_cases hf : r.freed = true
  · exact nomatch (if_pos hf).symm.trans h
  · exact ⟨by simpa using hf, (Except.ok.inj ((if_neg hf).symm.trans h)).symm⟩

theorem free_eq_ok {x : Routine × Pages} (h : r.free p = .ok x) : r.frozen = false ∧ x = r.release p := by
  by_cases hf : r.frozen = true
  · exact nomatch (if_pos hf).symm.trans h
  · exact ⟨by simpa using hf, (Except.ok.inj ((if_neg hf).symm.trans h)).symm⟩

end Routine

namespace Holding

/-- One reference less. -/
def dropped (h : Holding) : Holding := { h with routine := h.routine.uncounted }

/-- The pages given back. -/
def released (h : Holding) : Holding :=
  ⟨(h.routine.release h.pages).1, (h.routine.release h.pages).2⟩

@[simp] theorem freed_counted : h.routine.counted.freed = h.routine.freed := rfl

@[simp] theorem frozen_uncounted : h.routine.uncounted.frozen = h.routine.frozen := rfl

@[simp] theorem freed_uncounted : h.routine.uncounted.freed = h.routine.freed := rfl

/-- What an accepted operation was accepted for, what it reports and what it leaves. -/
inductive Step (h : Holding) : Operation → Bool → Holding → Prop
  | roomy {n : Int} (hm : h.routine.Mutable) (hd : h.routine.dynamic = true)
      (hs : h.routine.isSealed = false) (hn : n ≤ h.routine.length) : Step h (.resize n) false h
  | grown {n : Int} (hm : h.routine.Mutable) (hd : h.routine.dynamic = true)
      (hs : h.routine.isSealed = false) (hn : h.routine.length < n) (more : Nat) :
      Step h (.resize n) false
        ⟨h.routine.moved h.pages.mapped more, h.pages.withMapping.unmap h.routine.mapping⟩
  | sized {n : Int} (hm : h.routine.Mutable) (hn : 0 ≤ n) (hn' : n ≤ h.routine.length) :
      Step h (.setFunctionSize n) false { h with routine.size := n }
  | closed {offset : Int} (hm : h.routine.Mutable) (hn : 0 ≤ offset)
      (hn' : offset < h.routine.length) :
      Step h (.sealAt offset) false { h with routine.entry := offset, routine.isSealed := true }
  | executable (hm : h.routine.Mutable) (hs : h.routine.isSealed = true) : Step h .markExecutable false h
  | marked (hm : h.routine.Mutable) (hs : h.routine.isSealed = true) :
      Step h .markExecutable false { h with routine.executable := true }
  | bound (hf : h.routine.freed = false) :
      Step h .bind false { h with routine := { h.routine.counted with frozen := true } }
  | dropped (hn : 0 < h.routine.uncounted.refs) : Step h .unbind false h.dropped
  | last (hn : h.routine.uncounted.refs = 0) : Step h .unbind true h.dropped.released
  | given (hf : h.routine.frozen = false) : Step h .free false h.released

theorem settle_eq_ok {α : Type} {f : α → Holding} {r : Outcome α}
    (hr : h.settle (f <$> r) = (.ok b, h')) : ∃ a, r = .ok a ∧ f a = h' ∧ b = false := by
  cases r with
  | error e => exact nomatch congrArg Prod.fst hr
  | ok a =>
    obtain ⟨hb, rfl⟩ := Prod.mk.inj hr
    exact ⟨a, rfl, rfl, (Except.ok.inj hb).symm⟩

/-- What is accepted is one of the steps. -/
theorem step_of_exec {o : Operation} (hok : h.exec o = (.ok b, h')) : h.Step o b h' := by
  cases o with
  | resize n =>
    rw [exec_resize] at hok
    obtain ⟨⟨r, p⟩, hres, rfl, rfl⟩ := settle_eq_ok hok
    obtain ⟨hm, hd, hs, ⟨hn, rfl, rfl⟩ | ⟨hn, ⟨more, rfl⟩, rfl⟩⟩ := Routine.resize_eq_ok hres
    · exact .roomy hm hd hs hn
    · exact .grown hm hd hs hn more
  | setFunctionSize n =>
    rw [exec_setFunctionSize] at hok
    obtain ⟨r, hres, rfl, rfl⟩ := settle_eq_ok hok
    obtain ⟨hm, hn, hn', rfl⟩ := Routine.setFunctionSize_eq_ok hres
    exact .sized hm hn hn'
  | sealAt offset =>
    rw [exec_sealAt] at hok
    obtain ⟨r, hres, rfl, rfl⟩ := settle_eq_ok hok
    obtain ⟨hm, hn, hn', rfl⟩ := Routine.sealAt_eq_ok hres
    exact .closed hm hn hn'
  | markExecutable =>
    rw [exec_markExecutable] at hok
    obtain ⟨r, hres, rfl, rfl⟩ := settle_eq_ok hok
    obtain ⟨hm, hs, rfl | rfl⟩ := Routine.markExecutable_eq_ok hres
    · exact .executable hm hs
    · exact .marked hm hs
  | bind =>
    rw [exec_bind] at hok
    obtain ⟨r, hres, rfl, rfl⟩ := settle_eq_ok hok
    obtain ⟨hf, rfl⟩ := Routine.bind_ok hres
    exact .bound hf
  | unbind =>
    rw [exec_unbind, Routine.unbind] at hok
    by_cases hn : h.routine.uncounted.refs < 0
    · rw [if_pos hn] at hok
      exact nomatch congrArg Prod.fst hok
    · rw [if_neg hn] at hok
      by_cases hn' : 0 < h.routine.uncounted.refs
      · rw [if_pos hn'] at hok
        obtain ⟨hb, rfl⟩ := Prod.mk.inj hok
        obtain rfl := Except.ok.inj hb
        exact .dropped hn'
      · rw [if_neg hn'] at hok
        obtain ⟨hb, rfl⟩ := Prod.mk.inj hok
        obtain rfl := Except.ok.inj hb
        exact .last (by omega)
  | free =>
    rw [exec_free] at hok
    obtain ⟨x, hres, rfl, rfl⟩ := settle_eq_ok hok
    obtain ⟨hf, rfl⟩ := Routine.free_eq_ok hres
    exact .given hf

end Holding

end SsaJit.Native
