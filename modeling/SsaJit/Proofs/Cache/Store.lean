import Mathlib.Algebra.Order.Ring.Nat
import Mathlib.Logic.Function.Basic
import SsaJit.Cache.Basic
import SsaJit.Proofs.Outcome

/-! References to the routines of a store. A store is described by the one it started as: which
routines were ever bound and how many references each has now fix everything about it, down to the
mappings that are still there and how often each was released. Taking a reference and giving one back
are steps of that description, as long as the counter has room, and a reference that is there can always
be given back. -/

namespace SsaJit.Cache

open Native Function

section Exec

variable {α β : Type}

/-- What an operation answers in a world, and the world it leaves. -/
def exec (m : CacheM α) (w : World) : Outcome α × World := m.run.run w

@[simp] theorem exec_pure (a : α) (w : World) : exec (pure a) w = (.ok a, w) := rfl

@[simp] theorem exec_get (w : World) : exec get w = (.ok w, w) := rfl

@[simp] theorem exec_modify (f : World → World) (w : World) : exec (modify f) w = (.ok (), f w) := rfl

@[simp] theorem exec_liftOutcome (r : Outcome α) (w : World) :
    exec (CacheM.liftOutcome r) w = (r, w) := rfl

theorem exec_bind (m : CacheM α) (f : α → CacheM β) (w : World) :
    exec (m >>= f) w = match exec m w with
      | (.ok a, w') => exec (f a) w'
      | (.error e, w') => (.error e, w') := by
  simp only [exec, ExceptT.run_bind, StateT.run_bind]
  cases h : m.run.run w with
  | mk r w' => cases r <;> rfl

/-- An operation that answers goes on with what it answered. -/
theorem exec_bind_ok {m : CacheM α} {f : α → CacheM β} {w w' : World} {a : α}
    (h : exec m w = (.ok a, w')) : exec (m >>= f) w = exec (f a) w' := by
  rw [exec_bind, h]

/-- An operation that faults ends there. -/
theorem exec_bind_error {m : CacheM α} {f : α → CacheM β} {w w' : World} {e : Fault}
    (h : exec m w = (.error e, w')) : exec (m >>= f) w = (.error e, w') := by
  rw [exec_bind, h]

@[simp] theorem exec_modifyCache (f : Cache → Cache) (w : World) :
    exec (CacheM.modifyCache f) w = (.ok (), { w with cache := f w.cache }) := rfl

@[simp] theorem exec_lookup (k : Key) (w : World) :
    exec (CacheM.lookup k) w = (.ok (w.cache.entries.lookup k), w) := rfl

theorem exec_bind_need (a : α) (f : α → CacheM β) (w : World) :
    exec (CacheM.liftOutcome (.need (some a)) >>= f) w = exec (f a) w := rfl

end Exec

/-- A routine after some of its life: whether it was ever bound, and its references. It is gone when
it was bound and has none. -/
def aged (r : Routine) (bound : Bool) (n : Nat) : Routine :=
  { r with
    counter := .ofNat n
    frozen := bound
    freed := bound && n == 0
    buffer := if bound && n == 0 && r.dynamic then none else r.buffer }

theorem refs_aged (r : Routine) (bound : Bool) {n : Nat} (few : n < 2 ^ 31) :
    (aged r bound n).refs = n := Int32.toInt_ofNat_of_lt few

/-- One reference more, to a routine that is not gone. -/
theorem bind_aged (r : Routine) {bound : Bool} {n : Nat} (alive : (bound && n == 0) = false) :
    (aged r bound n).bind = .ok (aged r true (n + 1)) := by
  have counter : Int32.ofNat n + 1 = .ofNat (n + 1) := (Int32.ofNat_add n 1).symm
  rw [Routine.bind, if_neg (by simp [aged, alive]), Routine.counted]
  simp only [aged, alive, counter]
  rfl

/-- One reference fewer: the last one takes the mapping of a dynamic routine along. -/
theorem unbind_aged (r : Routine) (p : Pages) {n : Nat} (pos : 0 < n) (few : n < 2 ^ 31) :
    (aged r true n).unbind p = (.ok (n == 1), aged r true (n - 1),
      if n = 1 ∧ r.dynamic = true then p.unmap r.mapping else p) := by
  obtain ⟨n, rfl⟩ := Nat.exists_eq_succ_of_ne_zero (Nat.ne_of_gt pos)
  have counter : Int32.ofNat (n + 1) - 1 = .ofNat n := by
    rw [Int32.ofNat_add]
    exact Int32.add_sub_cancel _ _
  have uncounted : (aged r true (n + 1)).uncounted = { aged r true (n + 1) with counter := .ofNat n } :=
    congrArg (fun c => { aged r true (n + 1) with counter := c }) counter
  have refs : (aged r true (n + 1)).uncounted.refs = n := by
    rw [uncounted]
    exact Int32.toInt_ofNat_of_lt (Nat.lt_of_succ_lt few)
  have some_left : ¬ (n : Int) < 0 := by omega
  rw [Nat.succ_eq_add_one, Routine.unbind, refs, if_neg some_left, uncounted]
  cases n with
  | zero =>
    rw [if_neg (by decide)]
    cases dyn : r.dynamic <;> simp [Routine.release, aged, dyn]
  | succ n =>
    rw [if_pos (by omega)]
    simp [aged]

/-- A store whose routines were never bound, each in a mapping of its own. -/
structure Store.Fresh (s : Store) : Prop where
  unbound : ∀ r ∈ s.routines.toList, r.counter = 0 ∧ r.frozen = false ∧ r.freed = false
  mapped : ∀ r ∈ s.routines.toList, r.dynamic = true →
    r.mapping ∈ s.pages.live ∧ r.mapping ∉ s.pages.released
  apart : s.routines.toList.Pairwise fun r r' =>
    r.dynamic = true → r'.dynamic = true → r.mapping ≠ r'.mapping
  live_nodup : s.pages.live.Nodup

/-- Two routines in mappings of their own. -/
def twoRoutines : Store where
  routines := #[{ buffer := some #[0xC3], mapping := 0, dynamic := true },
    { buffer := some #[0x90, 0xC3], mapping := 1, dynamic := true }]
  pages := { mapped := 2, live := [1, 0] }

theorem twoRoutines_fresh : twoRoutines.Fresh :=
  ⟨by decide, by decide, by decide, by decide⟩

theorem Store.mem_routines {s : Store} {i : Nat} {r : Routine} (hr : s.routines[i]? = some r) :
    r ∈ s.routines.toList := List.mem_of_getElem? (Array.getElem?_toList.trans hr)

theorem Store.Fresh.mapping_inj {s : Store} (fresh : s.Fresh) {i j : Nat} {r r' : Routine}
    (hi : s.routines[i]? = some r) (hj : s.routines[j]? = some r') (dyn : r.dynamic = true)
    (dyn' : r'.dynamic = true) (same : r.mapping = r'.mapping) : i = j := by
  rw [← Array.getElem?_toList] at hi hj
  obtain ⟨lt_i, rfl⟩ := List.getElem?_eq_some_iff.mp hi
  obtain ⟨lt_j, rfl⟩ := List.getElem?_eq_some_iff.mp hj
  have apart := List.pairwise_iff_getElem.mp fresh.apart
  rcases Nat.lt_trichotomy i j with lt | eq | gt
  · exact absurd same (apart i j lt_i lt_j lt dyn dyn')
  · exact eq
  · exact absurd same.symm (apart j i lt_j lt_i gt dyn' dyn)

/-- A store is one that started as `s₀`, with the routines that were ever bound and the references
that each routine has. -/
structure Counted (s₀ s : Store) (bound : Nat → Bool) (n : Nat → Nat) : Prop where
  fresh : s₀.Fresh
  few : ∀ i, n i < 2 ^ 31
  routine : ∀ i, s.routines[i]? = s₀.routines[i]?.map fun r => aged r (bound i) (n i)
  taken : ∀ i, 0 < n i → bound i = true
  known : ∀ i, bound i = true → i < s₀.routines.size
  live_nodup : s.pages.live.Nodup
  live : ∀ m, m ∈ s.pages.live ↔ m ∈ s₀.pages.live ∧ ∀ i r, s₀.routines[i]? = some r →
    r.dynamic = true → r.mapping = m → bound i = true → 0 < n i
  released : ∀ i r, s₀.routines[i]? = some r → r.dynamic = true →
    s.pages.released.count r.mapping = if bound i && n i == 0 then 1 else 0

theorem Store.Fresh.counted {s : Store} (fresh : s.Fresh) :
    Counted s s (fun _ => false) (fun _ => 0) where
  fresh := fresh
  few _ := by decide
  routine i := by
    cases h : s.routines[i]? with
    | none => rfl
    | some r =>
      obtain ⟨counter, frozen, freed⟩ := fresh.unbound r (Store.mem_routines h)
      obtain ⟨buffer, mapping, entry, size, dynamic, sealed, executable, _, _, _⟩ := r
      simp only at counter frozen freed
      simp [aged, counter, frozen, freed]
  taken i h := absurd h (Nat.lt_irrefl 0)
  known i h := by cases h
  live_nodup := fresh.live_nodup
  live m := by simp
  released i r hr dyn := List.count_eq_zero.mpr (fresh.mapped r (Store.mem_routines hr) dyn).2

namespace Counted

variable {s₀ : Store} {bound : Nat → Bool} {n : Nat → Nat} {w : World} {i : Nat}

/-- The routine of a number, as its history made it. -/
theorem exec_routine (h : Counted s₀ w.store bound n) {r : Routine}
    (hr : s₀.routines[i]? = some r) :
    exec (CacheM.routine i) w = (.ok (aged r (bound i) (n i)), w) := by
  have hi := h.routine i
  rw [hr, Option.map_some] at hi
  simp only [CacheM.routine, exec_bind, exec_get, hi, exec_pure]

theorem size_eq {s : Store} (h : Counted s₀ s bound n) :
    s.routines.size = s₀.routines.size := by
  have le : ∀ {a b : Array Routine}, (∀ i, a[i]? = none → b[i]? = none) → b.size ≤ a.size :=
    fun hab => Array.getElem?_eq_none_iff.mp (hab _ (Array.getElem?_eq_none_iff.mpr (Nat.le_refl _)))
  refine Nat.le_antisymm (le fun i hi => ?_) (le fun i hi => ?_)
  · rw [h.routine i, hi, Option.map_none]
  · rw [h.routine i] at hi
    exact Option.map_eq_none_iff.mp hi

/-- Replacing the routine of a number by one of another age. -/
theorem routine_set {s : Store} (h : Counted s₀ s bound n) {r : Routine}
    (hr : s₀.routines[i]? = some r) (b : Bool) (k j : Nat) :
    (s.routines.setIfInBounds i (aged r b k))[j]? =
      s₀.routines[j]?.map fun r => aged r (update bound i b j) (update n i k j) := by
  have hi : i < s.routines.size := h.size_eq ▸ (Array.getElem?_eq_some_iff.mp hr).1
  by_cases hji : j = i
  · subst hji
    rw [Array.getElem?_setIfInBounds_self_of_lt hi, hr]
    simp
  · rw [Array.getElem?_setIfInBounds_ne (Ne.symm hji), h.routine j]
    simp [update_of_ne hji]

/-- A reference is taken to a routine that is not gone. -/
theorem bind (h : Counted s₀ w.store bound n) (hi : i < s₀.routines.size)
    (here : bound i = true → 0 < n i) (room : n i + 1 < 2 ^ 31) :
    ∃ s', exec (CacheM.bind i) w = (.ok (), { w with store := s' }) ∧
      Counted s₀ s' (update bound i true) (update n i (n i + 1)) := by
  obtain ⟨r, hr⟩ : ∃ r, s₀.routines[i]? = some r := ⟨_, Array.getElem?_eq_getElem hi⟩
  have alive : (bound i && n i == 0) = false := by
    cases hb : bound i with
    | false => rfl
    | true => simpa using Nat.ne_of_gt (here hb)
  refine ⟨{ w.store with
    routines := w.store.routines.setIfInBounds i (aged r true (n i + 1)) }, ?_, ?_⟩
  · rw [CacheM.bind, exec_bind_ok (h.exec_routine hr), exec_bind_ok (by rw [bind_aged r alive]; rfl)]
    rfl
  · refine ⟨h.fresh, fun j => ?_, h.routine_set hr true (n i + 1), fun j hj => ?_, fun j hj => ?_,
      h.live_nodup, fun m => ?_, fun j r' hr' dyn => ?_⟩
    · by_cases hji : j = i
      · rwa [hji, update_self]
      · rw [update_of_ne hji]
        exact h.few j
    · by_cases hji : j = i
      · rw [hji, update_self]
      · rw [update_of_ne hji] at hj ⊢
        exact h.taken j hj
    · by_cases hji : j = i
      · exact hji ▸ hi
      · exact h.known j (by rwa [update_of_ne hji] at hj)
    · rw [h.live m]
      refine and_congr_right fun _ => forall₂_congr fun j r' => ?_
      by_cases hji : j = i
      · subst hji
        have pos := here
        simp only [update_self]
        exact ⟨fun _ _ _ _ _ => Nat.succ_pos _, fun _ _ _ _ hb => pos hb⟩
      · rw [update_of_ne hji, update_of_ne hji]
    · rw [h.released j r' hr' dyn]
      by_cases hji : j = i
      · subst hji
        rw [alive, update_self, update_self]
        rfl
      · rw [update_of_ne hji, update_of_ne hji]

/-- A routine that is gone, or that there never was, takes no reference. -/
theorem bind_refused (h : Counted s₀ w.store bound n)
    (gone : i < s₀.routines.size → bound i = true ∧ n i = 0) :
    ∃ e, exec (CacheM.bind i) w = (.error e, w) := by
  cases hr : s₀.routines[i]? with
  | none =>
    have hi := h.routine i
    rw [hr, Option.map_none] at hi
    have missing : exec (CacheM.routine i) w = (.error (.crash .outOfRange), w) := by
      simp only [CacheM.routine, exec_bind, exec_get, hi, exec_liftOutcome]
      rfl
    exact ⟨_, exec_bind_error missing⟩
  | some r =>
    obtain ⟨hb, hn⟩ := gone (Array.getElem?_eq_some_iff.mp hr).1
    refine ⟨.refusal .bindAfterFree, ?_⟩
    rw [CacheM.bind, exec_bind_ok (h.exec_routine hr), exec_bind_error]
    rw [exec_liftOutcome]
    simp [Routine.bind, aged, hb, hn, Outcome.refuse]

/-- The mappings that are left when a routine has one reference fewer. -/
theorem live_drop (h : Counted s₀ w.store bound n) (pos : 0 < n i) {r : Routine}
    (hr : s₀.routines[i]? = some r) (m : Nat) :
    (m ∈ w.store.pages.live ∧ (n i = 1 → r.dynamic = true → m ≠ r.mapping)) ↔
      m ∈ s₀.pages.live ∧ ∀ j r', s₀.routines[j]? = some r' → r'.dynamic = true → r'.mapping = m →
        bound j = true → 0 < update n i (n i - 1) j := by
  rw [h.live m, and_assoc]
  refine and_congr_right fun _ => ⟨fun ⟨held, other⟩ j r' hj dyn at_m hb => ?_, fun left => ⟨?_, ?_⟩⟩
  · by_cases hji : j = i
    · subst hji
      obtain rfl : r = r' := Option.some.inj (hr.symm.trans hj)
      have more : n j ≠ 1 := fun last => other last dyn at_m.symm
      rw [update_self]
      omega
    · rw [update_of_ne hji]
      exact held j r' hj dyn at_m hb
  · intro j r' hj dyn at_m hb
    by_cases hji : j = i
    · exact hji ▸ pos
    · have := left j r' hj dyn at_m hb
      rwa [update_of_ne hji] at this
  · intro last dyn at_m
    have := left i r hr dyn at_m.symm (h.taken i pos)
    rw [update_self, last] at this
    exact Nat.lt_irrefl 0 this

/-- How often the mappings have been released when a routine has one reference fewer. -/
theorem released_drop (h : Counted s₀ w.store bound n) (pos : 0 < n i) {r : Routine}
    (hr : s₀.routines[i]? = some r) {j : Nat} {r' : Routine} (hr' : s₀.routines[j]? = some r')
    (dyn : r'.dynamic = true) :
    (if n i = 1 ∧ r.dynamic = true then w.store.pages.unmap r.mapping
      else w.store.pages).released.count r'.mapping =
      if bound j && update n i (n i - 1) j == 0 then 1 else 0 := by
  have before := h.released j r' hr' dyn
  by_cases hji : j = i
  · subst hji
    obtain rfl : r = r' := Option.some.inj (hr.symm.trans hr')
    rw [h.taken j pos, beq_eq_false_iff_ne.mpr (Nat.ne_of_gt pos)] at before
    rw [h.taken j pos, update_self]
    by_cases last : n j = 1
    · rw [if_pos ⟨last, dyn⟩, Pages.unmap, List.count_cons_self, before, last]
      rfl
    · rw [if_neg fun hn => last hn.1, before, beq_eq_false_iff_ne.mpr (by omega)]
  · rw [update_of_ne hji, ← before]
    split
    · next gone =>
      refine List.count_cons_of_ne fun same => hji ?_
      exact h.fresh.mapping_inj hr' hr dyn gone.2 same.symm
    · rfl

/-- A reference that is there is given back; the last one takes the routine's mapping along. -/
theorem unbind (h : Counted s₀ w.store bound n) (pos : 0 < n i) :
    ∃ s', exec (CacheM.unbind i) w = (.ok (n i == 1), { w with store := s' }) ∧
      Counted s₀ s' bound (update n i (n i - 1)) := by
  have hb := h.taken i pos
  obtain ⟨r, hr⟩ : ∃ r, s₀.routines[i]? = some r := ⟨_, Array.getElem?_eq_getElem (h.known i hb)⟩
  have fewer := unbind_aged r w.store.pages pos (h.few i)
  refine ⟨⟨w.store.routines.setIfInBounds i (aged r true (n i - 1)),
    if n i = 1 ∧ r.dynamic = true then w.store.pages.unmap r.mapping else w.store.pages⟩, ?_, ?_⟩
  · rw [CacheM.unbind, exec_bind_ok (h.exec_routine hr), exec_bind_ok (exec_get w), hb, fewer]
    rfl
  · refine ⟨h.fresh, fun j => ?_, fun j => ?_, fun j hj => ?_, h.known, ?_, fun m => ?_,
      fun j r' hr' dyn => ?_⟩
    · by_cases hji : j = i
      · rw [hji, update_self]
        exact Nat.lt_of_le_of_lt (Nat.sub_le _ _) (h.few i)
      · rw [update_of_ne hji]
        exact h.few j
    · rw [h.routine_set hr true (n i - 1) j, ← hb, update_eq_self]
    · by_cases hji : j = i
      · exact hji ▸ hb
      · exact h.taken j (by rwa [update_of_ne hji] at hj)
    · dsimp only
      split
      · exact h.live_nodup.erase _
      · exact h.live_nodup
    · rw [← live_drop h pos hr m]
      dsimp only
      split
      · next gone => simp [Pages.unmap, h.live_nodup.mem_erase_iff, gone.1, gone.2, and_comm]
      · next kept => grind
    · exact h.released_drop pos hr hr' dyn

end Counted

end SsaJit.Cache
