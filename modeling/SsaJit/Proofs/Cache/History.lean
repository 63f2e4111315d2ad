import Mathlib.Data.Multiset.Replicate
import SsaJit.Proofs.Cache.Run

/-! Histories of a cache: its operations in any order, between them references that are taken and
given back outside of it. Beside the world goes the account of what is owed outside the cache. A
history is fair when nobody gives back a reference that they do not have; a generator's routine comes
with a reference that the cache may take over. It has room when no reference is taken that the counter of
the routine cannot count. -/

set_option linter.dupNamespace false

namespace SsaJit.Cache

open Native Function

/-- A reference that is taken or given back outside the cache. -/
inductive Own
  | bind (i : Nat)
  | unbind (i : Nat)
  deriving DecidableEq, Repr

/-- A generator of routines: what it does to references, and its answer. -/
structure Generator where
  steps : List Own := []
  made : Outcome (Option Nat)

/-- One step of a history. -/
inductive Use
  | own (o : Own)
  | query (k : Key)
  | add (k : Key) (i : Nat)
  | get (k : Key) (g : Generator)
  | clear

/-- What an operation of the cache answers. -/
inductive Answer
  | done
  | found (routine : Option Nat)
  | got (routine : Nat) (made : Bool)
  deriving DecidableEq, Repr

/-- A world, and the references to routines that are owed outside the cache. -/
structure Moment where
  world : World
  owed : Multiset Nat := 0

namespace Moment

/-- All references to routines. -/
def refs (m : Moment) : Multiset Nat := m.owed + m.world.cache.held

/-- There is a routine of that number, and it is not gone. -/
def Live (m : Moment) (i : Nat) : Prop := m.world.store.routines[i]?.any (!·.freed) = true

instance (m : Moment) (i : Nat) : Decidable (m.Live i) := inferInstanceAs (Decidable (_ = true))

end Moment

/-! ## Steps -/

def Own.act : Own → CacheM Unit
  | .bind i => CacheM.bind i
  | .unbind i => do let _ ← CacheM.unbind i

def Generator.act (g : Generator) : CacheM (Option Nat) := do
  g.steps.forM Own.act
  CacheM.liftOutcome g.made

/-- A reference is owed once it was taken, until it is given back. -/
def Own.step (o : Own) (m : Moment) : Moment :=
  match o, exec o.act m.world with
  | .bind i, (.ok _, w) => ⟨w, i ::ₘ m.owed⟩
  | .bind _, (.error _, w) => ⟨w, m.owed⟩
  | .unbind i, (_, w) => ⟨w, m.owed.erase i⟩

/-- The moment after some steps. -/
def after (os : List Own) (m : Moment) : Moment := os.foldl (fun m o => o.step m) m

/-- The moment at which a generator answers. -/
def Generator.last (g : Generator) (m : Moment) : Moment := after g.steps m

/-- The account after a generator was asked for a routine: one reference to a routine that it made is
the cache's own. -/
def Generator.settle (g : Generator) (m : Moment) : Outcome (Nat × Bool) → Multiset Nat
  | .ok (i, true) => (g.last m).owed.erase i
  | .ok (_, false) => m.owed
  | .error _ => (g.last m).owed

/-- The answers of a step, if it is one of the cache's operations, and the moment after it. -/
def Use.step (u : Use) (m : Moment) : List (Outcome Answer) × Moment :=
  match u with
  | .own o => ([], o.step m)
  | .query k =>
    let (a, w) := exec (Cache.query k) m.world
    ([a.map .found], ⟨w, m.owed⟩)
  | .add k i =>
    let (a, w) := exec (Cache.add k i) m.world
    ([a.map fun _ => .done], ⟨w, m.owed⟩)
  | .get k g =>
    let (a, w) := exec (getOrGenerate k g.act) m.world
    ([a.map fun (i, made) => .got i made], ⟨w, g.settle m a⟩)
  | .clear =>
    let (a, w) := exec Cache.clear m.world
    ([a.map fun _ => .done], ⟨w, m.owed⟩)

/-- A whole history: the answers in order, and its end. -/
def run : List Use → Moment → List (Outcome Answer) × Moment
  | [], m => ([], m)
  | u :: us, m => ((u.step m).1 ++ (run us (u.step m).2).1, (run us (u.step m).2).2)

/-- Every step of a history is such in the moment before it. -/
def Along (P : Use → Moment → Prop) : List Use → Moment → Prop
  | [], _ => True
  | u :: us, m => P u m ∧ Along P us (u.step m).2

instance instDecidableAlong (P : Use → Moment → Prop) [∀ u m, Decidable (P u m)] :
    ∀ us m, Decidable (Along P us m)
  | [], _ => inferInstanceAs (Decidable True)
  | u :: us, m =>
    have := instDecidableAlong P us (u.step m).2
    inferInstanceAs (Decidable (P u m ∧ Along P us (u.step m).2))

/-! ## Fairness -/

/-- Only a reference that is owed is given back. -/
def Own.Fair (o : Own) (m : Moment) : Prop :=
  match o with
  | .bind _ => True
  | .unbind i => i ∈ m.owed

/-- A step that also does not bind what is gone. -/
def Own.Sure (o : Own) (m : Moment) : Prop :=
  match o with
  | .bind i => m.Live i
  | .unbind i => i ∈ m.owed

/-- Steps that are all such, each in the moment before it. -/
def Each (P : Own → Moment → Prop) : List Own → Moment → Prop
  | [], _ => True
  | o :: os, m => P o m ∧ Each P os (o.step m)

/-- A generator whose routine comes with a reference that it took. -/
structure Generator.Fair (g : Generator) (m : Moment) : Prop where
  sure : Each Own.Sure g.steps m
  owed : ∀ i, g.made = .ok (some i) → i ∈ (g.last m).owed

def Use.Fair (u : Use) (m : Moment) : Prop :=
  match u with
  | .own o => o.Fair m
  | .get k g => m.world.cache.entries.lookup k = none → g.Fair m
  | _ => True

/-- Only routines that are not gone are put in. -/
def Use.AddsLive (u : Use) (m : Moment) : Prop :=
  match u with
  | .add _ i => m.Live i
  | _ => True

/-! ## Room on the counters -/

/-- One reference more to a routine can be counted. -/
def Moment.Room (m : Moment) (i : Nat) : Prop := m.refs.count i + 1 < 2 ^ 31

def Own.Room (o : Own) (m : Moment) : Prop :=
  match o with
  | .bind i => m.Room i
  | .unbind _ => True

/-- A generator that leaves room: the cache takes its own reference before it drops the generator's. -/
structure Generator.Room (g : Generator) (m : Moment) : Prop where
  steps : Each Own.Room g.steps m
  made : ∀ i, g.made = .ok (some i) → (g.last m).Room i

/-- Whatever reference a step takes can be counted. -/
def Use.Room (u : Use) (m : Moment) : Prop :=
  match u with
  | .own o => o.Room m
  | .add _ i => m.Room i
  | .get k g => m.world.cache.entries.lookup k = none → g.Room m
  | _ => True

section Decidable

instance (m : Moment) (i : Nat) : Decidable (m.Room i) := inferInstanceAs (Decidable (_ < _))

instance (o : Own) (m : Moment) : Decidable (o.Fair m) :=
  match o with
  | .bind _ => inferInstanceAs (Decidable True)
  | .unbind i => inferInstanceAs (Decidable (i ∈ m.owed))

instance (o : Own) (m : Moment) : Decidable (o.Sure m) :=
  match o with
  | .bind i => inferInstanceAs (Decidable (m.Live i))
  | .unbind i => inferInstanceAs (Decidable (i ∈ m.owed))

instance (o : Own) (m : Moment) : Decidable (o.Room m) :=
  match o with
  | .bind i => inferInstanceAs (Decidable (m.Room i))
  | .unbind _ => inferInstanceAs (Decidable True)

instance instDecidableEach (P : Own → Moment → Prop) [∀ o m, Decidable (P o m)] :
    ∀ os m, Decidable (Each P os m)
  | [], _ => inferInstanceAs (Decidable True)
  | o :: os, m =>
    have := instDecidableEach P os (o.step m)
    inferInstanceAs (Decidable (P o m ∧ Each P os (o.step m)))

instance instDecidableMade (r : Outcome (Option Nat)) (P : Nat → Prop) [DecidablePred P] :
    Decidable (∀ i, r = .ok (some i) → P i) :=
  match r with
  | .ok (some i) => decidable_of_iff (P i) ⟨fun h _ hj => by cases hj; exact h, fun h => h i rfl⟩
  | .ok none => .isTrue nofun
  | .error _ => .isTrue nofun

instance (g : Generator) (m : Moment) : Decidable (g.Fair m) :=
  decidable_of_iff
    (Each Own.Sure g.steps m ∧ ∀ i, g.made = .ok (some i) → i ∈ (g.last m).owed)
    ⟨fun h => ⟨h.1, h.2⟩, fun h => ⟨h.1, h.2⟩⟩

instance (g : Generator) (m : Moment) : Decidable (g.Room m) :=
  decidable_of_iff
    (Each Own.Room g.steps m ∧ ∀ i, g.made = .ok (some i) → (g.last m).Room i)
    ⟨fun h => ⟨h.1, h.2⟩, fun h => ⟨h.1, h.2⟩⟩

instance (u : Use) (m : Moment) : Decidable (u.Fair m) :=
  match u with
  | .own o => inferInstanceAs (Decidable (o.Fair m))
  | .get k g => inferInstanceAs (Decidable (m.world.cache.entries.lookup k = none → g.Fair m))
  | .query _ | .add _ _ | .clear => inferInstanceAs (Decidable True)

instance (u : Use) (m : Moment) : Decidable (u.Room m) :=
  match u with
  | .own o => inferInstanceAs (Decidable (o.Room m))
  | .add _ i => inferInstanceAs (Decidable (m.Room i))
  | .get k g => inferInstanceAs (Decidable (m.world.cache.entries.lookup k = none → g.Room m))
  | .query _ | .clear => inferInstanceAs (Decidable True)

instance (u : Use) (m : Moment) : Decidable (u.AddsLive m) :=
  match u with
  | .add _ i => inferInstanceAs (Decidable (m.Live i))
  | .own _ | .query _ | .get _ _ | .clear => inferInstanceAs (Decidable True)

end Decidable

/-! ## What steps keep -/

/-- A new cache has no entries, and room for one. -/
theorem Cache.eq_of_new {n : Int} {c : Cache} (new : Cache.new n = .ok c) :
    c.entries = [] ∧ c.order = [] ∧ 0 < c.capacity := by
  unfold Cache.new at new
  split at new
  · cases new
    exact ⟨rfl, rfl, by decide⟩
  · split at new
    · cases new
    · cases new
      exact ⟨rfl, rfl, by dsimp only; omega⟩

/-- A new cache, over routines that nobody has bound. -/
theorem Store.Fresh.kept {s : Store} (fresh : s.Fresh) {n : Int} {c : Cache}
    (new : Cache.new n = .ok c) : Kept s (fun _ => false) 0 ⟨s, c⟩ := by
  obtain ⟨hentries, horder, -⟩ := Cache.eq_of_new new
  refine ⟨⟨by simp [horder], by simp [horder, hentries, Entries.keys]⟩, ?_⟩
  simpa [Cache.held, hentries] using fresh.counted

/-- What can happen to routines from one moment to the next: what was bound stays so, what is gone
stays gone, and what is bound now and was not before has a reference. -/
structure Ages (bound bound' : Nat → Bool) (refs refs' : Multiset Nat) : Prop where
  stays : ∀ i, bound i = true → bound' i = true
  gone : ∀ i, bound i = true → i ∉ refs → i ∉ refs'
  taken : ∀ i, bound' i = true → bound i = true ∨ i ∈ refs'

/-- References that only become fewer. -/
theorem Ages.of_subset {bound : Nat → Bool} {refs refs' : Multiset Nat} (h : refs' ⊆ refs) :
    Ages bound bound refs refs' where
  stays _ hb := hb
  gone _ _ hi := fun hi' => hi (h hi')
  taken _ hb := .inl hb

/-- A reference to a routine that is not gone. -/
theorem Ages.of_bind {bound : Nat → Bool} {refs refs' : Multiset Nat} {i : Nat}
    (here : bound i = true → i ∈ refs) (mem : i ∈ refs') (sub : refs' ⊆ i ::ₘ refs) :
    Ages bound (update bound i true) refs refs' where
  stays j hb := by
    by_cases hji : j = i
    · rw [hji, update_self]
    · rwa [update_of_ne hji]
  gone j hb hj hj' := by
    rcases Multiset.mem_cons.mp (sub hj') with rfl | hj'
    · exact hj (here hb)
    · exact hj hj'
  taken j hb := by
    by_cases hji : j = i
    · exact .inr (hji ▸ mem)
    · exact .inl (by rwa [update_of_ne hji] at hb)

section Steps

variable {s₀ : Store} {bound : Nat → Bool} {m : Moment}

/-- A routine is not gone if it was never bound or has a reference. -/
theorem Kept.live_iff (h : Kept s₀ bound m.owed m.world) {i : Nat} :
    m.Live i ↔ i < s₀.routines.size ∧ (bound i = true → i ∈ m.refs) := by
  rw [Moment.Live, h.counted.routine i]
  cases hr : s₀.routines[i]? with
  | none =>
    have out : ¬ i < s₀.routines.size := fun hi => by
      rw [Array.getElem?_eq_getElem hi] at hr
      cases hr
    simp [out]
  | some r =>
    have hi := (Array.getElem?_eq_some_iff.mp hr).1
    simp [hi, aged, Moment.refs]
    grind

theorem Kept.bind_refused (h : Kept s₀ bound m.owed m.world) {i : Nat} (gone : ¬ m.Live i) :
    ∃ e, exec (CacheM.bind i) m.world = (.error e, m.world) := by
  refine h.counted.bind_refused fun hi => ?_
  rw [h.live_iff, not_and, Classical.not_imp] at gone
  exact ⟨(gone hi).1, Multiset.count_eq_zero.mpr (gone hi).2⟩

theorem Own.step_kept (h : Kept s₀ bound m.owed m.world) {o : Own} (fair : o.Fair m)
    (room : o.Room m) :
    ∃ bound', Kept s₀ bound' (o.step m).owed (o.step m).world ∧
      Ages bound bound' m.refs (o.step m).refs ∧ (o.step m).world.cache = m.world.cache := by
  cases o with
  | bind i =>
    by_cases live : m.Live i
    · obtain ⟨hi, here⟩ := h.live_iff.mp live
      obtain ⟨s', he, h'⟩ := h.bind hi here room
      have step : (Own.bind i).step m = ⟨⟨s', m.world.cache⟩, i ::ₘ m.owed⟩ := by
        simp only [Own.step, Own.act, he]
      refine ⟨update bound i true, step ▸ h', ?_, by rw [step]⟩
      rw [step]
      refine .of_bind here ?_ ?_
      · simp [Moment.refs]
      · simp [Moment.refs]
    · obtain ⟨e, he⟩ := h.bind_refused live
      have step : (Own.bind i).step m = m := by
        simp only [Own.step, Own.act, he]
      exact ⟨bound, step.symm ▸ h, .of_subset (by rw [step]; exact fun _ => id), by rw [step]⟩
  | unbind i =>
    rw [← Multiset.cons_erase fair] at h
    obtain ⟨s', last, he, h'⟩ := h.unbind
    have step : (Own.unbind i).step m = ⟨⟨s', m.world.cache⟩, m.owed.erase i⟩ := by
      simp only [Own.step, Own.act, exec_bind_ok he]
      rfl
    refine ⟨bound, step.symm ▸ h', .of_subset ?_, by rw [step]⟩
    rw [step]
    exact Multiset.subset_of_le (Multiset.add_le_add_right (Multiset.erase_le i m.owed))

theorem Own.Sure.fair {o : Own} (sure : o.Sure m) : o.Fair m := by
  cases o with
  | bind i => trivial
  | unbind i => exact sure

theorem Own.Sure.exec_act {o : Own} (sure : o.Sure m) (room : o.Room m)
    (h : Kept s₀ bound m.owed m.world) :
    exec o.act m.world = (.ok (), (o.step m).world) := by
  cases o with
  | bind i =>
    obtain ⟨hi, here⟩ := h.live_iff.mp sure
    obtain ⟨s', he, -⟩ := h.bind hi here room
    simp only [Own.step, Own.act, he]
  | unbind i =>
    rw [← Multiset.cons_erase sure] at h
    obtain ⟨s', last, he, -⟩ := h.unbind
    simp only [Own.step, Own.act, exec_bind_ok he]
    rfl

/-- Sure steps are done one after the other, and leave the cache alone. -/
theorem exec_steps {os : List Own} (sure : Each Own.Sure os m) (room : Each Own.Room os m)
    (h : Kept s₀ bound m.owed m.world) :
    exec (os.forM Own.act) m.world = (.ok (), (after os m).world) ∧
      (after os m).world.cache = m.world.cache ∧
      ∃ bound', Kept s₀ bound' (after os m).owed (after os m).world := by
  induction os generalizing m bound with
  | nil => exact ⟨rfl, rfl, bound, h⟩
  | cons o os ih =>
    obtain ⟨hsure, hrest⟩ : o.Sure m ∧ Each Own.Sure os (o.step m) := sure
    obtain ⟨hroom, hspace⟩ : o.Room m ∧ Each Own.Room os (o.step m) := room
    obtain ⟨bound', h', -, same⟩ := Own.step_kept h hsure.fair hroom
    obtain ⟨he, hcache, last⟩ := ih hrest hspace h'
    refine ⟨?_, hcache.trans same, last⟩
    rw [List.forM, exec_bind_ok (hsure.exec_act hroom h)]
    exact he

section Miss

variable {k : Key} {g : Generator} {i : Nat}

theorem Generator.Fair.exec_act (fair : g.Fair m) (room : g.Room m)
    (h : Kept s₀ bound m.owed m.world) : exec g.act m.world = (g.made, (g.last m).world) := by
  rw [Generator.act, exec_bind_ok (exec_steps fair.sure room.steps h).1]
  rfl

theorem Generator.Fair.last_kept (fair : g.Fair m) (room : g.Room m)
    (h : Kept s₀ bound m.owed m.world) :
    (g.last m).world.cache = m.world.cache ∧
      ∃ bound', Kept s₀ bound' (g.last m).owed (g.last m).world :=
  (exec_steps fair.sure room.steps h).2

/-- A fault of the generator, or no routine: the cache stays as it was. -/
theorem Generator.Fair.exec_get_unmade (fair : g.Fair m) (room : g.Room m)
    (h : Kept s₀ bound m.owed m.world) (miss : m.world.cache.entries.lookup k = none)
    (unmade : ∀ i, g.made ≠ .ok (some i)) :
    ∃ e, exec (getOrGenerate k g.act) m.world = (.error e, (g.last m).world) ∧
      (g.made = .error e ∨ g.made = .ok none ∧ e = .failure .noRoutine) := by
  rw [exec_getOrGenerate_miss miss, fair.exec_act room h]
  rcases hmade : g.made with e | _ | i
  · exact ⟨e, rfl, .inl rfl⟩
  · exact ⟨_, rfl, .inr ⟨rfl, rfl⟩⟩
  · exact absurd hmade (unmade i)

/-- A routine that the generator made comes in, with the reference that came with it. -/
theorem Generator.Fair.exec_get_made (fair : g.Fair m) (room : g.Room m)
    (h : Kept s₀ bound m.owed m.world) (miss : m.world.cache.entries.lookup k = none)
    (made : g.made = .ok (some i)) :
    ∃ s' bound', exec (getOrGenerate k g.act) m.world =
        (.ok (i, true), ⟨s', m.world.cache.added k i⟩) ∧
      Kept s₀ bound' (g.last m).owed (g.last m).world ∧
      Kept s₀ bound' ((g.last m).owed.erase i) ⟨s', m.world.cache.added k i⟩ := by
  obtain ⟨same, bound', last⟩ := fair.last_kept room h
  have taken := last
  have space := room.made i made
  rw [Moment.Room, Moment.refs, ← Multiset.cons_erase (fair.owed i made)] at space
  rw [← Multiset.cons_erase (fair.owed i made)] at taken
  obtain ⟨s', he, h'⟩ := taken.takeOver (k := k) space
  refine ⟨s', bound', ?_, last, ?_⟩
  · rw [exec_getOrGenerate_miss miss, fair.exec_act room h, made]
    exact same ▸ he
  · exact same ▸ h'

end Miss

end Steps

/-! ## References taken again and again -/

section Repeated

variable {m : Moment} {i : Nat} {r : Routine}

theorem run_own (os : List Own) (us : List Use) (m : Moment) :
    run (os.map .own ++ us) m = run us (after os m) := by
  induction os generalizing m with
  | nil => rfl
  | cons o os ih => exact ih (o.step m)

theorem along_own {P : Use → Moment → Prop} {os : List Own} {us : List Use}
    (own : ∀ o ∈ os, ∀ m, P (.own o) m) (rest : Along P us (after os m)) :
    Along P (os.map .own ++ us) m := by
  induction os generalizing m with
  | nil => exact rest
  | cons o os ih =>
    exact ⟨own o List.mem_cons_self m, ih (fun o' ho' => own o' (List.mem_cons_of_mem o ho')) rest⟩

theorem fair_replicate_bind {us : List Use} {n : Nat}
    (rest : Along Use.Fair us (after (List.replicate n (.bind i)) m)) :
    Along Use.Fair ((List.replicate n (.bind i)).map .own ++ us) m :=
  along_own (fun _ ho _ => List.eq_of_mem_replicate ho ▸ trivial) rest

theorem Own.step_bind (hr : m.world.store.routines[i]? = some r) (alive : r.freed = false) :
    (Own.bind i).step m = ⟨{ m.world with store := { m.world.store with
      routines := m.world.store.routines.setIfInBounds i { r.counted with frozen := true } } },
      i ::ₘ m.owed⟩ := by
  have found : exec (CacheM.routine i) m.world = (.ok r, m.world) := by
    simp only [CacheM.routine, exec_bind, exec_get, hr, exec_pure]
  have more : r.bind = .ok { r.counted with frozen := true } := by
    rw [Routine.bind, if_neg (by simp [alive])]
  have bound : exec (CacheM.bind i) m.world = (.ok (), { m.world with store := { m.world.store with
      routines := m.world.store.routines.setIfInBounds i { r.counted with frozen := true } } }) := by
    rw [CacheM.bind, exec_bind_ok found, exec_bind_ok (by rw [more]; rfl)]
    rfl
  simp only [Own.step, Own.act, bound]

/-- A routine can be bound any number of times, and its counter goes round. -/
theorem after_replicate_bind (hr : m.world.store.routines[i]? = some r) (alive : r.freed = false)
    (n : Nat) : after (List.replicate (n + 1) (.bind i)) m =
      ⟨{ m.world with store := { m.world.store with
        routines := m.world.store.routines.setIfInBounds i
          { r with counter := r.counter + .ofNat (n + 1), frozen := true } } },
        Multiset.replicate (n + 1) i + m.owed⟩ := by
  induction n with
  | zero => exact Own.step_bind hr alive
  | succ n ih =>
    have hi := (Array.getElem?_eq_some_iff.mp hr).1
    have once_more : after (List.replicate (n + 1 + 1) (.bind i)) m =
        (Own.bind i).step (after (List.replicate (n + 1) (.bind i)) m) := by
      rw [List.replicate_succ', after, List.foldl_append]
      rfl
    rw [once_more, ih, Own.step_bind
      (r := { r with counter := r.counter + .ofNat (n + 1), frozen := true })
      (Array.getElem?_setIfInBounds_self_of_lt hi) alive, Int32.ofNat_add (n + 1) 1,
      ← Int32.add_assoc, Multiset.replicate_succ _ (n + 1), Multiset.cons_add]
    simp only [Array.setIfInBounds_setIfInBounds]
    rfl

/-- The two routines when the first of them was bound so many times. -/
def boundRoutines (n : Nat) : Store := { twoRoutines with
  routines := #[{ buffer := some #[0xC3], mapping := 0, dynamic := true, counter := .ofNat n, frozen := true },
    { buffer := some #[0x90, 0xC3], mapping := 1, dynamic := true }] }

theorem after_boundRoutines (c : Cache) {n : Nat} (hn : 0 < n) :
    after (List.replicate n (.bind 0)) { world := ⟨twoRoutines, c⟩ } =
      ⟨⟨boundRoutines n, c⟩, Multiset.replicate n 0⟩ := by
  obtain ⟨n, rfl⟩ := Nat.exists_eq_add_one.mpr hn
  rw [after_replicate_bind (r := { buffer := some #[0xC3], mapping := 0, dynamic := true }) rfl rfl,
    Int32.zero_add]
  exact congrArg (Moment.mk ⟨boundRoutines (n + 1), c⟩) (Multiset.add_zero _)

end Repeated

end SsaJit.Cache
