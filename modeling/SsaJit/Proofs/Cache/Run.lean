import Mathlib.Data.Multiset.AddSub
import SsaJit.Proofs.Cache.Order
import SsaJit.Proofs.Cache.Store

/-! What the operations of a cache do, as long as the references balance and can be counted: nothing
faults, entries and order stay in step, and the references to a routine are those that are owed outside
the cache and one for each entry that has it. An entry that comes in takes over a reference that was owed,
and one that leaves hands its reference back. -/

set_option linter.dupNamespace false

namespace SsaJit.Cache

open Native Function

/-- A cache in step with its order, over a store in which the references to routines are those of the
entries and those that are owed elsewhere. -/
structure Kept (s₀ : Store) (bound : Nat → Bool) (owed : Multiset Nat) (w : World) : Prop where
  inStep : w.cache.InStep
  counted : Counted s₀ w.store bound fun i => (owed + w.cache.held).count i

namespace Kept

variable {s₀ : Store} {bound : Nat → Bool} {owed : Multiset Nat} {w : World} {i j : Nat} {k : Key}

theorem count_cons (refs : Multiset Nat) (i : Nat) :
    (fun j => (i ::ₘ refs).count j) = update (fun j => refs.count j) i (refs.count i + 1) := by
  funext j
  by_cases hji : j = i
  · rw [hji, update_self, Multiset.count_cons_self]
  · rw [update_of_ne hji, Multiset.count_cons_of_ne hji]

/-- A routine with a reference was bound. -/
theorem bound_of_mem (h : Kept s₀ bound owed w) (hi : i ∈ owed) : bound i = true :=
  h.counted.taken i (Multiset.count_pos.mpr (Multiset.mem_add.mpr (.inl hi)))

theorem bind (h : Kept s₀ bound owed w) (hi : i < s₀.routines.size)
    (here : bound i = true → i ∈ owed + w.cache.held)
    (room : (owed + w.cache.held).count i + 1 < 2 ^ 31) :
    ∃ s', exec (CacheM.bind i) w = (.ok (), { w with store := s' }) ∧
      Kept s₀ (update bound i true) (i ::ₘ owed) { w with store := s' } := by
  obtain ⟨s', he, hc⟩ := h.counted.bind hi (fun hb => Multiset.count_pos.mpr (here hb)) room
  refine ⟨s', he, h.inStep, ?_⟩
  dsimp only
  rwa [Multiset.cons_add, count_cons]

/-- A reference that is there is given back. -/
theorem unbind_cons {refs : Multiset Nat}
    (h : Counted s₀ w.store bound fun j => (i ::ₘ refs).count j) :
    ∃ s' last, exec (CacheM.unbind i) w = (.ok last, { w with store := s' }) ∧
      Counted s₀ s' bound fun j => refs.count j := by
  rw [count_cons] at h
  obtain ⟨s', he, hc⟩ := h.unbind (i := i) (by rw [update_self]; exact Nat.succ_pos _)
  refine ⟨s', _, he, ?_⟩
  rwa [update_self, Nat.add_sub_cancel, update_idem, update_eq_self] at hc

theorem unbind (h : Kept s₀ bound (i ::ₘ owed) w) :
    ∃ s' last, exec (CacheM.unbind i) w = (.ok last, { w with store := s' }) ∧
      Kept s₀ bound owed { w with store := s' } := by
  have counted := h.counted
  rw [Multiset.cons_add] at counted
  obtain ⟨s', last, he, hc⟩ := unbind_cons counted
  exact ⟨s', last, he, h.inStep, hc⟩

/-- An entry that comes in takes over a reference that was owed. -/
theorem insert (h : Kept s₀ bound (i ::ₘ owed) w) (hk : k ∉ w.cache.order) :
    Kept s₀ bound owed { w with cache := w.cache.insert k i } := by
  refine ⟨h.inStep.insert hk i, ?_⟩
  have counted := h.counted
  rwa [Multiset.cons_add, ← Multiset.add_cons, ← Cache.held_insert h.inStep hk] at counted

/-- An entry that leaves hands its reference back. -/
theorem remove (h : Kept s₀ bound owed w) (hk : w.cache.entries.lookup k = some i) :
    Kept s₀ bound (i ::ₘ owed) { w with cache := w.cache.remove k } := by
  refine ⟨h.inStep.remove k, ?_⟩
  have counted := h.counted
  rwa [Cache.held_remove h.inStep hk, Multiset.add_cons, ← Multiset.cons_add] at counted

theorem touch (h : Kept s₀ bound owed w) (hk : w.cache.entries.lookup k = some i) :
    Kept s₀ bound owed { w with cache := w.cache.touch k } :=
  ⟨h.inStep.touch (h.inStep.mem_order.mpr ⟨i, hk⟩), h.counted⟩

end Kept

/-! ## Caches with entries put in -/

/-- The cache less the entry that was used least recently. -/
def Cache.dropOldest (c : Cache) : Cache :=
  match c.order with
  | [] => c
  | k :: _ => c.remove k

theorem Cache.order_dropOldest_subset {c : Cache} : c.dropOldest.order ⊆ c.order := by
  rw [dropOldest]
  split
  · exact List.Subset.refl _
  · exact List.erase_subset

/-- The cache with a routine for a key: in place of the one that was there, or else in place of the
oldest entry if there is no room. -/
def Cache.added (c : Cache) (k : Key) (i : Nat) : Cache :=
  match c.entries.lookup k with
  | some _ => (c.remove k).insert k i
  | none => (if c.capacity ≤ c.length then c.dropOldest else c).insert k i

namespace Cache

variable {c : Cache} {k : Key} {i : Nat}

/-- A routine that comes in is put into a cache that does not have its key. -/
theorem exists_added_eq (h : c.InStep) (k : Key) (i : Nat) :
    ∃ c' : Cache, c.added k i = c'.insert k i ∧ c'.InStep ∧ k ∉ c'.order ∧ c'.held ≤ c.held ∧
      c'.capacity = c.capacity := by
  have held_remove_le : ∀ {k}, (c.remove k).held ≤ c.held := fun {k} =>
    Multiset.coe_le.mpr (List.filter_sublist.map Prod.snd).subperm
  rw [added]
  cases hk : c.entries.lookup k with
  | some old => exact ⟨_, rfl, h.remove k, notMem_order_remove h, held_remove_le, rfl⟩
  | none =>
    have absent := h.notMem_order hk
    refine ⟨_, rfl, ?_⟩
    split
    · rw [dropOldest]
      split
      · exact ⟨h, absent, le_rfl, rfl⟩
      · exact ⟨h.remove _, fun hm => absent (List.erase_subset hm), held_remove_le, rfl⟩
    · exact ⟨h, absent, le_rfl, rfl⟩

theorem mem_held_added (h : c.InStep) : i ∈ (c.added k i).held := by
  obtain ⟨c', hc', inStep, absent, -, -⟩ := exists_added_eq h k i
  rw [hc', held_insert inStep absent]
  exact Multiset.mem_cons_self i _

theorem held_added_le (h : c.InStep) : (c.added k i).held ≤ i ::ₘ c.held := by
  obtain ⟨c', hc', inStep, absent, le, -⟩ := exists_added_eq h k i
  rw [hc', held_insert inStep absent]
  exact Multiset.cons_le_cons i le

theorem capacity_added (h : c.InStep) : (c.added k i).capacity = c.capacity := by
  obtain ⟨c', hc', -, -, -, same⟩ := exists_added_eq h k i
  rw [hc', ← same]
  rfl

end Cache

/-! ## The operations -/

theorem exec_query (k : Key) (w : World) :
    exec (query k) w = (.ok (w.cache.entries.lookup k),
      if (w.cache.entries.lookup k).isSome then { w with cache := w.cache.touch k } else w) := by
  rw [query, exec_bind_ok (exec_lookup k w)]
  cases w.cache.entries.lookup k with
  | none => rfl
  | some i => rfl

namespace Kept

variable {s₀ : Store} {bound : Nat → Bool} {owed : Multiset Nat} {w : World} {i j : Nat} {k : Key}

theorem evictOldest (h : Kept s₀ bound owed w) :
    ∃ s', exec Cache.evictOldest w = (.ok (), ⟨s', w.cache.dropOldest⟩) ∧
      Kept s₀ bound owed ⟨s', w.cache.dropOldest⟩ := by
  rw [Cache.evictOldest, exec_bind_ok (exec_get w), Cache.dropOldest]
  cases horder : w.cache.order with
  | nil => exact ⟨w.store, rfl, h⟩
  | cons k rest =>
    obtain ⟨j, hj⟩ := h.inStep.mem_order.mp (horder ▸ List.mem_cons_self (a := k) (l := rest))
    obtain ⟨s', last, he, hs'⟩ := (h.remove hj).unbind
    refine ⟨s', ?_, hs'⟩
    have removed : { w.cache with entries := w.cache.entries.without k, order := rest } =
        w.cache.remove k := by
      simp only [Cache.remove, horder, List.erase_cons_head]
    dsimp only
    rw [exec_bind_ok (exec_lookup k w), hj, exec_bind_ok (exec_modifyCache _ w), removed,
      exec_bind_need, exec_bind_ok he]
    rfl

/-- A routine that is not gone comes in under a key, with a reference of its own. -/
theorem add (h : Kept s₀ bound owed w) (hi : i < s₀.routines.size)
    (here : bound i = true → i ∈ owed + w.cache.held)
    (room : (owed + w.cache.held).count i + 1 < 2 ^ 31) :
    ∃ s', exec (Cache.add k i) w = (.ok (), ⟨s', w.cache.added k i⟩) ∧
      Kept s₀ (update bound i true) owed ⟨s', w.cache.added k i⟩ := by
  obtain ⟨s₁, hbind, h₁⟩ := h.bind hi here room
  rw [Cache.add, exec_bind_ok hbind, exec_bind_ok (exec_lookup k _), Cache.added]
  cases hk : w.cache.entries.lookup k with
  | some old =>
    have hk₁ : k ∉ (w.cache.remove k).order := Cache.notMem_order_remove h.inStep
    have swapped := h₁.remove hk
    rw [Multiset.cons_swap] at swapped
    obtain ⟨s', last, he, hs'⟩ := (swapped.insert hk₁).unbind
    refine ⟨s', ?_, hs'⟩
    have replaced : { w.cache with entries := w.cache.entries.put k i }.touch k =
        (w.cache.remove k).insert k i := by
      simp [Cache.remove, Cache.insert, Cache.touch, Entries.put, Entries.without]
    dsimp only
    rw [exec_bind_ok (exec_modifyCache _ _), replaced, exec_bind_ok he]
    rfl
  | none =>
    dsimp only
    rw [exec_bind_ok (exec_get _)]
    by_cases full : w.cache.capacity ≤ w.cache.length
    · obtain ⟨s₂, he, h₂⟩ := h₁.evictOldest
      have hk₂ : k ∉ w.cache.dropOldest.order :=
        fun hm => h.inStep.notMem_order hk (Cache.order_dropOldest_subset hm)
      refine ⟨s₂, ?_, ?_⟩
      · rw [if_pos full, if_pos full, exec_bind_ok he]
        rfl
      · rw [if_pos full]
        exact h₂.insert hk₂
    · refine ⟨s₁, ?_, ?_⟩
      · rw [if_neg full, if_neg full]
        rfl
      · rw [if_neg full]
        exact h₁.insert (h.inStep.notMem_order hk)

/-- Every reference of the entries of some keys is given back. -/
theorem unbindEach {c : Cache} {ks : List Key} {routines : List Nat}
    (found : List.Forall₂ (fun k i => c.entries.lookup k = some i) ks routines) {s : Store}
    (h : Counted s₀ s bound fun i => (owed + routines).count i) :
    ∃ s', exec (ks.forM unbindEntry) ⟨s, c⟩ = (.ok (), ⟨s', c⟩) ∧
      Counted s₀ s' bound fun i => owed.count i := by
  induction found generalizing s with
  | nil => exact ⟨s, rfl, by simpa using h⟩
  | @cons k i ks routines hk _ ih =>
    rw [← Multiset.cons_coe, Multiset.add_cons] at h
    obtain ⟨s₁, last, he, h₁⟩ := unbind_cons (w := ⟨s, c⟩) h
    obtain ⟨s', hs', h'⟩ := ih h₁
    refine ⟨s', ?_, h'⟩
    have first : exec (unbindEntry k) ⟨s, c⟩ = (.ok (), ⟨s₁, c⟩) := by
      rw [unbindEntry, exec_bind_ok (exec_lookup k _), hk, exec_bind_need, exec_bind_ok he]
      rfl
    rw [List.forM, exec_bind_ok first]
    exact hs'

theorem clear (h : Kept s₀ bound owed w) :
    ∃ s', exec Cache.clear w = (.ok (), ⟨s', { w.cache with entries := [], order := [] }⟩) ∧
      Kept s₀ bound owed ⟨s', { w.cache with entries := [], order := [] }⟩ := by
  obtain ⟨routines, found, same⟩ : ∃ routines : List Nat,
      List.Forall₂ (fun k i => w.cache.entries.lookup k = some i) w.cache.order routines ∧
        w.cache.held = routines := by
    refine ⟨w.cache.view.map Prod.snd, ?_,
      Multiset.coe_eq_coe.mpr (h.inStep.view_perm.map Prod.snd).symm⟩
    rw [← h.inStep.map_view, List.forall₂_map_left_iff, List.forall₂_map_right_iff,
      List.forall₂_same]
    intro e he
    exact (Entries.lookup_eq_some h.inStep.keys_nodup).mpr (h.inStep.view_perm.mem_iff.mp he)
  have counted := h.counted
  rw [same] at counted
  obtain ⟨s', he, h'⟩ := unbindEach found counted
  refine ⟨s', ?_, ⟨List.nodup_nil, .nil⟩, by simpa [Cache.held] using h'⟩
  rw [Cache.clear, exec_bind_ok (exec_get w), exec_bind_ok he]
  rfl

/-- What is left to do with a generated routine: it comes in, and the reference that its generator
took is given back. -/
theorem takeOver (h : Kept s₀ bound (i ::ₘ owed) w)
    (room : (i ::ₘ owed + w.cache.held).count i + 1 < 2 ^ 31) :
    ∃ s', exec (do Cache.add k i; let _ ← CacheM.unbind i; return (i, true)) w =
        (.ok (i, true), ⟨s', w.cache.added k i⟩) ∧
      Kept s₀ bound owed ⟨s', w.cache.added k i⟩ := by
  have hb := h.bound_of_mem (Multiset.mem_cons_self i owed)
  obtain ⟨s₁, hadd, h₁⟩ := h.add (k := k) (h.counted.known i hb)
    (fun _ => Multiset.mem_add.mpr (.inl (Multiset.mem_cons_self i owed))) room
  rw [← hb, update_eq_self] at h₁
  obtain ⟨s', last, he, h'⟩ := h₁.unbind
  refine ⟨s', ?_, h'⟩
  rw [exec_bind_ok hadd, exec_bind_ok he]
  rfl

end Kept

section GetOrGenerate

variable {w : World} {k : Key} {i : Nat} {gen : CacheM (Option Nat)}

theorem exec_getOrGenerate_hit (hk : w.cache.entries.lookup k = some i) :
    exec (getOrGenerate k gen) w = (.ok (i, false), { w with cache := w.cache.touch k }) := by
  rw [getOrGenerate, exec_bind_ok (exec_query k w), hk]
  rfl

theorem exec_getOrGenerate_miss (hk : w.cache.entries.lookup k = none) :
    exec (getOrGenerate k gen) w = match exec gen w with
      | (.error e, w') => (.error e, w')
      | (.ok none, w') => (.fail .noRoutine, w')
      | (.ok (some i), w') =>
        exec (do add k i; let _ ← CacheM.unbind i; return (i, true)) w' := by
  rw [getOrGenerate, exec_bind_ok (exec_query k w), hk]
  simp only [Option.isSome_none, Bool.false_eq_true, if_false]
  rw [exec_bind]
  rcases exec gen w with ⟨_ | _ | i, w'⟩ <;> rfl

end GetOrGenerate

end SsaJit.Cache
