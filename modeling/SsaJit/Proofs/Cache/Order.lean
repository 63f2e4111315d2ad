import Mathlib.Data.List.Nodup
import Mathlib.Data.List.Perm.Basic
import Mathlib.Data.Multiset.Basic
import SsaJit.Cache.Basic

/-! The entries of a cache and the order of their keys, kept in step. All that operations do to a
cache is made of three edits: an entry leaves, an entry comes in as the latest, and a key becomes the
latest. Each keeps entries and order in step, and is an edit at one place of the list of pairs in
order of use. -/

set_option linter.dupNamespace false

namespace SsaJit.Cache

namespace Entries

variable {es : Entries} {k k' : Key} {i : Nat}

def keys (es : Entries) : List Key := es.map Prod.fst

theorem lookup_eq_none : es.lookup k = none ↔ k ∉ es.keys := by
  simp only [List.lookup_eq_none_iff, keys, List.mem_map, bne_iff_ne]
  grind

theorem lookup_eq_some (nodup : es.keys.Nodup) : es.lookup k = some i ↔ (k, i) ∈ es := by
  induction es with
  | nil => simp
  | cons e es ih =>
    obtain ⟨k₁, i₁⟩ := e
    obtain ⟨fresh, nodup⟩ := List.nodup_cons.mp nodup
    by_cases hk : k = k₁
    · subst hk
      have other : (k, i) ∉ es := fun h => fresh (List.mem_map.mpr ⟨_, h, rfl⟩)
      simp [other, eq_comm]
    · rw [List.lookup_cons, beq_eq_false_iff_ne.mpr hk, ih nodup]
      simp [hk]

theorem lookup_without : (es.without k).lookup k' = if k' = k then none else es.lookup k' := by
  induction es with
  | nil => simp [without]
  | cons e es ih =>
    obtain ⟨k₁, i₁⟩ := e
    simp only [without, List.filter_cons, List.lookup_cons] at ih ⊢
    grind

theorem lookup_put : (es.put k i).lookup k' = if k' = k then some i else es.lookup k' := by
  simp only [put, List.lookup_cons, lookup_without]
  grind

theorem keys_without (nodup : es.keys.Nodup) : (es.without k).keys = es.keys.erase k := by
  rw [nodup.erase_eq_filter, keys, keys, without, List.filter_map]
  rfl

/-- Taking an entry out and putting it back in changes only the order of entries. -/
theorem perm_put (nodup : es.keys.Nodup) (h : es.lookup k = some i) : es.Perm (es.put k i) := by
  have mem := (lookup_eq_some nodup).mp h
  refine (List.perm_cons_erase mem).trans (.cons _ ?_)
  rw [(List.Nodup.of_map _ nodup).erase_eq_filter]
  refine .of_eq (List.filter_congr fun e he => ?_)
  obtain ⟨k₁, i₁⟩ := e
  by_cases hk : k₁ = k
  · subst hk
    have same : i₁ = i := Option.some.inj (((lookup_eq_some nodup).mpr he).symm.trans h)
    simp [same]
  · exact Bool.eq_iff_iff.mpr (by simp [hk])

end Entries

open Entries

namespace Cache

variable {c : Cache} {k : Key} {i : Nat}

/-- The order has each key of an entry once, and no other key. -/
structure InStep (c : Cache) : Prop where
  nodup : c.order.Nodup
  perm : c.order.Perm c.entries.keys

/-- The pairs of keys and routines in order of use, the latest last. -/
def view (c : Cache) : List (Key × Nat) :=
  c.order.filterMap fun k => (c.entries.lookup k).map (k, ·)

/-- The routines of entries, each as often as there are entries that have it. -/
def held (c : Cache) : Multiset Nat := ↑(c.entries.map Prod.snd)

/-- The cache less the entry of a key. -/
def remove (c : Cache) (k : Key) : Cache :=
  { c with entries := c.entries.without k, order := c.order.erase k }

/-- The cache with an entry that comes in as the latest. -/
def insert (c : Cache) (k : Key) (i : Nat) : Cache :=
  { c with entries := c.entries.put k i, order := c.order ++ [k] }

theorem InStep.keys_nodup (h : c.InStep) : c.entries.keys.Nodup := h.perm.nodup_iff.mp h.nodup

theorem InStep.length_order (h : c.InStep) : c.order.length = c.length := by
  simpa [keys, length] using h.perm.length_eq

theorem InStep.mem_order (h : c.InStep) : k ∈ c.order ↔ ∃ i, c.entries.lookup k = some i := by
  rw [h.perm.mem_iff, ← not_iff_not, ← lookup_eq_none, Option.eq_none_iff_forall_ne_some]
  simp

theorem InStep.notMem_order (h : c.InStep) (hk : c.entries.lookup k = none) : k ∉ c.order := by
  rw [h.perm.mem_iff]
  exact lookup_eq_none.mp hk

/-! ## What the edits keep -/

theorem InStep.remove (h : c.InStep) (k : Key) : (c.remove k).InStep where
  nodup := h.nodup.erase k
  perm := by
    simp only [Cache.remove, keys_without h.keys_nodup]
    exact h.perm.erase k

theorem InStep.insert (h : c.InStep) (hk : k ∉ c.order) (i : Nat) : (c.insert k i).InStep where
  nodup := by
    simp only [Cache.insert, List.nodup_append, h.nodup, List.nodup_singleton, true_and,
      List.mem_singleton]
    rintro a ha _ rfl rfl
    exact hk ha
  perm := by
    have absent : k ∉ c.entries.keys := fun hm => hk (h.perm.mem_iff.mpr hm)
    have keys_put : (c.entries.put k i).keys = k :: c.entries.keys := by
      rw [← List.erase_of_not_mem absent, ← keys_without h.keys_nodup]
      rfl
    simp only [Cache.insert, keys_put]
    exact (List.perm_append_singleton k c.order).trans (h.perm.cons k)

theorem InStep.touch (h : c.InStep) (hk : k ∈ c.order) : (c.touch k).InStep where
  nodup := by
    simp only [Cache.touch, List.nodup_append, h.nodup.erase k, List.nodup_singleton, true_and,
      List.mem_singleton]
    rintro a ha _ rfl rfl
    exact h.nodup.not_mem_erase ha
  perm := by
    simp only [Cache.touch]
    exact ((List.perm_append_singleton k _).trans (List.perm_cons_erase hk).symm).trans h.perm

theorem notMem_order_remove (h : c.InStep) : k ∉ (c.remove k).order := h.nodup.not_mem_erase

theorem held_remove (h : c.InStep) (hk : c.entries.lookup k = some i) :
    c.held = i ::ₘ (c.remove k).held := by
  have perm := (perm_put h.keys_nodup hk).map Prod.snd
  exact Multiset.coe_eq_coe.mpr perm

theorem held_insert (h : c.InStep) (hk : k ∉ c.order) :
    (c.insert k i).held = i ::ₘ c.held := by
  have absent : k ∉ c.entries.keys := fun hm => hk (h.perm.mem_iff.mpr hm)
  have same : c.entries.without k = c.entries := by
    refine List.filter_eq_self.mpr fun e he => bne_iff_ne.mpr ?_
    rintro rfl
    exact absent (List.mem_map_of_mem he)
  simp [held, Cache.insert, put, same]

theorem length_insert (h : c.InStep) (hk : k ∉ c.order) :
    (c.insert k i).length = c.length + 1 := by
  rw [← (h.insert hk i).length_order, ← h.length_order]
  simp [insert]

theorem length_remove (h : c.InStep) (hk : k ∈ c.order) :
    (c.remove k).length = c.length - 1 := by
  rw [← (h.remove k).length_order, ← h.length_order]
  exact List.length_erase_of_mem hk

/-! ## What the edits are in order of use -/

/-- The keys in order of use are those of the pairs. -/
theorem InStep.map_view (h : c.InStep) : c.view.map Prod.fst = c.order := by
  have each : ∀ k ∈ c.order, (c.entries.lookup k).map (k, ·) =
      some (k, (c.entries.lookup k).getD 0) := by
    intro k hk
    obtain ⟨i, hi⟩ := h.mem_order.mp hk
    simp [hi]
  rw [view, List.filterMap_congr each]
  simp [Function.comp_def]

/-- The pairs in order of use are the entries in another order. -/
theorem InStep.view_perm (h : c.InStep) : c.view.Perm c.entries := by
  have view_nodup : c.view.Nodup := .of_map Prod.fst (h.map_view ▸ h.nodup)
  refine (List.perm_ext_iff_of_nodup view_nodup (.of_map Prod.fst h.keys_nodup)).mpr fun e => ?_
  obtain ⟨k, i⟩ := e
  rw [← lookup_eq_some h.keys_nodup, view, List.mem_filterMap]
  constructor
  · rintro ⟨k', -, hk'⟩
    obtain ⟨i', hi', ⟨rfl, rfl⟩⟩ : ∃ i', c.entries.lookup k' = some i' ∧ (k', i') = (k, i) :=
      Option.map_eq_some_iff.mp hk'
    exact hi'
  · intro hi
    exact ⟨k, h.mem_order.mpr ⟨i, hi⟩, by rw [hi]; rfl⟩

theorem InStep.lookup_view (h : c.InStep) : c.view.lookup k = c.entries.lookup k := by
  have nodup : (keys c.view).Nodup := h.view_perm.map Prod.fst |>.nodup_iff.mpr h.keys_nodup
  refine Option.ext fun i => ?_
  rw [lookup_eq_some nodup, lookup_eq_some h.keys_nodup, h.view_perm.mem_iff]

/-- The pairs of some keys without one of them. -/
theorem filterMap_erase {ks : List Key} (nodup : ks.Nodup) (es : Entries) :
    (ks.erase k).filterMap (fun k' => (es.lookup k').map (k', ·)) =
      (ks.filterMap fun k' => (es.lookup k').map (k', ·)).filter (·.1 ≠ k) := by
  rw [nodup.erase_eq_filter, List.filterMap_filter, List.filter_filterMap]
  refine List.filterMap_congr fun k' _ => ?_
  by_cases hk : k' = k <;> cases es.lookup k' <;> simp [hk, Option.filter]

theorem view_remove (h : c.InStep) : (c.remove k).view = c.view.filter (·.1 ≠ k) := by
  rw [view, view, ← filterMap_erase h.nodup]
  refine List.filterMap_congr fun k' hk' => ?_
  have other : k' ≠ k := fun hk => h.nodup.not_mem_erase (hk ▸ hk')
  simp only [remove, lookup_without, other, if_false]

theorem view_insert (hk : k ∉ c.order) : (c.insert k i).view = c.view ++ [(k, i)] := by
  simp only [view, insert, List.filterMap_append]
  congr 1
  · refine List.filterMap_congr fun k' hk' => ?_
    have other : k' ≠ k := fun h => hk (h ▸ hk')
    simp only [lookup_put, other, if_false]
  · simp [lookup_put]

theorem view_touch (h : c.InStep) (hk : c.entries.lookup k = some i) :
    (c.touch k).view = c.view.filter (·.1 ≠ k) ++ [(k, i)] := by
  simp only [view, touch, List.filterMap_append, filterMap_erase h.nodup]
  simp [hk]

/-- The pair that was used least recently is the first. -/
theorem view_remove_oldest (h : c.InStep) {rest : List Key} (horder : c.order = k :: rest) :
    (c.remove k).view = c.view.tail := by
  obtain ⟨e, es, hview⟩ : ∃ e es, c.view = e :: es := by
    refine List.exists_cons_of_ne_nil fun hnil => ?_
    have := h.map_view
    rw [hnil, horder] at this
    cases this
  have order := h.map_view
  have nodup := h.nodup
  rw [hview, horder, List.map_cons, List.cons.injEq] at order
  obtain ⟨first, later⟩ := order
  rw [horder] at nodup
  obtain ⟨fresh, -⟩ := List.nodup_cons.mp nodup
  rw [view_remove h, hview, List.filter_cons, first, if_neg (by simp), List.tail_cons]
  refine List.filter_eq_self.mpr fun e' he' => ?_
  simpa using fun hk => fresh (by rw [← later, ← hk]; exact List.mem_map_of_mem he')

end Cache

end SsaJit.Cache
