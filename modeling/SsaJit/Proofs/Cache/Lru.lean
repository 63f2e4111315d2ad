import SsaJit.Proofs.Cache.History

/-! A cache is a list of pairs of keys and routines in order of use, cut off at its capacity. What the
entries and the order of keys make up together is that list after every history in which references
balance, the counters have room for them and only routines that are there are put in, and every answer is
the list's. -/

set_option linter.dupNamespace false

namespace SsaJit.Cache

open Native Function

/-! ## The list -/

namespace Lru

/-- Pairs in order of use, the latest last. -/
abbrev Pairs := List (Key × Nat)

/-- A pair becomes the latest, and the only one of its key. -/
def latest (l : Pairs) (k : Key) (i : Nat) : Pairs := l.filter (·.1 ≠ k) ++ [(k, i)]

/-- A pair comes in. The routine of a key that is there is replaced; a new key in a full list drops the
first pair. -/
def add (capacity : Nat) (l : Pairs) (k : Key) (i : Nat) : Pairs :=
  match l.lookup k with
  | some _ => latest l k i
  | none => (if capacity ≤ l.length then l.tail else l) ++ [(k, i)]

/-- What one step of a history answers, and the list it leaves. -/
def step (capacity : Nat) (l : Pairs) : Use → List (Outcome Answer) × Pairs
  | .own _ => ([], l)
  | .query k =>
    match l.lookup k with
    | some i => ([.ok (.found (some i))], latest l k i)
    | none => ([.ok (.found none)], l)
  | .add k i => ([.ok .done], add capacity l k i)
  | .get k g =>
    match l.lookup k, g.made with
    | some i, _ => ([.ok (.got i false)], latest l k i)
    | none, .ok (some i) => ([.ok (.got i true)], add capacity l k i)
    | none, .ok none => ([.fail .noRoutine], l)
    | none, .error e => ([.error e], l)
  | .clear => ([.ok .done], [])

def run (capacity : Nat) : List Use → Pairs → List (Outcome Answer) × Pairs
  | [], l => ([], l)
  | u :: us, l =>
    ((step capacity l u).1 ++ (run capacity us (step capacity l u).2).1,
      (run capacity us (step capacity l u).2).2)

end Lru

/-! ## The cache as that list -/

namespace Cache

variable {c : Cache} {k : Key} {i : Nat}

theorem InStep.length_view (h : c.InStep) : c.view.length = c.length := h.view_perm.length_eq

theorem view_added (h : c.InStep) : (c.added k i).view = Lru.add c.capacity c.view k i := by
  rw [added, Lru.add, h.lookup_view, h.length_view]
  cases hk : c.entries.lookup k with
  | some old => exact (view_insert (notMem_order_remove h)).trans (by rw [view_remove h]; rfl)
  | none =>
    have absent := h.notMem_order hk
    dsimp only
    split
    · next full =>
      rw [view_insert fun hm => absent (order_dropOldest_subset hm), dropOldest]
      cases horder : c.order with
      | nil => simp [view, horder]
      | cons k' rest => rw [view_remove_oldest h horder]
    · exact view_insert absent

theorem length_added_le (h : c.InStep) (pos : 0 < c.capacity) (le : c.length ≤ c.capacity) :
    (c.added k i).length ≤ c.capacity := by
  rw [added]
  cases hk : c.entries.lookup k with
  | some old =>
    have mem := h.mem_order.mpr ⟨old, hk⟩
    have some_left : 0 < c.length := h.length_order ▸ List.length_pos_of_mem mem
    dsimp only
    rw [length_insert (h.remove k) (notMem_order_remove h), length_remove h mem]
    omega
  | none =>
    have absent := h.notMem_order hk
    dsimp only
    split
    · next full =>
      rw [dropOldest]
      cases horder : c.order with
      | nil =>
        have := h.length_order
        rw [horder, List.length_nil] at this
        omega
      | cons k' rest =>
        have mem : k' ∈ c.order := horder ▸ List.mem_cons_self
        dsimp only
        rw [length_insert (h.remove k') fun hm => absent (List.erase_subset hm), length_remove h mem]
        omega
    · rw [length_insert h absent]
      omega

end Cache

/-- The cache of a moment is a list of pairs, within a capacity. -/
structure Refines (s₀ : Store) (capacity : Nat) (l : Lru.Pairs) (m : Moment) : Prop where
  kept : ∃ bound, Kept s₀ bound m.owed m.world
  capacity_eq : m.world.cache.capacity = capacity
  length_le : m.world.cache.length ≤ capacity
  view_eq : m.world.cache.view = l

namespace Refines

variable {s₀ : Store} {capacity : Nat} {l : Lru.Pairs} {m : Moment} {k : Key} {i : Nat}

theorem inStep (h : Refines s₀ capacity l m) : m.world.cache.InStep := h.kept.elim fun _ => Kept.inStep

theorem lookup_eq (h : Refines s₀ capacity l m) : m.world.cache.entries.lookup k = l.lookup k := by
  rw [← h.view_eq, h.inStep.lookup_view]

theorem touch (h : Refines s₀ capacity l m) (hk : m.world.cache.entries.lookup k = some i) :
    Refines s₀ capacity (Lru.latest l k i)
      ⟨{ m.world with cache := m.world.cache.touch k }, m.owed⟩ where
  kept := h.kept.imp fun _ kept => kept.touch hk
  capacity_eq := h.capacity_eq
  length_le := h.length_le
  view_eq := by rw [← h.view_eq]; exact Cache.view_touch h.inStep hk

theorem added (pos : 0 < capacity) (h : Refines s₀ capacity l m) {s' : Store} {bound' : Nat → Bool}
    {owed' : Multiset Nat} (kept : Kept s₀ bound' owed' ⟨s', m.world.cache.added k i⟩) :
    Refines s₀ capacity (Lru.add capacity l k i) ⟨⟨s', m.world.cache.added k i⟩, owed'⟩ where
  kept := ⟨bound', kept⟩
  capacity_eq := (Cache.capacity_added h.inStep).trans h.capacity_eq
  length_le := by
    have le := h.length_le
    rw [← h.capacity_eq] at pos le ⊢
    exact Cache.length_added_le h.inStep pos le
  view_eq := by
    rw [← h.view_eq, ← h.capacity_eq]
    exact Cache.view_added h.inStep

/-- Another account, with the same cache. -/
theorem of_cache_eq (h : Refines s₀ capacity l m) {m' : Moment} {bound' : Nat → Bool}
    (kept : Kept s₀ bound' m'.owed m'.world) (same : m'.world.cache = m.world.cache) :
    Refines s₀ capacity l m' where
  kept := ⟨bound', kept⟩
  capacity_eq := same ▸ h.capacity_eq
  length_le := same ▸ h.length_le
  view_eq := same ▸ h.view_eq

/-- A step answers as the list does, and leaves the list's next. -/
def Answers (s₀ : Store) (capacity : Nat) (l : Lru.Pairs) (m : Moment) (u : Use) : Prop :=
  (u.step m).1 = (Lru.step capacity l u).1 ∧
    Refines s₀ capacity (Lru.step capacity l u).2 (u.step m).2

theorem query (h : Refines s₀ capacity l m) : Answers s₀ capacity l m (.query k) := by
  simp only [Answers, Use.step, exec_query, Lru.step, ← h.lookup_eq]
  cases hk : m.world.cache.entries.lookup k with
  | none => exact ⟨rfl, h⟩
  | some i => exact ⟨rfl, h.touch hk⟩

theorem add (pos : 0 < capacity) (h : Refines s₀ capacity l m) (live : m.Live i) (room : m.Room i) :
    Answers s₀ capacity l m (.add k i) := by
  obtain ⟨bound, kept⟩ := h.kept
  obtain ⟨hi, here⟩ := kept.live_iff.mp live
  obtain ⟨s', he, kept'⟩ := kept.add (k := k) hi here room
  simp only [Answers, Use.step, he, Lru.step]
  exact ⟨rfl, h.added pos kept'⟩

theorem get (pos : 0 < capacity) (h : Refines s₀ capacity l m) {g : Generator}
    (fair : (Use.get k g).Fair m) (room : (Use.get k g).Room m) :
    Answers s₀ capacity l m (.get k g) := by
  obtain ⟨bound, kept⟩ := h.kept
  simp only [Answers, Use.step, Lru.step, ← h.lookup_eq]
  cases hk : m.world.cache.entries.lookup k with
  | some i =>
    rw [exec_getOrGenerate_hit hk]
    exact ⟨rfl, h.touch hk⟩
  | none =>
    have fair := fair hk
    have room := room hk
    obtain ⟨same, bound', last⟩ := fair.last_kept room kept
    rcases hmade : g.made with e | _ | i
    · obtain ⟨e', he, made⟩ := fair.exec_get_unmade room kept hk (by simp [hmade])
      obtain rfl : e = e' := by simpa [hmade] using made
      rw [he]
      exact ⟨rfl, h.of_cache_eq last same⟩
    · obtain ⟨e', he, made⟩ := fair.exec_get_unmade room kept hk (by simp [hmade])
      obtain rfl : e' = .failure .noRoutine := by simpa [hmade] using made
      rw [he]
      exact ⟨rfl, h.of_cache_eq last same⟩
    · obtain ⟨s', bound', he, -, kept'⟩ := fair.exec_get_made room kept hk hmade
      rw [he]
      exact ⟨rfl, h.added pos kept'⟩

/-- What fails leaves entries and order as they were. -/
theorem cache_eq_of_fault (h : Refines s₀ capacity l m) {g : Generator}
    (fair : (Use.get k g).Fair m) (room : (Use.get k g).Room m) {e : Fault} {w' : World}
    (fault : exec (getOrGenerate k g.act) m.world = (.error e, w')) :
    w'.cache = m.world.cache := by
  obtain ⟨bound, kept⟩ := h.kept
  cases hk : m.world.cache.entries.lookup k with
  | some i =>
    rw [exec_getOrGenerate_hit hk] at fault
    cases fault
  | none =>
    have fair := fair hk
    have room := room hk
    by_cases hmade : ∃ i, g.made = .ok (some i)
    · obtain ⟨i, made⟩ := hmade
      obtain ⟨s', bound', he, -, -⟩ := fair.exec_get_made room kept hk made
      rw [he] at fault
      cases fault
    · obtain ⟨e', he, -⟩ := fair.exec_get_unmade room kept hk fun i made => hmade ⟨i, made⟩
      rw [he] at fault
      cases fault
      exact (fair.last_kept room kept).1

theorem clear (h : Refines s₀ capacity l m) : Answers s₀ capacity l m .clear := by
  obtain ⟨bound, kept⟩ := h.kept
  obtain ⟨s', he, kept'⟩ := kept.clear
  simp only [Answers, Use.step, he, Lru.step]
  exact ⟨rfl, ⟨bound, kept'⟩, h.capacity_eq, Nat.zero_le _, rfl⟩

theorem own (h : Refines s₀ capacity l m) {o : Own} (fair : o.Fair m) (room : o.Room m) :
    Answers s₀ capacity l m (.own o) := by
  obtain ⟨bound, kept⟩ := h.kept
  obtain ⟨bound', kept', -, same⟩ := Own.step_kept kept fair room
  exact ⟨rfl, h.of_cache_eq kept' same⟩

theorem answers (pos : 0 < capacity) (h : Refines s₀ capacity l m) {u : Use} (fair : u.Fair m)
    (live : u.AddsLive m) (room : u.Room m) : Answers s₀ capacity l m u := by
  cases u with
  | own o => exact h.own fair room
  | query k => exact h.query
  | add k i => exact h.add pos live room
  | get k g => exact h.get pos fair room
  | clear => exact h.clear

/-- A whole history answers as the list does, and ends in the list's last. -/
theorem run (pos : 0 < capacity) (h : Refines s₀ capacity l m) {us : List Use}
    (fair : Along Use.Fair us m) (live : Along Use.AddsLive us m) (room : Along Use.Room us m) :
    (Cache.run us m).1 = (Lru.run capacity us l).1 ∧
      Refines s₀ capacity (Lru.run capacity us l).2 (Cache.run us m).2 := by
  induction us generalizing m l with
  | nil => exact ⟨rfl, h⟩
  | cons u us ih =>
    obtain ⟨hfair, fair⟩ : u.Fair m ∧ Along Use.Fair us (u.step m).2 := fair
    obtain ⟨hlive, live⟩ : u.AddsLive m ∧ Along Use.AddsLive us (u.step m).2 := live
    obtain ⟨hroom, room⟩ : u.Room m ∧ Along Use.Room us (u.step m).2 := room
    obtain ⟨hanswers, h'⟩ := h.answers pos hfair hlive hroom
    obtain ⟨hrest, hend⟩ := ih h' fair live room
    exact ⟨congrArg₂ (· ++ ·) hanswers hrest, hend⟩

end Refines

/-- After every history of a new cache in which references balance, the counters have room for them and
only routines that are there are put in, the order has the keys of the entries, each once, there are no
more entries than the capacity, and the answers and the pairs in order of use are those of the list. A key
for which no routine could be generated leaves entries and order as they were. -/
theorem refines_lru {n : Int} {c : Cache} (new : Cache.new n = .ok c) {s : Store} (fresh : s.Fresh)
    (us : List Use) (fair : Along Use.Fair us { world := ⟨s, c⟩ })
    (live : Along Use.AddsLive us { world := ⟨s, c⟩ }) (room : Along Use.Room us { world := ⟨s, c⟩ }) :
    let m := (run us { world := ⟨s, c⟩ }).2
    (m.world.cache.order.Nodup ∧ m.world.cache.order.Perm m.world.cache.entries.keys) ∧
    m.world.cache.length ≤ c.capacity ∧
    ((run us { world := ⟨s, c⟩ }).1, m.world.cache.view) = Lru.run c.capacity us [] ∧
    ∀ k g, (Use.get k g).Fair m → (Use.get k g).Room m →
      ∀ e w', exec (getOrGenerate k g.act) m.world = (.error e, w') →
      w'.cache = m.world.cache := by
  obtain ⟨hentries, horder, pos⟩ := Cache.eq_of_new new
  have start : Refines s c.capacity [] { world := ⟨s, c⟩ } :=
    ⟨⟨_, fresh.kept new⟩, rfl, by simp [Cache.length, hentries], by simp [Cache.view, horder]⟩
  obtain ⟨hanswers, h⟩ := start.run pos fair live room
  refine ⟨⟨h.inStep.nodup, h.inStep.perm⟩, h.length_le, Prod.ext hanswers h.view_eq,
    fun k g hfair hroom e w' he => ?_⟩
  exact h.cache_eq_of_fault hfair hroom he

/-- A generated routine, a key that is used again, a generator that fails, a full cache that drops the
key used before that, and a routine that is replaced. -/
def replaced : List Use :=
  [.get [1] { steps := [.bind 0], made := .ok (some 0) }, .add [2] 1, .query [1],
    .get [3] { made := .fail (.reported "no code") }, .add [3] 1, .query [2], .add [1] 1, .query [1]]

theorem refines_lru_replaced :
    let m := (run replaced { world := ⟨twoRoutines, { capacity := 2 }⟩ }).2
    (m.world.cache.order = [[3], [1]] ∧ m.world.cache.order.Perm m.world.cache.entries.keys) ∧
    m.world.cache.length ≤ 2 ∧
    ((run replaced { world := ⟨twoRoutines, { capacity := 2 }⟩ }).1, m.world.cache.view) =
      ([.ok (.got 0 true), .ok .done, .ok (.found (some 0)), .fail (.reported "no code"), .ok .done,
        .ok (.found none), .ok .done, .ok (.found (some 1))], [([3], 1), ([1], 1)]) :=
  have fair : Along Use.Fair replaced { world := ⟨twoRoutines, { capacity := 2 }⟩ } := by
    decide +kernel
  have live : Along Use.AddsLive replaced { world := ⟨twoRoutines, { capacity := 2 }⟩ } := by
    decide +kernel
  have room : Along Use.Room replaced { world := ⟨twoRoutines, { capacity := 2 }⟩ } := by
    decide +kernel
  have ⟨⟨_, perm⟩, length_le, same, _⟩ :=
    refines_lru (n := 2) rfl twoRoutines_fresh replaced fair live room
  ⟨⟨by decide +kernel, perm⟩, length_le, same.trans rfl⟩

theorem Lru.run_own (capacity : Nat) (os : List Own) (us : List Use) (l : Pairs) :
    run capacity (os.map .own ++ us) l = run capacity us l := by
  induction os with
  | nil => rfl
  | cons o os ih => exact ih

/-- A routine is bound by its user so many times, comes in, and gives way to another. -/
def overbound (n : Nat) : List Use :=
  (List.replicate n (.bind 0)).map .own ++ [.add [1] 0, .add [2] 1]

/-- There is not a cache for every capacity; and when a counter runs over, the cache cannot let its routine
go and the one that was to come in stays out. -/
theorem refines_lru_overrun :
    Cache.new (2 ^ 62) = .crash .outOfRange ∧
    Along Use.Fair (overbound (2 ^ 31)) { world := ⟨twoRoutines, { capacity := 1 }⟩ } ∧
    Along Use.AddsLive (overbound (2 ^ 31)) { world := ⟨twoRoutines, { capacity := 1 }⟩ } ∧
    (run (overbound (2 ^ 31)) { world := ⟨twoRoutines, { capacity := 1 }⟩ }).1 =
      [.ok .done, .refuse .unboundUnbind] ∧
    (Lru.run 1 (overbound (2 ^ 31)) []).1 = [.ok .done, .ok .done] := by
  have bound := after_boundRoutines { capacity := 1 } (Nat.two_pow_pos 31)
  generalize Multiset.replicate _ _ = owed at bound
  refine ⟨rfl, fair_replicate_bind ⟨trivial, trivial, trivial⟩, along_own (fun _ _ _ => trivial) ?_,
    ?_, ?_⟩
  · rw [bound]
    exact ⟨rfl, rfl, trivial⟩
  · rw [overbound, run_own, bound]
    simp only [run, Use.step]
    rfl
  · rw [overbound, Lru.run_own]
    rfl

end SsaJit.Cache
