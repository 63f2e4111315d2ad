import SsaJit.Proofs.Cache.History

/-! No reference is lost or made up between a cache and the routines it holds. Over every fair
history with room on the counters, a routine's count is that of the references owed outside the cache and
those of its entries; so it is there as long as somebody has a reference, and gone from the first moment
when nobody has one any more. Its mapping is released at that moment and never again. -/

namespace SsaJit.Cache

open Native Function

/-- The moments within a step: those at which a generator has taken or given back a reference. -/
def Use.inside (u : Use) (m : Moment) : List Moment :=
  match u with
  | .get k g => if m.world.cache.entries.lookup k = none then moments g.steps m else []
  | _ => []
where
  moments : List Own → Moment → List Moment
    | [], _ => []
    | o :: os, m => o.step m :: moments os (o.step m)

/-- The last moment within a step. -/
def Use.before (u : Use) (m : Moment) : Moment :=
  match u with
  | .get k g => if m.world.cache.entries.lookup k = none then g.last m else m
  | _ => m

/-- All moments of a history. -/
def trace : List Use → Moment → List Moment
  | [], m => [m]
  | u :: us, m => m :: (u.inside m ++ trace us (u.step m).2)

theorem exists_trace_eq_cons (us : List Use) (m : Moment) : ∃ l, trace us m = m :: l := by
  cases us with
  | nil => exact ⟨_, rfl⟩
  | cons u us => exact ⟨_, rfl⟩

/-! ## From one moment to the next -/

/-- A moment comes right after another, in both of which the references balance. -/
def Follows (s₀ : Store) (m m' : Moment) : Prop :=
  ∃ bound bound', Kept s₀ bound m.owed m.world ∧ Kept s₀ bound' m'.owed m'.world ∧
    Ages bound bound' m.refs m'.refs

section Steps

variable {s₀ : Store} {bound : Nat → Bool} {m : Moment}

/-- An operation that only lets references go. -/
theorem Follows.of_subset {m' : Moment} (h : Kept s₀ bound m.owed m.world)
    (h' : Kept s₀ bound m'.owed m'.world) (sub : m'.refs ⊆ m.refs) : Follows s₀ m m' :=
  ⟨bound, bound, h, h', .of_subset sub⟩

theorem follows_query (h : Kept s₀ bound m.owed m.world) (k : Key) :
    Follows s₀ m ((Use.query k).step m).2 := by
  simp only [Use.step, exec_query]
  cases hk : m.world.cache.entries.lookup k with
  | none => exact .of_subset h h (Multiset.Subset.refl _)
  | some i => exact .of_subset h (h.touch hk) (Multiset.Subset.refl _)

theorem follows_add (h : Kept s₀ bound m.owed m.world) (k : Key) {i : Nat} (room : m.Room i) :
    Follows s₀ m ((Use.add k i).step m).2 := by
  by_cases live : m.Live i
  · obtain ⟨hi, here⟩ := h.live_iff.mp live
    obtain ⟨s', he, h'⟩ := h.add (k := k) hi here room
    simp only [Use.step, he]
    refine ⟨bound, _, h, h', .of_bind here ?_ ?_⟩
    · exact Multiset.mem_add.mpr (.inr (Cache.mem_held_added h.inStep))
    · refine Multiset.subset_of_le ?_
      rw [Moment.refs, Moment.refs, ← Multiset.add_cons]
      exact Multiset.add_le_add_left (Cache.held_added_le h.inStep)
  · obtain ⟨e, he⟩ := h.bind_refused live
    have refused : exec (add k i) m.world = (.error e, m.world) := exec_bind_error he
    simp only [Use.step, refused]
    exact .of_subset h h (Multiset.Subset.refl _)

theorem follows_clear (h : Kept s₀ bound m.owed m.world) : Follows s₀ m (Use.clear.step m).2 := by
  obtain ⟨s', he, h'⟩ := h.clear
  simp only [Use.step, he]
  exact .of_subset h h' (Multiset.subset_of_le (Multiset.add_le_add_left (Multiset.zero_le _)))

theorem follows_get (h : Kept s₀ bound m.owed m.world) {k : Key} {g : Generator}
    (fair : (Use.get k g).Fair m) (room : (Use.get k g).Room m) :
    Follows s₀ ((Use.get k g).before m) ((Use.get k g).step m).2 := by
  simp only [Use.step, Use.before]
  cases hk : m.world.cache.entries.lookup k with
  | some i =>
    rw [exec_getOrGenerate_hit hk]
    exact .of_subset h (h.touch hk) (Multiset.Subset.refl _)
  | none =>
    have fair := fair hk
    have room := room hk
    rw [if_pos rfl]
    by_cases hmade : ∃ i, g.made = .ok (some i)
    · obtain ⟨i, made⟩ := hmade
      obtain ⟨s', bound', he, last, h'⟩ := fair.exec_get_made room h hk made
      have same := (fair.last_kept room h).1
      rw [he]
      refine .of_subset last h' (Multiset.subset_of_le ?_)
      simp only [Moment.refs, Generator.settle, same]
      calc (g.last m).owed.erase i + (m.world.cache.added k i).held
          ≤ (g.last m).owed.erase i + i ::ₘ m.world.cache.held :=
            Multiset.add_le_add_left (Cache.held_added_le h.inStep)
        _ = (g.last m).owed + m.world.cache.held := by
            rw [Multiset.add_cons, ← Multiset.cons_add, Multiset.cons_erase (fair.owed i made)]
    · obtain ⟨-, bound', last⟩ := fair.last_kept room h
      obtain ⟨e, he, -⟩ := fair.exec_get_unmade room h hk fun i made => hmade ⟨i, made⟩
      rw [he]
      exact .of_subset last last (Multiset.Subset.refl _)

theorem Use.step_follows (h : Kept s₀ bound m.owed m.world) {u : Use} (fair : u.Fair m)
    (room : u.Room m) : Follows s₀ (u.before m) (u.step m).2 := by
  cases u with
  | own o =>
    obtain ⟨bound', h', ages, -⟩ := Own.step_kept h fair room
    exact ⟨bound, bound', h, h', ages⟩
  | query k => exact follows_query h k
  | add k i => exact follows_add h k room
  | get k g => exact follows_get h fair room
  | clear => exact follows_clear h

/-- Each moment of a history comes right after the one before. -/
theorem follows_moments {os : List Own} (sure : Each Own.Sure os m) (room : Each Own.Room os m)
    (h : Kept s₀ bound m.owed m.world) {rest : List Moment}
    (hrest : List.IsChain (Follows s₀) (after os m :: rest)) :
    List.IsChain (Follows s₀) (m :: (Use.inside.moments os m ++ rest)) := by
  induction os generalizing m bound with
  | nil => exact hrest
  | cons o os ih =>
    obtain ⟨hsure, hall⟩ : o.Sure m ∧ Each Own.Sure os (o.step m) := sure
    obtain ⟨hroom, hspace⟩ : o.Room m ∧ Each Own.Room os (o.step m) := room
    obtain ⟨bound', h', ages, -⟩ := Own.step_kept h hsure.fair hroom
    exact .cons_cons ⟨bound, bound', h, h', ages⟩ (ih hall hspace h' hrest)

theorem Use.follows_inside (h : Kept s₀ bound m.owed m.world) {u : Use} (fair : u.Fair m)
    (room : u.Room m) {rest : List Moment}
    (hrest : List.IsChain (Follows s₀) (u.before m :: rest)) :
    List.IsChain (Follows s₀) (m :: (u.inside m ++ rest)) := by
  cases u with
  | get k g =>
    simp only [Use.inside, Use.before] at hrest ⊢
    split at hrest
    · next miss => rw [if_pos miss]; exact follows_moments (fair miss).sure (room miss).steps h hrest
    · next hit => rw [if_neg hit]; exact hrest
  | own _ | query _ | add _ _ | clear => exact hrest

theorem trace_follows {us : List Use} (fair : Along Use.Fair us m) (room : Along Use.Room us m)
    (h : Kept s₀ bound m.owed m.world) : List.IsChain (Follows s₀) (trace us m) := by
  induction us generalizing m bound with
  | nil => exact .singleton m
  | cons u us ih =>
    obtain ⟨hfair, hrest⟩ : u.Fair m ∧ Along Use.Fair us (u.step m).2 := fair
    obtain ⟨hroom, hspace⟩ : u.Room m ∧ Along Use.Room us (u.step m).2 := room
    have step := Use.step_follows h hfair hroom
    have ⟨_, bound', _, h', _⟩ := step
    have chain := ih hrest hspace h'
    refine Use.follows_inside h hfair hroom ?_
    cases us with
    | nil => exact .cons_cons step chain
    | cons _ _ => exact .cons_cons step chain

end Steps

/-! ## The life of a routine -/

namespace Moment

/-- The references to a routine outside the cache, and the entries that have it. -/
def references (m : Moment) (i : Nat) : Nat :=
  m.owed.count i + m.world.cache.entries.countP (·.2 == i)

/-- The routine that was `r` at first counts its references and has its bytes; its mapping, if it has one,
is there and was never released. -/
def Whole (m : Moment) (i : Nat) (r : Routine) : Prop :=
  ∃ r', m.world.store.routines[i]? = some r' ∧ r'.refs = m.references i ∧ r'.freed = false ∧
    r'.buffer = r.buffer ∧ (r.dynamic = true →
      r.mapping ∈ m.world.store.pages.live ∧ m.world.store.pages.released.count r.mapping = 0)

/-- The routine that was `r` at first counts its references and is gone: its mapping was released, just
once. Memory that is not the routine's own is left alone. -/
def Released (m : Moment) (i : Nat) (r : Routine) : Prop :=
  ∃ r', m.world.store.routines[i]? = some r' ∧ r'.refs = m.references i ∧ r'.freed = true ∧
    (r.dynamic = true → r'.buffer = none ∧
      r.mapping ∉ m.world.store.pages.live ∧ m.world.store.pages.released.count r.mapping = 1) ∧
    (r.dynamic = false → r'.buffer = r.buffer)

theorem references_eq (m : Moment) (i : Nat) : m.references i = m.refs.count i := by
  rw [references, refs, Multiset.count_add, Cache.held, Multiset.coe_count, List.count,
    List.countP_map]
  rfl

end Moment

section Life

variable {s₀ : Store} {bound : Nat → Bool} {m m' : Moment} {i : Nat} {r : Routine}

theorem Kept.few (h : Kept s₀ bound m.owed m.world) (i : Nat) : m.refs.count i < 2 ^ 31 := h.counted.few i

theorem Kept.whole (hr : s₀.routines[i]? = some r) (h : Kept s₀ bound m.owed m.world)
    (here : bound i = true → i ∈ m.refs) : m.Whole i r := by
  have alive : (bound i && m.refs.count i == 0) = false := by
    cases hb : bound i with
    | false => rfl
    | true => simpa using here hb
  refine ⟨aged r (bound i) (m.refs.count i), ?_, ?_, alive, ?_, fun dyn => ⟨?_, ?_⟩⟩
  · rw [h.counted.routine i, hr]
    rfl
  · rw [m.references_eq, refs_aged _ _ (h.few i)]
  · simp [aged, alive]
  · refine (h.counted.live _).mpr ⟨(h.counted.fresh.mapped r (Store.mem_routines hr) dyn).1,
      fun j r' hj dyn' same hb => ?_⟩
    obtain rfl := h.counted.fresh.mapping_inj hj hr dyn' dyn same
    exact Multiset.count_pos.mpr (here hb)
  · rw [h.counted.released i r hr dyn]
    exact if_neg (Bool.eq_false_iff.mp alive)

theorem Kept.released (hr : s₀.routines[i]? = some r) (h : Kept s₀ bound m.owed m.world)
    (hb : bound i = true) (none_left : i ∉ m.refs) : m.Released i r := by
  have zero := Multiset.count_eq_zero.mpr none_left
  refine ⟨aged r true 0, ?_, ?_, rfl, fun dyn => ⟨by simp [aged, dyn], fun live => ?_, ?_⟩,
    fun static => by simp [aged, static]⟩
  · rw [h.counted.routine i, hr, hb]
    simp only [Option.map_some, Option.some.injEq]
    exact congrArg (aged r true) zero
  · rw [m.references_eq, zero]
    rfl
  · have := ((h.counted.live _).mp live).2 i r hr dyn rfl hb
    exact Nat.lt_irrefl 0 (zero ▸ this)
  · rw [h.counted.released i r hr dyn, hb]
    exact if_pos (beq_iff_eq.mpr zero)

/-- A routine is whole only if it was never bound or has a reference. -/
theorem Moment.Whole.here (whole : m.Whole i r) (h : Kept s₀ bound m.owed m.world)
    (hb : bound i = true) : i ∈ m.refs := by
  obtain ⟨r', hr', -, freed, -, -⟩ := whole
  rw [h.counted.routine i, Option.map_eq_some_iff] at hr'
  obtain ⟨r₀, -, rfl⟩ := hr'
  by_contra none_left
  have zero := Multiset.count_eq_zero.mpr none_left
  simp only [aged, hb, Bool.true_and, beq_eq_false_iff_ne] at freed
  exact freed zero

theorem Moment.Released.gone (released : m.Released i r) (h : Kept s₀ bound m.owed m.world) :
    bound i = true ∧ i ∉ m.refs := by
  obtain ⟨r', hr', -, freed, -⟩ := released
  rw [h.counted.routine i, Option.map_eq_some_iff] at hr'
  obtain ⟨r₀, -, rfl⟩ := hr'
  simp only [aged, Bool.and_eq_true, beq_iff_eq] at freed
  exact ⟨freed.1, Multiset.count_eq_zero.mp freed.2⟩

/-- A routine without references gets its first, one with references loses its last, and one that
was released stays so. -/
theorem Follows.ages (hr : s₀.routines[i]? = some r) (h : Follows s₀ m m') :
    (m.references i = 0 ∧ m.Whole i r →
      m'.references i = 0 ∧ m'.Whole i r ∨ 0 < m'.references i ∧ m'.Whole i r) ∧
    (0 < m.references i ∧ m.Whole i r →
      0 < m'.references i ∧ m'.Whole i r ∨ m'.references i = 0 ∧ m'.Released i r) ∧
    (m.references i = 0 ∧ m.Released i r → m'.references i = 0 ∧ m'.Released i r) := by
  obtain ⟨bound, bound', h, h', ages⟩ := h
  simp only [Moment.references_eq, Multiset.count_pos, Multiset.count_eq_zero]
  refine ⟨fun ⟨none_yet, whole⟩ => ?_, fun ⟨held, whole⟩ => ?_, fun ⟨none_left, released⟩ => ?_⟩
  · have here : bound' i = true → i ∈ m'.refs := fun hb' =>
      (ages.taken i hb').resolve_left fun hb => none_yet (whole.here h hb)
    by_cases held : i ∈ m'.refs
    · exact .inr ⟨held, h'.whole hr here⟩
    · exact .inl ⟨held, h'.whole hr here⟩
  · have hb := ages.stays i (h.counted.taken i (Multiset.count_pos.mpr held))
    by_cases held' : i ∈ m'.refs
    · exact .inl ⟨held', h'.whole hr fun _ => held'⟩
    · exact .inr ⟨held', h'.released hr hb held'⟩
  · obtain ⟨hb, -⟩ := released.gone h
    have none_left' := ages.gone i hb none_left
    exact ⟨none_left', h'.released hr (ages.stays i hb) none_left'⟩

end Life

/-- A list that starts in `P`, and goes from `P` only to `Q` and from `Q` only to `S`, is in three
parts. -/
theorem exists_parts {α : Type} {P Q S : α → Prop} {a : α} {l : List α}
    (h : List.IsChain (fun a b => (P a → P b ∨ Q b) ∧ (Q a → Q b ∨ S b) ∧ (S a → S b)) (a :: l)) :
    (S a → ∀ x ∈ a :: l, S x) ∧
    (Q a → ∃ during after, a :: l = during ++ after ∧ during ≠ [] ∧ (∀ x ∈ during, Q x) ∧
      ∀ x ∈ after, S x) ∧
    (P a → ∃ before during after, a :: l = before ++ during ++ after ∧ (∀ x ∈ before, P x) ∧
      (∀ x ∈ during, Q x) ∧ (∀ x ∈ after, S x) ∧ (after ≠ [] → during ≠ [])) := by
  induction l generalizing a with
  | nil =>
    refine ⟨fun hS => by simpa using hS, fun hQ => ⟨[a], [], by simpa using hQ⟩,
      fun hP => ⟨[a], [], [], by simpa using hP⟩⟩
  | cons b l ih =>
    obtain ⟨⟨fromP, fromQ, fromS⟩, rest⟩ := List.isChain_cons_cons.mp h
    obtain ⟨ihS, ihQ, ihP⟩ := ih rest
    refine ⟨fun hS => ?_, fun hQ => ?_, fun hP => ?_⟩
    · exact List.forall_mem_cons.mpr ⟨hS, ihS (fromS hS)⟩
    · rcases fromQ hQ with hQb | hSb
      · obtain ⟨during, after, hl, -, hd, ha⟩ := ihQ hQb
        exact ⟨a :: during, after, by rw [hl]; rfl, List.cons_ne_nil _ _,
          List.forall_mem_cons.mpr ⟨hQ, hd⟩, ha⟩
      · exact ⟨[a], b :: l, rfl, List.cons_ne_nil _ _, by simpa using hQ, ihS hSb⟩
    · rcases fromP hP with hPb | hQb
      · obtain ⟨before, during, after, hl, hb, hd, ha, hne⟩ := ihP hPb
        exact ⟨a :: before, during, after, by rw [hl]; rfl, List.forall_mem_cons.mpr ⟨hP, hb⟩, hd, ha,
          hne⟩
      · obtain ⟨during, after, hl, hne, hd, ha⟩ := ihQ hQb
        exact ⟨[a], during, after, by rw [hl]; rfl, by simpa using hP, hd, ha, fun _ => hne⟩

/-- Over every fair history of a new cache with room on the counters, the count of a routine is that of
the references owed outside the cache and of the entries that have it. It has its bytes before its first
reference and as long as it has one; at the first moment when it has none any more its mapping has been
released once, and never is again. -/
theorem references_conserved {n : Int} {c : Cache} (new : Cache.new n = .ok c) {s : Store}
    (fresh : s.Fresh) {us : List Use} (fair : Along Use.Fair us { world := ⟨s, c⟩ })
    (room : Along Use.Room us { world := ⟨s, c⟩ }) {i : Nat} {r : Routine} (hr : s.routines[i]? = some r) :
    ∃ before during after, trace us { world := ⟨s, c⟩ } = before ++ during ++ after ∧
      (∀ m ∈ before, m.references i = 0 ∧ m.Whole i r) ∧
      (∀ m ∈ during, 0 < m.references i ∧ m.Whole i r) ∧
      (∀ m ∈ after, m.references i = 0 ∧ m.Released i r) ∧
      (after ≠ [] → during ≠ []) := by
  have kept := fresh.kept new
  obtain ⟨l, hl⟩ := exists_trace_eq_cons us { world := ⟨s, c⟩ }
  have chain := trace_follows fair room kept
  rw [hl] at chain ⊢
  refine (exists_parts (chain.imp fun _ _ h => h.ages hr)).2.2 ⟨?_, ?_⟩
  · obtain ⟨hentries, -, -⟩ := Cache.eq_of_new new
    simp [Moment.references, hentries]
  · exact kept.whole hr (by simp)

/-- A generated routine is bound by its user, loses its entry to another and is given back; the other
comes in again under a second key and under its own, and all is cleared. -/
def crowdedOut : List Use :=
  [.get [1] { steps := [.bind 0], made := .ok (some 0) }, .own (.bind 0), .query [1],
    .add [2] 1, .own (.unbind 0), .add [3] 1, .add [3] 1, .clear]

theorem references_conserved_crowdedOut :
    Cache.new 1 = .ok { capacity := 1 } ∧
    Along Use.Fair crowdedOut { world := ⟨twoRoutines, { capacity := 1 }⟩ } ∧
    Along Use.Room crowdedOut { world := ⟨twoRoutines, { capacity := 1 }⟩ } ∧
    ∃ r before during after, twoRoutines.routines[0]? = some r ∧
      trace crowdedOut { world := ⟨twoRoutines, { capacity := 1 }⟩ } = before ++ during ++ after ∧
      (∀ m ∈ before, m.references 0 = 0 ∧ m.Whole 0 r) ∧
      (∀ m ∈ during, 0 < m.references 0 ∧ m.Whole 0 r) ∧
      (∀ m ∈ after, m.references 0 = 0 ∧ m.Released 0 r) ∧
      (after ≠ [] → during ≠ []) :=
  have fair : Along Use.Fair crowdedOut { world := ⟨twoRoutines, { capacity := 1 }⟩ } := by
    decide +kernel
  have room : Along Use.Room crowdedOut { world := ⟨twoRoutines, { capacity := 1 }⟩ } := by
    decide +kernel
  ⟨rfl, fair, room, _, (references_conserved (n := 1) rfl twoRoutines_fresh fair room rfl).imp
    fun _ => .imp fun _ => .imp fun _ h => ⟨rfl, h⟩⟩

/-- A routine over memory that somebody else owns. -/
def borrowed : Store where
  routines := #[{ buffer := some #[0xC3], size := 1, isSealed := true, executable := true }]

/-- A counter that ran over does not show the references that there are, and of a routine that does not
own its memory nothing is released. -/
theorem references_conserved_overrun :
    (let us := (List.replicate (2 ^ 31) (.bind 0)).map .own
      let m := (run us { world := ⟨twoRoutines, { capacity := 1 }⟩ }).2
      Along Use.Fair us { world := ⟨twoRoutines, { capacity := 1 }⟩ } ∧ m.references 0 = 2 ^ 31 ∧
        m.world.store.routines[0]?.map Routine.refs = some (-2 ^ 31)) ∧
    (let us := [.own (.bind 0), .own (.unbind 0)]
      let m := (run us { world := ⟨borrowed, { capacity := 1 }⟩ }).2
      Along Use.Fair us { world := ⟨borrowed, { capacity := 1 }⟩ } ∧ m.references 0 = 0 ∧
        m.world.store.routines[0]?.map (fun r => (r.freed, r.buffer)) = some (true, some #[0xC3]) ∧
        m.world.store.pages.released = []) := by
  have bound := after_boundRoutines { capacity := 1 } (Nat.two_pow_pos 31)
  have all_counted (n : Nat) : Moment.references
      ⟨⟨boundRoutines n, { capacity := 1 }⟩, Multiset.replicate n 0⟩ 0 = n :=
    Multiset.count_replicate_self 0 n
  refine ⟨⟨?_, ?_⟩, by decide +kernel, by decide +kernel, by decide +kernel, by decide +kernel⟩
  · rw [← List.append_nil (List.map _ _)]
    exact fair_replicate_bind trivial
  · rw [← List.append_nil (List.map _ _), run_own, bound]
    exact ⟨all_counted (2 ^ 31), rfl⟩

end SsaJit.Cache
