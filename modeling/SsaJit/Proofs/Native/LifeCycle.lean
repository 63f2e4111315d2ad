import SsaJit.Proofs.Native.Compile
import SsaJit.Proofs.Native.Operations

/-! The life of a routine, over every run of accepted operations. The buffer, the entry and the size fit
each other until the pages are given back; references are counted, in the 32 bits that the counter has;
from the first binding on nothing changes but the count; the pages are given back once, by the unbinding
that brings the counter to zero or by a holder that never bound the routine.

A holder that recovers from what is rejected goes on as if it had not asked, but for unbinding: the count
goes down before it is looked at, and the reference that was never there stays counted. -/

namespace SsaJit.Native

variable {p : Pages} {h h' h'' h₀ : Holding} {o : Operation} {os : List Operation} {b : Bool}

/-- A routine as it is made: in a mapping of its own, or over memory that someone else owns. -/
inductive Made (p : Pages) : Holding → Prop
  | dynamic {bytes : Int} {r : Routine} {p' : Pages} (h : Routine.new bytes p = .ok (r, p')) :
      Made p ⟨r, p'⟩
  | static {memory : Array UInt8} {size offset : Int} {r : Routine}
      (h : Routine.static memory size offset = .ok r) : Made p ⟨r, p⟩

/-- A new routine has room of its own and nothing in it; one over memory holds all of its bytes and is
ready to run. -/
theorem Made.cases (made : Made p h) :
    (∃ n, h = ⟨.blank (Array.replicate n 0) p.mapped, p.withMapping⟩) ∨
    ∃ (code : Array UInt8) (offset : Int), 0 ≤ offset ∧ offset ≤ code.size ∧
      h = ⟨{ buffer := some code, entry := offset, size := code.size, isSealed := true,
             executable := true }, p⟩ := by
  cases made with
  | @dynamic bytes r p' hnew =>
    rw [Routine.new_eq] at hnew
    cases hr : p.refusal (p.codeRoom (.ofInt bytes)) with
    | some reason =>
      rw [hr] at hnew
      exact nomatch hnew
    | none =>
      rw [hr] at hnew
      obtain ⟨rfl, rfl⟩ := Prod.mk.inj (Except.ok.inj hnew)
      exact .inl ⟨_, rfl⟩
  | @static memory size offset r hstatic =>
    unfold Routine.static at hstatic
    by_cases hn : (memory.size : Int) < size ∨ offset < 0 ∨ size < offset
    · exact nomatch (if_pos hn).symm.trans hstatic
    · obtain rfl := Except.ok.inj ((if_neg hn).symm.trans hstatic)
      have hlength : ((memory.take size.toNat).size : Int) = size := by
        rw [Array.take_eq_extract, Array.size_extract]
        omega
      exact .inr ⟨memory.take size.toNat, offset, by omega, by omega, by rw [hlength]⟩

/-- A run of operations that are all accepted. -/
inductive Runs : List Operation → Holding → Holding → Prop
  | nil (h : Holding) : Runs [] h h
  | cons {h h' h'' : Holding} {o : Operation} {os : List Operation} {b : Bool}
      (hok : h.exec o = (.ok b, h')) (runs : Runs os h' h'') : Runs (o :: os) h h''

theorem Runs.split {os os' : List Operation} (runs : Runs (os ++ os') h h'') :
    ∃ h', Runs os h h' ∧ Runs os' h' h'' := by
  induction os generalizing h with
  | nil => exact ⟨h, .nil h, runs⟩
  | cons o os ih =>
    cases runs with
    | cons hok runs =>
      obtain ⟨h', hfirst, hrest⟩ := ih runs
      exact ⟨h', .cons hok hfirst, hrest⟩

theorem Runs.unique (runs : Runs os h h') (runs' : Runs os h h'') : h' = h'' := by
  induction runs with
  | nil => cases runs' with | nil => rfl
  | cons hok _ ih =>
    cases runs' with
    | cons hok' runs' =>
      obtain ⟨-, rfl⟩ := Prod.mk.inj (hok.symm.trans hok')
      exact ih runs'

namespace Holding

/-- After some operations, whatever they answered. -/
def after (h : Holding) (os : List Operation) : Holding := os.foldl (fun h o => (h.exec o).2) h

/-- The operations that are accepted, when the holder goes on after the others. -/
def accepted : List Operation → Holding → List Operation
  | [], _ => []
  | o :: os, h => match h.exec o with
    | (.ok _, h') => o :: accepted os h'
    | (.error _, h') => accepted os h'

/-- The others. -/
def rejected : List Operation → Holding → List Operation
  | [], _ => []
  | o :: os, h => match h.exec o with
    | (.ok _, h') => rejected os h'
    | (.error _, h') => o :: rejected os h'

end Holding

/-! ## What a state is like -/

/-- The mapping that the routine has now. -/
def Holding.kept (h : Holding) : List Nat :=
  if h.routine.dynamic && !h.routine.freed then [h.routine.mapping] else []

theorem Holding.kept_owned (hd : h.routine.dynamic = true) (hf : h.routine.freed = false) :
    h.kept = [h.routine.mapping] := by
  rw [Holding.kept, hd, hf]
  rfl

theorem Holding.kept_none (hf : h.routine.dynamic = false ∨ h.routine.freed = true) : h.kept = [] := by
  unfold Holding.kept
  rcases hf with hf | hf <;> simp [hf]

/-- The flags, the count and the bounds of a routine fit each other, and of the mappings that were made
since `p` only its own is left. -/
structure Sound (p : Pages) (h : Holding) : Prop where
  size : h.routine.freed = false → 0 ≤ h.routine.size ∧ h.routine.size ≤ h.routine.length
  entry : h.routine.freed = false → 0 ≤ h.routine.entry ∧ h.routine.entry ≤ h.routine.length
  isSealed : h.routine.executable = true → h.routine.isSealed = true
  unbound : h.routine.frozen = false → h.routine.counter = 0
  gone : h.routine.freed = true → h.routine.counter = 0
  mapped : p.mapped ≤ h.pages.mapped
  pages : p.Settled h.pages h.kept

namespace Sound

theorem made (made : Made p h) : Sound p h := by
  rcases made.cases with ⟨n, rfl⟩ | ⟨code, offset, hoffset, hle, rfl⟩
  · exact {
      size := fun _ => ⟨Int.le_refl 0, Int.natCast_nonneg _⟩
      entry := fun _ => ⟨Int.le_refl 0, Int.natCast_nonneg _⟩
      isSealed := nofun
      unbound := fun _ => rfl
      gone := nofun
      mapped := Nat.le_succ _
      pages := (Pages.Settled.refl p).withMapping (Nat.le_refl _) }
  · exact {
      size := fun _ => ⟨Int.natCast_nonneg _, Int.le_refl _⟩
      entry := fun _ => ⟨hoffset, hle⟩
      isSealed := fun _ => rfl
      unbound := fun _ => rfl
      gone := nofun
      mapped := Nat.le_refl _
      pages := .refl p }

/-- Giving the pages back keeps all this, when the counter is at zero. -/
theorem released (hs : Sound p h) : Sound p ({ h with routine.counter := 0 } : Holding).released := by
  have hpages := hs.pages
  unfold Holding.released Routine.release
  cases hf : h.routine.freed with
  | true =>
    exact ⟨hs.size, hs.entry, hs.isSealed, fun _ => rfl, fun _ => rfl, hs.mapped, hpages⟩
  | false =>
    cases hd : h.routine.dynamic with
    | true =>
      rw [Holding.kept_owned hd hf] at hpages
      have hgone := hpages.unmap List.mem_cons_self
      rw [List.erase_cons_head] at hgone
      exact ⟨nofun, nofun, hs.isSealed, fun _ => rfl, fun _ => rfl, hs.mapped, hgone⟩
    | false =>
      rw [Holding.kept_none (.inl hd)] at hpages
      refine ⟨nofun, nofun, hs.isSealed, fun _ => rfl, fun _ => rfl, hs.mapped, ?_⟩
      rw [Holding.kept_none (.inl rfl)]
      exact hpages

theorem not_freed (hs : Sound p h) (hcount : h.routine.counter ≠ 0) :
    h.routine.frozen = true ∧ h.routine.freed = false := by
  constructor
  · by_contra hb
    exact hcount (hs.unbound (by simpa using hb))
  · by_contra hf
    exact hcount (hs.gone (by simpa using hf))

/-- An accepted operation keeps all this. -/
theorem step (hs : Sound p h) (hstep : h.Step o b h') : Sound p h' := by
  cases hstep with
  | roomy => exact hs
  | grown hm hd _ _ more =>
    have hlength : h.routine.length ≤ (h.routine.moved h.pages.mapped more).length := by
      simp [Routine.length, Routine.bytes, Routine.moved]
    have hsize := hs.size hm.freed
    have hentry := hs.entry hm.freed
    have hpages := hs.pages
    rw [Holding.kept_owned hd hm.freed] at hpages
    have hold := (hpages.fresh.2 _ List.mem_cons_self).2
    have hmoved := (hpages.withMapping hs.mapped).unmap (List.mem_cons_of_mem _ List.mem_cons_self)
    rw [List.erase_cons_tail (by simpa using Nat.ne_of_gt hold), List.erase_cons_head] at hmoved
    refine ⟨fun _ => ⟨hsize.1, Int.le_trans hsize.2 (Int.ofNat_le.mpr hlength)⟩,
      fun _ => ⟨hentry.1, Int.le_trans hentry.2 (Int.ofNat_le.mpr hlength)⟩, hs.isSealed, hs.unbound,
      hs.gone, Nat.le_succ_of_le hs.mapped, ?_⟩
    rwa [Holding.kept_owned (h := ⟨h.routine.moved _ _, _⟩) hd hm.freed]
  | sized _ hn hn' =>
    exact ⟨fun _ => ⟨hn, hn'⟩, hs.entry, hs.isSealed, hs.unbound, hs.gone, hs.mapped, hs.pages⟩
  | closed _ hn hn' =>
    exact ⟨hs.size, fun _ => ⟨hn, Int.le_of_lt hn'⟩, fun _ => rfl, hs.unbound, hs.gone, hs.mapped,
      hs.pages⟩
  | executable => exact hs
  | marked _ hsealed =>
    exact ⟨hs.size, hs.entry, fun _ => hsealed, hs.unbound, hs.gone, hs.mapped, hs.pages⟩
  | bound hf =>
    exact ⟨hs.size, hs.entry, hs.isSealed, nofun, fun hfreed => (nomatch hf.symm.trans hfreed),
      hs.mapped, hs.pages⟩
  | dropped hn =>
    obtain ⟨hfrozen, hfreed⟩ := hs.not_freed fun hzero =>
      Int.lt_asymm hn (Routine.refs_uncounted_neg hzero)
    exact ⟨hs.size, hs.entry, hs.isSealed, fun hunbound => (nomatch hfrozen.symm.trans hunbound),
      fun hgone => (nomatch hfreed.symm.trans hgone), hs.mapped, hs.pages⟩
  | last hn =>
    have hdropped : h.dropped = { h with routine.counter := 0 } := by
      have hzero : h.routine.counter - 1 = 0 := Routine.refs_eq_zero.mp hn
      rw [Holding.dropped, Routine.uncounted, hzero]
    rw [hdropped]
    exact hs.released
  | given hf =>
    have hsame : h = { h with routine.counter := 0 } := by rw [← hs.unbound hf]
    rw [hsame]
    exact hs.released

theorem run (hs : Sound p h) (runs : Runs os h h') : Sound p h' := by
  induction runs with
  | nil => exact hs
  | cons hok _ ih => exact ih (hs.step (Holding.step_of_exec hok))

end Sound

/-! ## What a step changes -/

/-- The code, its entry and the flags are the same, as long as the pages are there. -/
structure Holding.Steady (h h' : Holding) : Prop where
  buffer : h'.routine.freed = false → h'.routine.buffer = h.routine.buffer
  entry : h'.routine.entry = h.routine.entry
  size : h'.routine.size = h.routine.size
  isSealed : h'.routine.isSealed = h.routine.isSealed
  executable : h'.routine.executable = h.routine.executable

theorem Holding.Steady.trans (h₁ : h.Steady h') (h₂ : h'.Steady h'')
    (hf : h''.routine.freed = false → h'.routine.freed = false) : h.Steady h'' where
  buffer := fun hn => (h₂.buffer hn).trans (h₁.buffer (hf hn))
  entry := h₂.entry.trans h₁.entry
  size := h₂.size.trans h₁.size
  isSealed := h₂.isSealed.trans h₁.isSealed
  executable := h₂.executable.trans h₁.executable

namespace Holding

@[simp] theorem counter_released : h.released.routine.counter = h.routine.counter := by
  simp only [released, Routine.release]
  split
  · rfl
  · split <;> rfl

@[simp] theorem refs_released : h.released.routine.refs = h.routine.refs :=
  congrArg Int32.toInt counter_released

@[simp] theorem frozen_released : h.released.routine.frozen = h.routine.frozen := by
  simp only [released, Routine.release]
  split
  · rfl
  · split <;> rfl

@[simp] theorem freed_released : h.released.routine.freed = true := by
  simp only [released, Routine.release]
  split
  · assumption
  · split <;> rfl

theorem steady_released (h : Holding) : h.Steady h.released := by
  simp only [released, Routine.release]
  split
  · exact ⟨fun _ => rfl, rfl, rfl, rfl, rfl⟩
  · split <;> exact ⟨by simp, rfl, rfl, rfl, rfl⟩

theorem released_of_freed (hf : h.routine.freed = true) : h.released = h := by
  rw [released, Routine.release, if_pos hf]

namespace Step

/-- Binding counts up and unbinding counts down. -/
theorem counter (hstep : h.Step o b h') :
    h'.routine.counter = h.routine.counter + .ofNat ([o].count .bind) - .ofNat ([o].count .unbind) := by
  have hsame : h.routine.counter = h.routine.counter + 0 - 0 := by grind
  cases hstep with
  | bound => exact (show h.routine.counter + 1 = h.routine.counter + 1 - 0 by grind)
  | dropped => exact (show h.routine.counter - 1 = h.routine.counter + 0 - 1 by grind)
  | last => exact counter_released.trans (show h.routine.counter - 1 = h.routine.counter + 0 - 1 by grind)
  | given => exact counter_released.trans hsame
  | _ => exact hsame

/-- Unbinding is accepted only if there is something to count down. -/
theorem counter_ne_zero (hstep : h.Step .unbind b h') : h.routine.counter ≠ 0 := by
  intro hzero
  have hneg := Routine.refs_uncounted_neg hzero
  cases hstep with
  | dropped hn => exact Int.lt_asymm hn hneg
  | last hn => exact Int.ne_of_lt hneg hn

/-- As numbers, as long as the number held is known. -/
theorem counts {n : Nat} (hn : h.routine.counter = .ofNat n) (hstep : h.Step o b h') :
    ∃ m, h'.routine.counter = .ofNat m ∧ m + [o].count .unbind = n + [o].count .bind := by
  have hle : [o].count .unbind ≤ n + [o].count .bind := by
    by_cases ho : o = .unbind
    · subst ho
      exact Nat.pos_of_ne_zero fun hzero => hstep.counter_ne_zero (hn.trans (congrArg _ hzero))
    · rw [List.count_singleton, if_neg (by simpa using ho)]
      exact Nat.zero_le _
  refine ⟨n + [o].count .bind - [o].count .unbind, ?_, Nat.sub_add_cancel hle⟩
  rw [hstep.counter, hn, Int32.ofNat_sub _ _ hle, Int32.ofNat_add]

theorem frozen (hstep : h.Step o b h') :
    h'.routine.frozen = true ↔ h.routine.frozen = true ∨ o = .bind := by
  cases hstep <;> simp [Routine.moved, Holding.dropped]

/-- Of a routine that is gone nothing changes any more. -/
theorem of_freed (hs : Sound p h) (hf : h.routine.freed = true) (hstep : h.Step o b h') :
    o = .free ∧ b = false ∧ h' = h := by
  have hnone := Routine.refs_uncounted_neg (hs.gone hf)
  cases hstep with
  | given => exact ⟨rfl, rfl, released_of_freed hf⟩
  | roomy hm | grown hm | sized hm | closed hm | executable hm | marked hm =>
    exact nomatch hf.symm.trans hm.freed
  | bound hf' => exact nomatch hf.symm.trans hf'
  | dropped hn => exact absurd hn (Int.lt_asymm hnone)
  | last hn => exact absurd hn (Int.ne_of_lt hnone)

/-- The pages are given back by whoever drops the last reference, which is reported, or by a holder that
never bound the routine. -/
theorem freed (hf : h.routine.freed = false) (hstep : h.Step o b h') :
    (h'.routine.freed = true ↔ o = .unbind ∧ h'.routine.refs = 0 ∨ o = .free) ∧
      (b = true ↔ o = .unbind ∧ h'.routine.refs = 0) ∧ (o = .free → h.routine.frozen = false) := by
  cases hstep with
  | dropped hn => simp [Holding.dropped, hf, Int.ne_of_gt hn]
  | last hn => simp [Holding.dropped, hn]
  | given hf' => simp [hf']
  | _ => simp [Routine.moved, hf]

/-- After binding only the count changes, and at the end the pages. -/
theorem steady (hb : h.routine.frozen = true ∨ o = .bind) (hstep : h.Step o b h') : h.Steady h' := by
  cases hstep with
  | roomy hm | grown hm | sized hm | closed hm | executable hm | marked hm =>
    exact nomatch (hb.resolve_right nofun).symm.trans hm.frozen
  | given hf => exact nomatch (hb.resolve_right nofun).symm.trans hf
  | bound | dropped => exact ⟨fun _ => rfl, rfl, rfl, rfl, rfl⟩
  | last =>
    have hs := h.dropped.steady_released
    exact ⟨hs.buffer, hs.entry, hs.size, hs.isSealed, hs.executable⟩

/-- Growing keeps the bytes. -/
theorem bytes {n : Int} (hstep : h.Step (.resize n) b h') :
    h.routine.bytes.toList <+: h'.routine.bytes.toList := by
  cases hstep with
  | roomy => exact List.prefix_refl _
  | grown _ _ _ _ more => exact ⟨List.replicate more 0, by simp [Routine.moved, Routine.bytes]⟩

end Step

/-- How many operations of a run give the pages back. -/
def releases : List Operation → Holding → Nat
  | [], _ => 0
  | o :: os, h => (if h.routine.freed = false ∧ (h.exec o).2.routine.freed = true then 1 else 0) +
      releases os (h.exec o).2

/-- A routine that is gone refuses all but dropping references and being freed again. -/
theorem refused_of_freed (hf : h.routine.freed = true) (hu : o ≠ .unbind) (hfree : o ≠ .free) :
    ∃ r, h.exec o = (.error (.refusal r), h) := by
  have hmutable : ∀ operation, ∃ r, h.routine.mutable operation = .error (.refusal r) := by
    intro operation
    unfold Routine.mutable
    split
    · exact ⟨_, rfl⟩
    · exact ⟨_, rfl⟩
  cases o with
  | resize n =>
    obtain ⟨r, hr⟩ := hmutable "Resize"
    exact ⟨r, by rw [exec_resize, Routine.resize, hr]; rfl⟩
  | setFunctionSize n =>
    obtain ⟨r, hr⟩ := hmutable "SetFunctionSize"
    exact ⟨r, by rw [exec_setFunctionSize, Routine.setFunctionSize, hr]; rfl⟩
  | sealAt offset =>
    obtain ⟨r, hr⟩ := hmutable "Seal"
    exact ⟨r, by rw [exec_sealAt, Routine.sealAt, hr]; rfl⟩
  | markExecutable =>
    obtain ⟨r, hr⟩ := hmutable "MarkExecutable"
    exact ⟨r, by rw [exec_markExecutable, Routine.markExecutable, hr]; rfl⟩
  | bind => exact ⟨.bindAfterFree, by rw [exec_bind, Routine.bind, if_pos hf]; rfl⟩
  | unbind => exact absurd rfl hu
  | free => exact absurd rfl hfree

end Holding

/-! ## Runs -/

namespace Runs

/-- The counter holds the bindings less the unbindings, of which there are no more. -/
theorem counts {n : Nat} (hn : h.routine.counter = .ofNat n) (runs : Runs os h h') :
    ∃ m, h'.routine.counter = .ofNat m ∧ m + os.count .unbind = n + os.count .bind := by
  induction runs generalizing n with
  | nil => exact ⟨n, hn, rfl⟩
  | @cons h h' h'' o os b hok _ ih =>
    obtain ⟨k, hk, hstep⟩ := (Holding.step_of_exec hok).counts hn
    obtain ⟨m, hm, hrest⟩ := ih hk
    refine ⟨m, hm, ?_⟩
    rw [← List.singleton_append, List.count_append, List.count_append]
    omega

theorem frozen (runs : Runs os h h') :
    h'.routine.frozen = true ↔ h.routine.frozen = true ∨ .bind ∈ os := by
  induction runs with
  | nil => simp
  | cons hok _ ih =>
    rw [ih, (Holding.step_of_exec hok).frozen, List.mem_cons, or_assoc, eq_comm (a := Operation.bind)]

/-- Nothing happens to a routine that is gone. -/
theorem of_freed (hs : Sound p h) (hf : h.routine.freed = true) (runs : Runs os h h') :
    h' = h ∧ h.releases os = 0 := by
  induction runs with
  | nil => exact ⟨rfl, rfl⟩
  | cons hok _ ih =>
    obtain ⟨-, -, rfl⟩ := (Holding.step_of_exec hok).of_freed hs hf
    obtain ⟨hsame, hnone⟩ := ih hs hf
    refine ⟨hsame, ?_⟩
    rw [Holding.releases, hok, hnone, if_neg (by simp [hf])]

/-- The pages are given back once. -/
theorem releases (hs : Sound p h) (hf : h.routine.freed = false) (runs : Runs os h h') :
    h.releases os = if h'.routine.freed then 1 else 0 := by
  induction runs with
  | nil => rw [hf]; rfl
  | @cons h h₁ h' o os b hok runs ih =>
    have hs₁ := hs.step (Holding.step_of_exec hok)
    rw [Holding.releases, hok]
    cases hf₁ : h₁.routine.freed with
    | true =>
      obtain ⟨rfl, hnone⟩ := runs.of_freed hs₁ hf₁
      simp [hf, hf₁, hnone]
    | false => simp [ih hs₁ hf₁]

/-- A routine that is there was there before. -/
theorem alive (hs : Sound p h) (runs : Runs os h h') (hf : h'.routine.freed = false) :
    h.routine.freed = false := by
  by_contra hgone
  obtain ⟨rfl, -⟩ := runs.of_freed hs (by simpa using hgone)
  exact hgone hf

/-- After binding the code stays the same. -/
theorem steady (hs : Sound p h) (hb : h.routine.frozen = true) (runs : Runs os h h') : h.Steady h' := by
  induction runs with
  | nil => exact ⟨fun _ => rfl, rfl, rfl, rfl, rfl⟩
  | cons hok runs ih =>
    have hstep := Holding.step_of_exec hok
    exact (hstep.steady (.inl hb)).trans (ih (hs.step hstep) (hstep.frozen.mpr (.inl hb)))
      (runs.alive (hs.step hstep))

theorem steady_of_bind (hs : Sound p h) (runs : Runs (.bind :: os) h h') : h.Steady h' := by
  cases runs with
  | cons hok runs =>
    have hstep := Holding.step_of_exec hok
    exact (hstep.steady (.inr rfl)).trans (runs.steady (hs.step hstep) (hstep.frozen.mpr (.inr rfl)))
      (runs.alive (hs.step hstep))

end Runs

/-- What is true of a holding `h` that a run of accepted operations leads to, from a routine that was
made in `p`. -/
structure LifeCycle (p : Pages) (os : List Operation) (h₀ h : Holding) : Prop where
  size : h.routine.freed = false → 0 ≤ h.routine.size ∧ h.routine.size ≤ h.routine.length
  entry : h.routine.freed = false → 0 ≤ h.routine.entry ∧ h.routine.entry ≤ h.routine.length
  isSealed : h.routine.executable = true → h.routine.isSealed = true
  matched : os.count .unbind ≤ os.count .bind
  /-- The counter holds the references that are left in 32 bits. -/
  counter : h.routine.counter = .ofNat (os.count .bind - os.count .unbind)
  /-- As long as they fit, they are what it shows. -/
  references : os.count .bind - os.count .unbind < 2 ^ 31 →
    h.routine.refs = os.count .bind - os.count .unbind
  referenced : 0 < h.routine.refs → h.routine.frozen = true ∧ h.routine.freed = false
  /-- From any binding on. -/
  steady : ∀ before after h₁, os = before ++ .bind :: after → Runs before h₀ h₁ → h₁.Steady h
  grown : ∀ n b h', h.exec (.resize n) = (.ok b, h') →
    h.routine.bytes.toList <+: h'.routine.bytes.toList
  /-- Who gives the pages back, whatever is done next. -/
  next : h.routine.freed = false → ∀ o b h', h.exec o = (.ok b, h') →
    (h'.routine.freed = true ↔ o = .unbind ∧ h'.routine.refs = 0 ∨ o = .free) ∧
      (b = true ↔ o = .unbind ∧ h'.routine.refs = 0) ∧ (o = .free → .bind ∉ os)
  once : h₀.releases os = if h.routine.freed then 1 else 0
  /-- Every mapping that was made is the routine's, or was released just once. -/
  pages : p.Settled h.pages h.kept
  entryAfter : h.routine.freed = true → ∀ base, h.routine.entryAddress base = 0
  refusedAfter : h.routine.freed = true → ∀ o, o ≠ .unbind → o ≠ .free →
    ∃ r, h.exec o = (.error (.refusal r), h)
  nothingAfter : h.routine.freed = true → ∀ o b h', h.exec o = (.ok b, h') → o = .free ∧ h' = h

theorem Made.fresh (made : Made p h) :
    h.routine.counter = 0 ∧ h.routine.frozen = false ∧ h.routine.freed = false := by
  rcases made.cases with ⟨n, rfl⟩ | ⟨code, offset, -, -, rfl⟩ <;> exact ⟨rfl, rfl, rfl⟩

/-- Every run of accepted operations keeps to the life cycle. -/
theorem lifeCycle (made : Made p h₀) (runs : Runs os h₀ h) : LifeCycle p os h₀ h := by
  have hs₀ := Sound.made made
  have hs := hs₀.run runs
  obtain ⟨hcounter₀, hfrozen₀, hfreed₀⟩ := made.fresh
  have hfrozen : h.routine.frozen = true ↔ .bind ∈ os := by simp [runs.frozen, hfrozen₀]
  obtain ⟨n, hn, hleft⟩ := runs.counts (n := 0) hcounter₀
  have hmatched : os.count .unbind ≤ os.count .bind := by omega
  obtain rfl : n = os.count .bind - os.count .unbind := by omega
  exact {
    size := hs.size
    entry := hs.entry
    isSealed := hs.isSealed
    matched := hmatched
    counter := hn
    references := fun hfit => by
      rw [Routine.refs, hn, Int32.toInt_ofNat_of_lt hfit, Int.ofNat_sub hmatched]
    referenced := fun hpos => hs.not_freed fun hzero => Int.ne_of_gt hpos (Routine.refs_eq_zero.mpr hzero)
    steady := fun before after h₁ hos hbefore => by
      subst hos
      obtain ⟨h₁', hbefore', hafter⟩ := runs.split
      obtain rfl := hbefore.unique hbefore'
      exact hafter.steady_of_bind (hs₀.run hbefore)
    grown := fun n b h' hok => (Holding.step_of_exec hok).bytes
    next := fun hf o b h' hok => by
      obtain ⟨hfreed, hreport, hfree⟩ := (Holding.step_of_exec hok).freed hf
      exact ⟨hfreed, hreport, fun ho hbind => Bool.eq_false_iff.mp (hfree ho) (hfrozen.mpr hbind)⟩
    once := runs.releases hs₀ hfreed₀
    pages := hs.pages
    entryAfter := fun hf base => by simp [Routine.entryAddress, Routine.hasEntry, hf]
    refusedAfter := fun hf o => Holding.refused_of_freed hf
    nothingAfter := fun hf o b h' hok => by
      obtain ⟨ho, -, hsame⟩ := (Holding.step_of_exec hok).of_freed hs hf
      exact ⟨ho, hsame⟩ }

/-- A routine is filled, grown, sealed, bound twice and let go twice. -/
def sharedByTwo : List Operation :=
  [.setFunctionSize 3, .resize 20, .sealAt 2, .markExecutable, .bind, .bind, .unbind, .unbind]

/-- A new routine on pages of 16 bytes. -/
def onSmallPages : Holding :=
  ⟨.blank (Array.replicate 16 0) 0, ({ pageSize := 16 } : Pages).withMapping⟩

theorem made_onSmallPages : Made { pageSize := 16 } onSmallPages := by
  have hnew : Routine.new 9 { pageSize := 16 } = .ok (onSmallPages.routine, onSmallPages.pages) := by
    rw [Routine.new_eq]
    rfl
  exact .dynamic hnew

/-- That takes two mappings, and each is released. -/
theorem lifeCycle_sharedByTwo : ∃ h, Made { pageSize := 16 } onSmallPages ∧ Runs sharedByTwo onSmallPages h ∧
    onSmallPages.releases sharedByTwo = 1 ∧ h.routine.freed = true ∧ h.pages.released = [1, 0] := by
  have runs : ∃ h, Runs sharedByTwo onSmallPages h ∧ h.routine.freed = true ∧ h.pages.released = [1, 0] :=
    ⟨_, .cons rfl (.cons rfl (.cons rfl (.cons rfl (.cons rfl (.cons rfl (.cons rfl (.cons rfl
      (.nil _)))))))), rfl, rfl⟩
  obtain ⟨h, runs, hf, hreleased⟩ := runs
  have hlife := lifeCycle made_onSmallPages runs
  exact ⟨h, made_onSmallPages, runs, by rw [hlife.once, hf]; rfl, hf, hreleased⟩

/-! ## A counter that wraps -/

theorem Holding.exec_bind_alive (hf : h.routine.freed = false) :
    h.exec .bind = (.ok false, { h with routine := { h.routine.counted with frozen := true } }) := by
  rw [exec_bind, Routine.bind, if_neg (by simp [hf])]
  rfl

/-- Unbinding is rejected if the counter is negative then, and stays so. -/
theorem Holding.exec_unbind_unbound (hn : h.routine.uncounted.refs < 0) :
    h.exec .unbind = (.error (.refusal .unboundUnbind), h.dropped) := by
  rw [exec_unbind, Routine.unbind, if_pos hn]
  rfl

theorem Holding.exec_unbind_last (hn : h.routine.uncounted.refs = 0) :
    h.exec .unbind = (.ok true, h.dropped.released) := by
  rw [exec_unbind, Routine.unbind, if_neg (by omega), if_neg (by omega)]
  rfl

/-- A routine can be bound any number of times. -/
theorem Runs.replicate_bind (n : Nat) (hf : h.routine.freed = false) (hcounter : h.routine.counter = 0) :
    ∃ h', Runs (List.replicate n .bind) h h' ∧ h'.routine.counter = .ofNat n := by
  have runs : ∀ (n : Nat) (h : Holding), h.routine.freed = false →
      ∃ h', Runs (List.replicate n .bind) h h' := by
    intro n
    induction n with
    | zero => exact fun h _ => ⟨h, .nil h⟩
    | succ n ih =>
      intro h hf
      obtain ⟨h', runs⟩ := ih { h with routine := { h.routine.counted with frozen := true } } hf
      exact ⟨h', .cons (Holding.exec_bind_alive hf) runs⟩
  obtain ⟨h', runs⟩ := runs n h hf
  obtain ⟨m, hm, hcount⟩ := runs.counts (n := 0) hcounter
  obtain rfl : m = n := by simpa [List.count_replicate] using hcount
  exact ⟨h', runs, hm⟩

/-- The references of a run do not always fit the counter. After 2³¹ bindings it shows a negative number;
after one more a holder cannot drop its reference; after 2³² + 1 the first one that drops its own takes the
pages away under all others. Nor do they tell the count if an unbinding was rejected in between. -/
theorem lifeCycle_wraps : Made { pageSize := 16 } onSmallPages ∧
    (∃ h, Runs (List.replicate (2 ^ 31) .bind) onSmallPages h ∧ h.routine.refs = -2 ^ 31) ∧
    (∃ h h', Runs (List.replicate (2 ^ 31 + 1) .bind) onSmallPages h ∧
      h.exec .unbind = (.error (.refusal .unboundUnbind), h')) ∧
    (∃ h h', Runs (List.replicate (2 ^ 32 + 1) .bind) onSmallPages h ∧
      h.exec .unbind = (.ok true, h') ∧ h'.routine.freed = true) ∧
    onSmallPages.accepted [.unbind, .bind, .bind, .unbind] = [.bind, .bind, .unbind] ∧
    (onSmallPages.after [.unbind, .bind, .bind, .unbind]).routine.freed = true := by
  have hbound := fun n => Runs.replicate_bind (h := onSmallPages) n rfl rfl
  refine ⟨made_onSmallPages, ?_, ?_, ?_, rfl, rfl⟩
  · obtain ⟨h, runs, hcounter⟩ := hbound (2 ^ 31)
    exact ⟨h, runs, (congrArg Int32.toInt hcounter).trans rfl⟩
  · obtain ⟨h, runs, hcounter⟩ := hbound (2 ^ 31 + 1)
    refine ⟨h, _, runs, Holding.exec_unbind_unbound ?_⟩
    rw [Routine.refs, Routine.uncounted, hcounter]
    exact (show (Int32.ofNat (2 ^ 31 + 1) - 1).toInt < 0 by decide)
  · obtain ⟨h, runs, hcounter⟩ := hbound (2 ^ 32 + 1)
    refine ⟨h, _, runs, Holding.exec_unbind_last ?_, Holding.freed_released⟩
    rw [Routine.refs, Routine.uncounted, hcounter]
    rfl

/-! ## Requests that are rejected -/

variable {e : Fault}

namespace Holding

theorem settle_eq_error {r : Outcome Holding} (hr : h.settle r = (.error e, h')) : h' = h := by
  cases r with
  | error e => exact (Prod.mk.inj hr).2.symm
  | ok x => exact nomatch congrArg Prod.fst hr

theorem exec_unbind_error (hok : h.exec .unbind = (.error e, h')) : h.routine.uncounted.refs < 0 := by
  by_contra hn
  rw [exec_unbind, Routine.unbind, if_neg hn] at hok
  split at hok <;> simp at hok

/-- What every other operation that is rejected leaves. -/
theorem exec_error (hok : h.exec o = (.error e, h')) (ho : o ≠ .unbind) : h' = h := by
  cases o with
  | resize n => exact settle_eq_error (exec_resize n ▸ hok)
  | setFunctionSize n => exact settle_eq_error (exec_setFunctionSize n ▸ hok)
  | sealAt offset => exact settle_eq_error (exec_sealAt offset ▸ hok)
  | markExecutable => exact settle_eq_error (exec_markExecutable ▸ hok)
  | bind => exact settle_eq_error (exec_bind ▸ hok)
  | unbind => exact absurd rfl ho
  | free => exact settle_eq_error (exec_free ▸ hok)

theorem ofNat_count_cons (o : Operation) (os : List Operation) (o' : Operation) :
    Int32.ofNat ((o :: os).count o') = .ofNat ([o].count o') + .ofNat (os.count o') := by
  rw [← List.singleton_append, List.count_append, Int32.ofNat_add]

/-- Every unbinding lowers the counter, accepted or not. -/
theorem counter_after (os : List Operation) (h : Holding) : (h.after os).routine.counter =
    h.routine.counter + .ofNat ((h.accepted os).count .bind) - .ofNat (os.count .unbind) := by
  induction os generalizing h with
  | nil => exact (show h.routine.counter = h.routine.counter + 0 - 0 by grind)
  | cons o os ih =>
    have hafter : h.after (o :: os) = (h.exec o).2.after os := rfl
    rw [hafter, ih, accepted, ofNat_count_cons o os .unbind]
    generalize Int32.ofNat (os.count .unbind) = later
    match hok : h.exec o with
    | (.ok b, h') =>
      dsimp only
      rw [(step_of_exec hok).counter, ofNat_count_cons o (accepted os h') .bind]
      generalize Int32.ofNat ([o].count .bind) = bound, Int32.ofNat ([o].count .unbind) = unbound
      grind
    | (.error e, h') =>
      dsimp only
      by_cases ho : o = .unbind
      · subst ho
        obtain ⟨-, rfl⟩ := Prod.mk.inj (hok.symm.trans (exec_unbind_unbound (exec_unbind_error hok)))
        change h.routine.counter - 1 + _ - later = _ + _ - (1 + later)
        grind
      · have hnone : [o].count .unbind = 0 := List.count_eq_zero.mpr (by simpa using Ne.symm ho)
        rw [exec_error hok ho, hnone]
        change _ = _ - (0 + later)
        rw [Int32.zero_add]

/-- If no unbinding is rejected, the holder sees the run of the accepted operations. -/
theorem runs_accepted (os : List Operation) (h : Holding) (hu : .unbind ∉ h.rejected os) :
    Runs (h.accepted os) h (h.after os) := by
  induction os generalizing h with
  | nil => exact .nil h
  | cons o os ih =>
    have hafter : h.after (o :: os) = (h.exec o).2.after os := rfl
    rw [hafter, accepted]
    rw [rejected] at hu
    match hok : h.exec o with
    | (.ok b, h') =>
      rw [hok] at hu
      exact .cons hok (ih h' hu)
    | (.error e, h') =>
      rw [hok, List.mem_cons, not_or] at hu
      obtain rfl := exec_error hok (Ne.symm hu.1)
      exact ih h' hu.2

end Holding

/-- A rejected operation leaves everything as it was, unless it is unbinding. That is rejected just
where there is no reference, but for the lower end of the counter, from where it jumps to the upper one;
and then it leaves one reference less than none. So a history without rejected unbindings is the run of
what was accepted, and in any history an unbinding counts, rejected or not. -/
theorem rejected_keeps (h : Holding) :
    (∀ o e h', h.exec o = (.error e, h') → o ≠ .unbind → h' = h) ∧
    ((∃ e h', h.exec .unbind = (.error e, h')) ↔ -2 ^ 31 < h.routine.refs ∧ h.routine.refs ≤ 0) ∧
    (-2 ^ 31 < h.routine.refs ∧ h.routine.refs ≤ 0 →
      h.exec .unbind = (.error (.refusal .unboundUnbind), h.dropped) ∧
        h.dropped.routine.refs = h.routine.refs - 1) ∧
    (∀ os, .unbind ∉ h.rejected os → Runs (h.accepted os) h (h.after os)) ∧
    (∀ os, (h.after os).routine.counter =
      h.routine.counter + .ofNat ((h.accepted os).count .bind) - .ofNat (os.count .unbind)) := by
  refine ⟨fun o e h' hok ho => Holding.exec_error hok ho, ⟨?_, fun hn => ?_⟩, fun hn => ⟨?_, ?_⟩,
    fun os => Holding.runs_accepted os h, fun os => Holding.counter_after os h⟩
  · rintro ⟨e, h', hok⟩
    exact Routine.refs_uncounted_neg_iff.mp (Holding.exec_unbind_error hok)
  · exact ⟨_, _, Holding.exec_unbind_unbound (Routine.refs_uncounted_neg_iff.mpr hn)⟩
  · exact Holding.exec_unbind_unbound (Routine.refs_uncounted_neg_iff.mpr hn)
  · exact (Routine.refs_uncounted _).trans (if_neg (Int.ne_of_gt hn.1))

/-- A reference that was dropped before it was there: of two later references the first one that is
dropped takes the pages away under the other. -/
theorem rejected_keeps_pulledAway :
    onSmallPages.rejected [.unbind, .bind, .bind] = [.unbind] ∧
    (onSmallPages.after [.unbind, .bind, .bind]).routine.refs = 1 ∧
    ((onSmallPages.after [.unbind, .bind, .bind]).exec .unbind).2.routine.freed = true ∧
    ((onSmallPages.after [.bind, .bind]).exec .unbind).2.routine.freed = false := by
  have hcounter := (rejected_keeps onSmallPages).2.2.2.2 [.unbind, .bind, .bind]
  refine ⟨by rfl, (congrArg Int32.toInt hcounter).trans (by rfl), by rfl, by rfl⟩

end SsaJit.Native
