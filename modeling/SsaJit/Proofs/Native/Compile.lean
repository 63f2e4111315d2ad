import SsaJit.Native.Engine
import SsaJit.Proofs.Bytes
import SsaJit.Proofs.Native.Pages

/-! Compiling into routines. The first buffer has an estimated size. If the code does not fit, the second
one has the size of the code, rounded up, so that there is no third. Whatever stops a compilation, the
buffers that it took can be given back, each of them once. -/

namespace SsaJit.Native

open Outcome

/-! ## Attempts -/

/-- What is known of a compilation before its first attempt. -/
def Stats.ofOutput (out : Lower.Output) : Stats where
  codeBytes := out.codeSize
  dataBytes := out.code.toList.length - out.codeSize
  frameBytes := out.frameSize.toInt

section attempts

variable {σ : Type} {bodies : BodyManager σ} {f : Func} {code : List UInt8} {n room : Nat} {size : Int}
  {stats : Stats} {s s' s'' s₃ : σ} {e : Fault} {cpu : Lower.Features} {limit : Int}
  {out : Lower.Output}

theorem fill_refused (h : bodies.start f size s = (.error e, s')) :
    fill bodies f code (n + 1) size stats s =
      (.error e, { stats with attempts := stats.attempts + 1 }, s') := by
  rw [fill, h]

theorem fill_roomy (h : bodies.start f size s = (.ok room, s')) (hroom : code.length ≤ room) :
    fill bodies f code (n + 1) size stats s =
      (.ok (), { stats with attempts := stats.attempts + 1 }, bodies.write code s') := by
  rw [fill, h]
  exact if_pos hroom

theorem fill_again (h : bodies.start f size s = (.ok room, s')) (hroom : room < code.length) :
    fill bodies f code (n + 1) size stats s =
      fill bodies f code n code.length { stats with attempts := stats.attempts + 1 }
        (bodies.tooSmall f s') := by
  rw [fill, h]
  exact if_neg (Nat.not_le.mpr hroom)

theorem compile_unfilled (hgen : Lower.generate f cpu limit = .ok out)
    (hfill : fill bodies f out.code.toList maxAttempts 0 (.ofOutput out) s = (.error e, stats, s')) :
    compile bodies cpu limit f s = (.error e, stats, s') := by
  unfold compile
  rw [hgen]
  dsimp only
  rw [← Stats.ofOutput, hfill]

theorem compile_filled {result : Outcome Unit} (hgen : Lower.generate f cpu limit = .ok out)
    (hfill : fill bodies f out.code.toList maxAttempts 0 (.ofOutput out) s = (.ok (), stats, s'))
    (hfinish : bodies.finish f 0 out.code.toList.length s' = (.ok (), s''))
    (hexec : bodies.makeExecutable s'' = (result, s₃)) :
    compile bodies cpu limit f s = (result, stats, s₃) := by
  unfold compile
  rw [hgen]
  dsimp only
  rw [← Stats.ofOutput, hfill]
  dsimp only
  rw [hfinish]
  change ((bodies.makeExecutable s'').1, stats, (bodies.makeExecutable s'').2) = _
  rw [hexec]

end attempts

/-! ## Buffers -/

/-- A routine that was given its pages and nothing else. -/
def Routine.blank (buf : Array UInt8) (id : Nat) : Routine :=
  { buffer := some buf, mapping := id, dynamic := true }

@[simp] theorem Routine.length_blank (buf : Array UInt8) (id : Nat) :
    (Routine.blank buf id).length = buf.size := rfl

theorem Routine.new_eq (size : Int) (p : Pages) : Routine.new size p =
    match p.refusal (p.codeRoom (.ofInt size)) with
    | some reason => .fail (.noted "routine"
        (.allocation (decimal (p.codeRoom (.ofInt size)).toInt ++ " bytes: " ++ reason)))
    | none => .ok (.blank (Array.replicate (p.codeRoom (.ofInt size)).toInt.toNat 0) p.mapped,
        p.withMapping) := by
  rw [Routine.new, Pages.allocateCode_eq]
  cases p.refusal (p.codeRoom (.ofInt size)) with
  | some reason => rfl
  | none => rfl

/-- A blank routine that is to grow gets a new mapping, and its old one is released. -/
theorem Routine.resize_blank {buf : Array UInt8} {id : Nat} {size : Int} (p : Pages)
    (hsize : (buf.size : Int) < size) : (Routine.blank buf id).resize size p =
    match p.refusal (p.codeRoom (.ofInt size)) with
    | some reason => .fail (.noted "routine: resize"
        (.allocation (decimal (p.codeRoom (.ofInt size)).toInt ++ " bytes: " ++ reason)))
    | none => .ok (.blank (buf ++ Array.replicate ((p.codeRoom (.ofInt size)).toInt.toNat - buf.size) 0)
        p.mapped, p.withMapping.unmap id) := by
  have hgrow : ¬ size ≤ ((Routine.blank buf id).length : Int) := Int.not_le.mpr hsize
  have hmutable : (Routine.blank buf id).mutable "Resize" = .ok () := rfl
  rw [Routine.resize, hmutable, ok_bind, if_neg (by simp [Routine.blank]), if_neg hgrow,
    Pages.allocateCode_eq]
  cases p.refusal (p.codeRoom (.ofInt size)) with
  | some reason => rfl
  | none => rfl

/-- A routine in a mapping of its own that was never bound and is not executable yet. -/
structure Routine.Owned (id : Nat) (r : Routine) : Prop where
  mapping : r.mapping = id
  dynamic : r.dynamic = true
  frozen : r.frozen = false
  freed : r.freed = false
  executable : r.executable = false

/-- A routine that holds code and starts with it. -/
structure Routine.Holds (code : List UInt8) (r : Routine) : Prop where
  isSealed : r.isSealed = true
  bytes : r.bytes.toList.take code.length = code
  size : r.size = code.length
  entry : r.entry = 0
  nonempty : 0 < r.length

namespace RoutineManager

variable {m : RoutineManager} {p : Pages} {f : Func} {r : Routine} {buf : Array UInt8} {id n : Nat}
  {code : List UInt8} {stats : Stats}

/-- The bytes that are mapped for the first buffer. -/
def firstRoom (m : RoutineManager) (f : Func) : Int64 :=
  let estimate : Int := (f.numInstructions * m.average : Nat)
  m.pages.codeRoom (m.pages.roundUp (.ofInt (if estimate < 1 then 1 else estimate)))

/-- The bytes that are mapped for the second buffer. -/
def exactRoom (m : RoutineManager) (length : Nat) : Int64 := m.pages.roundUp (.ofInt length)

/-- A buffer that the system refuses. -/
def refused (m : RoutineManager) (f : Func) (step : String) (room : Int64) : Option Failure :=
  (m.pages.refusal room).map fun reason =>
    .noted ("jit: function body for " ++ f.name)
      (.noted step (.allocation (decimal room.toInt ++ " bytes: " ++ reason)))

/-- The change of protection that the system refuses. -/
def unprotected (m : RoutineManager) : Option Failure :=
  m.pages.protection.map fun reason => .noted "routine" (.allocation ("mprotect rx: " ++ reason))

/-- Why there is no room for code of some length, if there is none. -/
def unroomed (m : RoutineManager) (f : Func) (length : Nat) : Option Failure :=
  (m.refused f "routine" (m.firstRoom f)).or <|
    if length ≤ (m.firstRoom f).toInt.toNat then none
    else m.refused f "routine: resize" (m.exactRoom length)

/-- What stops the compilation of a function to code of some length, if anything does. -/
def obstacle (m : RoutineManager) (f : Func) (length : Nat) : Option Failure :=
  (m.unroomed f length).or m.unprotected

/-- The first buffer. -/
theorem start_first (hm : m.current = none) : start f 0 m =
    match m.refused f "routine" (m.firstRoom f) with
    | some e => (.error (.failure e), m)
    | none => (.ok (m.firstRoom f).toInt.toNat, { m with
        current := some (.blank (Array.replicate (m.firstRoom f).toInt.toNat 0) m.pages.mapped)
        pages := m.pages.withMapping }) := by
  simp only [start, hm, Int.le_refl, if_true, Routine.new_eq, Int64.ofInt_toInt]
  rw [refused, firstRoom]
  cases m.pages.refusal (m.pages.codeRoom (m.pages.roundUp (.ofInt _))) with
  | some reason => rfl
  | none =>
    dsimp only
    rw [Routine.length_blank, Array.size_replicate]
    rfl

theorem le_exactRoom (hp : m.pages.PowerOfTwo)
    (hfit : n + m.pages.pageSize.toInt ≤ 9223372036854775808) : (n : Int) ≤ (m.exactRoom n).toInt := by
  have hpos := hp.pos
  have hn : (Int64.ofInt n).toInt = n := Int64.toInt_ofInt_of_le (by omega) (by omega)
  have hle := hp.le_roundUp (n := .ofInt n) (by omega)
  rwa [hn] at hle

/-- The second buffer. -/
theorem start_again (hp : m.pages.PowerOfTwo) (hm : m.current = some (.blank buf id)) (hsize : buf.size < n)
    (hfit : n + m.pages.pageSize.toInt ≤ 9223372036854775808) : start f n m =
    match m.refused f "routine: resize" (m.exactRoom n) with
    | some e => (.error (.failure e), { m with current := none, pages := m.pages.unmap id })
    | none => (.ok (m.exactRoom n).toInt.toNat, { m with
        current := some (.blank (buf ++ Array.replicate ((m.exactRoom n).toInt.toNat - buf.size) 0)
          m.pages.mapped)
        pages := m.pages.withMapping.unmap id }) := by
  have hle : (n : Int) ≤ (m.exactRoom n).toInt := le_exactRoom hp hfit
  have hroom : m.pages.codeRoom (.ofInt (m.exactRoom n).toInt) = m.exactRoom n := by
    rw [Int64.ofInt_toInt]
    exact hp.codeRoom_of_dvd (hp.dvd_roundUp _) (by omega)
  have hgrown : (m.exactRoom n).toInt = (m.pages.roundUp (.ofInt n)).toInt := rfl
  unfold start
  dsimp only
  rw [if_neg (by omega : ¬ (n : Int) ≤ 0), if_neg (by omega : ¬ (n : Int) < 1), hm, ← hgrown]
  dsimp only
  rw [Routine.resize_blank m.pages (by omega), hroom, refused]
  cases m.pages.refusal (m.exactRoom n) with
  | some reason =>
    rw [discard, hm]
    rfl
  | none =>
    dsimp only
    rw [Routine.length_blank, Array.size_append, Array.size_replicate, Nat.add_sub_cancel' (by omega)]
    rfl

/-! ## Room for the code -/

/-- There is room for code in the one buffer that was mapped since `p` and not released. -/
structure Roomed (p : Pages) (length : Nat) (m : RoutineManager) : Prop where
  routine : ∃ buf id, m.current = some (.blank buf id) ∧ 0 < buf.size ∧ length ≤ buf.size ∧
    p.Settled m.pages [id]
  protection : m.pages.protection = p.protection

/-- Nothing is under construction, and all that was mapped since `p` is released. -/
structure Cleared (p : Pages) (m : RoutineManager) : Prop where
  current : m.current = none
  pages : p.Settled m.pages []

/-- A second buffer has room for the code. -/
theorem fill_second (hp : m.pages.PowerOfTwo) (hm : m.current = some (.blank buf id))
    (hsize : buf.size < code.length) (hpages : p.Settled m.pages [id]) (hmapped : p.mapped ≤ m.pages.mapped)
    (hprotection : m.pages.protection = p.protection)
    (hfit : code.length + m.pages.pageSize.toInt ≤ 9223372036854775808) :
    ∃ result m', fill bodies f code (n + 1) code.length stats m =
        (result, { stats with attempts := stats.attempts + 1 }, m') ∧
      match m.refused f "routine: resize" (m.exactRoom code.length) with
      | some e => result = .error (.failure e) ∧ Cleared p m'
      | none => result = .ok () ∧ ∃ m₁, m' = m₁.write code ∧ Roomed p code.length m₁ := by
  have hstart : bodies.start f code.length m = _ := start_again (f := f) hp hm hsize hfit
  have hle : code.length ≤ (m.exactRoom code.length).toInt.toNat := by
    have hle := le_exactRoom hp hfit
    omega
  cases hrefused : m.refused f "routine: resize" (m.exactRoom code.length) with
  | some e =>
    rw [hrefused] at hstart
    refine ⟨_, _, fill_refused hstart, rfl, rfl, ?_⟩
    have hunmap := hpages.unmap (List.mem_singleton.mpr rfl)
    rwa [List.erase_cons_head] at hunmap
  | none =>
    rw [hrefused] at hstart
    refine ⟨_, _, fill_roomy hstart hle, rfl, _, rfl, ⟨_, _, rfl, ?_, ?_, ?_⟩, hprotection⟩
    · rw [Array.size_append, Array.size_replicate]
      omega
    · rw [Array.size_append, Array.size_replicate]
      omega
    · have hne : m.pages.mapped ≠ id := Nat.ne_of_gt (hpages.fresh.2 id (List.mem_singleton.mpr rfl)).2
      have hunmap := (hpages.withMapping hmapped).unmap (List.mem_cons_of_mem _ (List.mem_singleton.mpr rfl))
      rwa [List.erase_cons_tail (by simpa using hne), List.erase_cons_head] at hunmap

/-- One buffer, or a second one in its place, has room for the code. -/
theorem fill_spec (f : Func) (stats : Stats) (hp : m.pages.PowerOfTwo) (hm : m.current = none)
    (hfit : code.length + m.pages.pageSize.toInt ≤ 9223372036854775808) :
    ∃ result stats' m', fill bodies f code maxAttempts 0 stats m = (result, stats', m') ∧
      stats'.attempts ≤ stats.attempts + 2 ∧
      match m.unroomed f code.length with
      | some e => result = .error (.failure e) ∧ Cleared m.pages m'
      | none => result = .ok () ∧ ∃ m₁, m' = m₁.write code ∧ Roomed m.pages code.length m₁ := by
  have hstart : bodies.start f 0 m = _ := start_first (f := f) hm
  have hpages : m.pages.Settled m.pages.withMapping [m.pages.mapped] :=
    (Pages.Settled.refl m.pages).withMapping (Nat.le_refl _)
  unfold unroomed
  cases hfirst : m.refused f "routine" (m.firstRoom f) with
  | some e =>
    rw [hfirst] at hstart
    exact ⟨_, _, _, fill_refused hstart, Nat.le_succ _, rfl, hm, .refl _⟩
  | none =>
    rw [hfirst] at hstart
    rw [Option.none_or]
    by_cases hle : code.length ≤ (m.firstRoom f).toInt.toNat
    · have hroom : 0 < (m.firstRoom f).toInt := hp.codeRoom_pos (hp.dvd_roundUp _)
      rw [if_pos hle]
      refine ⟨_, _, _, fill_roomy hstart hle, Nat.le_succ _, rfl, _, rfl, ⟨_, _, rfl, ?_, ?_, hpages⟩, rfl⟩
      · rw [Array.size_replicate]
        omega
      · rwa [Array.size_replicate]
    · rw [if_neg hle, maxAttempts, fill_again hstart (Nat.not_le.mp hle)]
      have hsmall : (Array.replicate (m.firstRoom f).toInt.toNat (0 : UInt8)).size < code.length := by
        rw [Array.size_replicate]
        omega
      obtain ⟨result, m', hfill, hresult⟩ := fill_second (p := m.pages) (f := f) (n := 1)
        (m := tooSmall f { m with current := some (.blank _ m.pages.mapped), pages := m.pages.withMapping })
        hp rfl hsmall hpages (Nat.le_succ _) rfl hfit
      exact ⟨_, _, _, hfill, Nat.le_refl _, hresult⟩

/-! ## Installed code -/

/-- Code written into a blank routine that has room for it, and the routine sealed. -/
theorem finish_spec (f : Func) (hm : m.current = some (.blank buf id)) (hpos : 0 < buf.size)
    (hcode : code.length ≤ buf.size) : ∃ r, finish f 0 code.length (m.write code) =
      (.ok (), { m with current := some r }) ∧ r.Holds code ∧ r.Owned id := by
  set put := overwritten buf 0 code with hput
  have hsize : put.size = buf.size := size_overwritten buf 0 code
  have hwrite : m.write code = { m with current := some (.blank put id) } := by
    have hwritten : (Routine.blank buf id).write 0 code = .ok (.blank put id) := by
      rw [Routine.write, if_neg (by rw [Routine.length_blank]; omega)]
      rfl
    rw [write, hm, Option.map_some, hwritten]
    rfl
  have hset : (Routine.blank put id).setFunctionSize code.length =
      .ok { Routine.blank put id with size := code.length } := by
    have hmutable : (Routine.blank put id).mutable "SetFunctionSize" = .ok () := rfl
    rw [Routine.setFunctionSize, hmutable, ok_bind, if_neg (by rw [Routine.length_blank]; omega)]
    rfl
  have hseal : ({ Routine.blank put id with size := code.length } : Routine).sealAt 0 =
      .ok { Routine.blank put id with size := code.length, isSealed := true } := by
    have hmutable :
        ({ Routine.blank put id with size := code.length } : Routine).mutable "Seal" = .ok () := rfl
    have hlength : ({ Routine.blank put id with size := code.length } : Routine).length = buf.size := hsize
    rw [Routine.sealAt, hmutable, ok_bind, if_neg (by rw [hlength]; omega)]
    rfl
  have hroom : 0 < put.size := Nat.lt_of_lt_of_eq hpos hsize.symm
  refine ⟨{ Routine.blank put id with size := code.length, isSealed := true }, ?_,
    ⟨rfl, ?_, rfl, rfl, hroom⟩, ⟨rfl, rfl, rfl, rfl, rfl⟩⟩
  · rw [finish, hwrite]
    dsimp only
    rw [hset]
    dsimp only
    rw [hseal]
  · refine List.ext_getElem? fun k => ?_
    have hbytes :
        ({ Routine.blank put id with size := code.length, isSealed := true } : Routine).bytes = put := rfl
    rw [hbytes, List.getElem?_take, Array.getElem?_toList]
    split
    · rw [hput, getElem?_overwritten, if_pos (by simp; omega)]
      rfl
    · rw [List.getElem?_eq_none (by omega)]

theorem holds_executable (h : r.Holds code) : ({ r with executable := true } : Routine).Holds code :=
  ⟨h.isSealed, h.bytes, h.size, h.entry, h.nonempty⟩

/-- The protection of a routine that holds code. -/
theorem makeExecutable_spec (hm : m.current = some r) (hr : r.Owned id) (hcode : r.Holds code) :
    makeExecutable m =
      match m.unprotected with
      | some e => (.error (.failure e), m)
      | none => (.ok (), { m with current := some { r with executable := true } }) := by
  have hmutable : r.mutable "MarkExecutable" = .ok () := by
    rw [Routine.mutable, hr.frozen, hr.freed]
    rfl
  rw [makeExecutable, hm]
  dsimp only
  rw [Routine.markExecutable, hmutable, ok_bind, if_neg (by simp [hcode.isSealed]),
    if_neg (by simp [hr.dynamic, hr.executable]), Pages.protect, if_neg (Nat.ne_of_gt hcode.nonempty),
    unprotected]
  cases m.pages.protection with
  | some reason => rfl
  | none => rfl

/-- A routine that was never bound is given back with its pages. -/
theorem discard_spec (hm : m.current = some r) (hr : r.Owned id) :
    m.discard = .ok { m with current := none, pages := m.pages.unmap id } := by
  rw [discard, hm]
  dsimp only
  rw [Routine.free, if_neg (by simp [hr.frozen]), Routine.release, if_neg (by simp [hr.freed]),
    if_pos hr.dynamic, hr.mapping]
  rfl

theorem obstacle_none (hpages : ∀ n, m.pages.refusal n = none) (hprotection : m.pages.protection = none) :
    m.obstacle f n = none := by
  simp [obstacle, unroomed, refused, unprotected, hpages, hprotection]

theorem obstacle_noted {e : Failure} (h : m.obstacle f n = some e) :
    ∃ context inner, e = .noted context inner := by
  have hrefused : ∀ {step room}, m.refused f step room = some e →
      ∃ context inner, e = .noted context inner :=
    fun he => by
      obtain ⟨reason, -, rfl⟩ := Option.map_eq_some_iff.mp he
      exact ⟨_, _, rfl⟩
  rw [obstacle, Option.or_eq_some_iff, unroomed, Option.or_eq_some_iff] at h
  rcases h with (hfirst | ⟨-, hexact⟩) | ⟨-, hprotection⟩
  · exact hrefused hfirst
  · split at hexact
    · cases hexact
    · exact hrefused hexact
  · obtain ⟨reason, -, rfl⟩ := Option.map_eq_some_iff.mp hprotection
    exact ⟨_, _, rfl⟩

/-- A compilation, once its code is generated, ends in one of two ways. -/
theorem compile_spec {cpu : Lower.Features} {limit : Int} {out : Lower.Output}
    (hgen : Lower.generate f cpu limit = .ok out) (hm : m.current = none) (hp : m.pages.PowerOfTwo)
    (hfit : out.code.size + m.pages.pageSize.toInt ≤ 9223372036854775808) :
    ∃ result stats m', compile bodies cpu limit f m = (result, stats, m') ∧ stats.attempts ≤ 2 ∧
      match m.obstacle f out.code.size with
      | none => result = .ok () ∧ ∃ r, m'.current = some r ∧ r.Holds out.code.toList ∧
          r.executable = true ∧ m.pages.Settled m'.pages [r.mapping]
      | some e => result = .error (.failure e) ∧ ∃ m'', m'.discard = .ok m'' ∧ Cleared m.pages m'' := by
  rw [← Array.length_toList] at hfit ⊢
  obtain ⟨result, stats, m₁, hfill, hattempts, hresult⟩ := fill_spec f (.ofOutput out) hp hm hfit
  rw [obstacle]
  cases hunroomed : m.unroomed f out.code.toList.length with
  | some e =>
    rw [hunroomed] at hresult
    obtain ⟨rfl, hcleared⟩ := hresult
    refine ⟨_, _, _, compile_unfilled hgen hfill, hattempts, rfl, m₁, ?_, hcleared⟩
    rw [discard, hcleared.current]
  | none =>
    rw [hunroomed] at hresult
    obtain ⟨rfl, m₂, rfl, ⟨buf, id, hcurrent, hpos, hroom, hsettled⟩, hprotection⟩ := hresult
    obtain ⟨r, hfinish, hholds, howned⟩ := finish_spec f hcurrent hpos hroom
    have hexec := makeExecutable_spec (m := { m₂ with current := some r }) rfl howned hholds
    have hunprotected : ({ m₂ with current := some r } : RoutineManager).unprotected = m.unprotected := by
      rw [unprotected, unprotected, hprotection]
    rw [hunprotected] at hexec
    rw [Option.none_or]
    cases hprotected : m.unprotected with
    | some e =>
      rw [hprotected] at hexec
      refine ⟨_, _, _, compile_filled hgen hfill hfinish hexec, hattempts, rfl, _,
        discard_spec rfl howned, rfl, ?_⟩
      have hunmap := hsettled.unmap (List.mem_singleton.mpr rfl)
      rwa [List.erase_cons_head] at hunmap
    | none =>
      rw [hprotected] at hexec
      refine ⟨_, _, _, compile_filled hgen hfill hfinish hexec, hattempts, rfl, _, rfl,
        holds_executable hholds, rfl, ?_⟩
      rwa [howned.mapping]

/-- Compiling into a fresh routine asks for a buffer at most twice, and never finds that two were not
enough. If the system grants the pages and their protection, the routine holds the code and is executable.
What the system refuses is the answer, and once the routine manager has discarded what it holds, every
mapping that was made is released, each of them once. -/
theorem compile_into_routine {cpu : Lower.Features} {limit : Int} {out : Lower.Output}
    (hgen : Lower.generate f cpu limit = .ok out) (hm : m.current = none) (hp : m.pages.PowerOfTwo)
    (hfit : out.code.size + m.pages.pageSize.toInt ≤ 9223372036854775808) :
    ∃ result stats m', compile bodies cpu limit f m = (result, stats, m') ∧ stats.attempts ≤ 2 ∧
      (∀ name bytes attempts, result ≠ .error (.failure (.bodyTooSmall name bytes attempts))) ∧
      ((∀ n, m.pages.refusal n = none) → m.pages.protection = none → result = .ok ()) ∧
      match m.obstacle f out.code.size with
      | none => result = .ok () ∧ ∃ r, m'.current = some r ∧ r.Holds out.code.toList ∧
          r.executable = true ∧ m.pages.Settled m'.pages [r.mapping]
      | some e => result = .error (.failure e) ∧ ∃ m'', m'.discard = .ok m'' ∧ Cleared m.pages m'' := by
  obtain ⟨result, stats, m', hcompile, hattempts, hresult⟩ := compile_spec hgen hm hp hfit
  refine ⟨result, stats, m', hcompile, hattempts, fun name bytes attempts hsmall => ?_,
    fun hpages hprotection => ?_, hresult⟩
  · cases hobstacle : m.obstacle f out.code.size with
    | none =>
      rw [hobstacle] at hresult
      rw [hresult.1] at hsmall
      cases hsmall
    | some e =>
      obtain ⟨context, inner, rfl⟩ := obstacle_noted hobstacle
      rw [hobstacle] at hresult
      rw [hresult.1] at hsmall
      cases hsmall
  · rw [obstacle_none hpages hprotection] at hresult
    exact hresult.1

/-- A function that only returns. -/
def idle : Func where
  name := "idle"
  ret := .void
  params := []
  values := #[]
  blocks := #[{ values := [], kind := .ret }]
  layout := [0]
  paramValues := []

/-- Its six bytes do not fit the first page of four. Where protection is refused, both buffers are given
back. -/
theorem compile_into_routine_idle :
    (∃ stats m' r, compile bodies {} 0 idle { pages := { pageSize := 4 }, average := 1 } =
      (.ok (), stats, m') ∧ stats.attempts ≤ 2 ∧ m'.current = some r ∧
      r.Holds [0x55, 0x48, 0x89, 0xE5, 0xC9, 0xC3] ∧ r.executable = true) ∧
    ∃ stats m' m'', compile bodies {} 0 idle
        { pages := { pageSize := 4, protection := some "permission denied" }, average := 1 } =
      (.error (.failure (.noted "routine" (.allocation "mprotect rx: permission denied"))), stats, m') ∧
      m'.discard = .ok m'' ∧ Cleared { pageSize := 4 } m'' := by
  have hgen : Lower.generate idle {} 0 = .ok ⟨#[0x55, 0x48, 0x89, 0xE5, 0xC9, 0xC3], 6, 0⟩ := rfl
  constructor
  · obtain ⟨result, stats, m', hcompile, hattempts, -, -, hend⟩ := compile_into_routine
      (m := { pages := { pageSize := 4 }, average := 1 }) hgen rfl ⟨2, rfl⟩ (by decide)
    obtain ⟨rfl, r, hcurrent, hholds, hexecutable, -⟩ := hend
    exact ⟨stats, m', r, hcompile, hattempts, hcurrent, hholds, hexecutable⟩
  · obtain ⟨result, stats, m', hcompile, -, -, -, hend⟩ := compile_into_routine
      (m := { pages := { pageSize := 4, protection := some "permission denied" }, average := 1 })
      hgen rfl ⟨2, rfl⟩ (by decide)
    obtain ⟨rfl, m'', hdiscard, hcurrent, hpages⟩ := hend
    exact ⟨stats, m', m'', hcompile, hdiscard, hcurrent, hpages.fresh, hpages.live, hpages.released⟩

end RoutineManager

end SsaJit.Native
