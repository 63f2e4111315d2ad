import SsaJit.Proofs.Outcome
import SsaJit.Proofs.Graph.Tree
import SsaJit.Proofs.Ssa.Form

/-! The verifier finds nothing exactly in functions whose form is good in the sense of
`SsaJit.Proofs.Ssa.Form`. -/

namespace SsaJit.Func

variable {f : Func} {b c d : BlockId} {v u : ValueId} {o : Operand}

/-! ## The graph -/

namespace Flow

theorem wired (h : f.Flow) : f.Wired := ⟨h.layout_ne, h.lt, h.succs_mem, h.edges⟩

theorem start_mem (h : f.Flow) : f.start ∈ f.layout := h.wired.start_mem

theorem entry_eq (h : f.Flow) : f.entry = .ok f.start := h.wired.entry_eq

theorem reached_mem (h : f.Flow) (hb : f.Reached b) : b ∈ f.layout := h.wired.reach_mem hb

theorem mem_preds_iff (h : f.Flow) (hb : b ∈ f.layout) (hc : c ∈ f.layout) :
    b ∈ (f.block c).preds ↔ c ∈ f.next b := by
  rw [← List.count_pos_iff, ← h.edges b hb c hc, List.count_pos_iff]
  rfl

theorem domTree (h : f.Flow) : ∃ t, f.domTree = .ok t ∧ t.Of f f.start := h.wired.domTree

end Flow

/-! ## Places in blocks -/

theorem idxOf_lt_iff_sublist {l : List ValueId} {i : Nat} (hl : l.Nodup) (hu : l[i]? = some u)
    (hv : v ∈ l) : l.idxOf v < i ↔ [v, u].Sublist l := by
  induction l generalizing i with
  | nil => simp at hv
  | cons x l ih =>
    obtain ⟨hx, hl⟩ := List.nodup_cons.mp hl
    cases i with
    | zero =>
      obtain rfl : x = u := by simpa using hu
      simp only [Nat.not_lt_zero, false_iff]
      intro hs
      cases hs with
      | cons _ hs => exact hx (hs.subset (by simp))
      | cons_cons _ hs => exact hx (hs.subset (by simp))
    | succ i =>
      have hu' : l[i]? = some u := by simpa using hu
      have hul : u ∈ l := List.mem_of_getElem? hu'
      by_cases hxv : x = v
      · subst hxv
        simp only [List.idxOf_cons_self, Nat.zero_lt_succ, true_iff]
        exact .cons_cons _ (List.singleton_sublist.mpr hul)
      · have hvl : v ∈ l := by simpa [Ne.symm hxv] using hv
        rw [List.idxOf_cons_ne _ hxv, Nat.succ_lt_succ_iff, ih hl hu' hvl]
        constructor
        · exact fun hs => hs.cons _
        · intro hs
          cases hs with
          | cons _ hs => exact hs
          | cons_cons _ hs => exact absurd rfl hxv

theorem Listing.lt (h : f.Listing) (hb : b ∈ f.layout) (hv : v ∈ (f.block b).values) :
    v < f.numValues := by
  have hblock := (h.listed v b).mpr ⟨hb, hv⟩
  rcases Nat.lt_or_ge v f.numValues with hlt | hge
  · exact hlt
  · rw [value_of_le hge] at hblock
    cases hblock

theorem Listing.unique (h : f.Listing) (hb : b ∈ f.layout) (hc : c ∈ f.layout)
    (hvb : v ∈ (f.block b).values) (hvc : v ∈ (f.block c).values) : b = c := by
  have h₁ := (h.listed v b).mpr ⟨hb, hvb⟩
  have h₂ := (h.listed v c).mpr ⟨hc, hvc⟩
  exact Option.some.inj (h₁.symm.trans h₂)

/-- The places of the values of a block, put into a table. -/
def recorded (f : Func) (a : Array Nat) (b : BlockId) : Array Nat :=
  (f.block b).values.zipIdx.foldl (fun a x => a.setIfInBounds x.1 x.2) a

theorem size_foldl_places (l : List (ValueId × Nat)) (a : Array Nat) :
    (l.foldl (fun (a : Array Nat) (x : ValueId × Nat) => a.setIfInBounds x.1 x.2) a).size =
      a.size := by
  induction l generalizing a with
  | nil => rfl
  | cons x l ih => rw [List.foldl_cons, ih, Array.size_setIfInBounds]

/-- What a block says of the place of a value is so in the end, if no other block changes it. -/
theorem positions_induct {P : Nat → Prop} (hb : b ∈ f.layout)
    (hset : ∀ a : Array Nat, a.size = f.numValues → P ((f.recorded a b).getD v 0))
    (hkeep : ∀ c ∈ f.layout, ∀ a : Array Nat, a.size = f.numValues → P (a.getD v 0) →
      P ((f.recorded a c).getD v 0)) : P (f.positions.getD v 0) := by
  suffices ∀ (l : List BlockId) (a : Array Nat), (∀ c ∈ l, c ∈ f.layout) → a.size = f.numValues →
      b ∈ l ∨ P (a.getD v 0) → P ((l.foldl f.recorded a).getD v 0) from
    this f.layout _ (fun _ hc => hc) (by simp) (.inl hb)
  intro l
  induction l with
  | nil => exact fun a _ _ hor => hor.resolve_left List.not_mem_nil
  | cons c l ih =>
    intro a hl hsize hor
    refine ih _ (fun x hx => hl x (List.mem_cons_of_mem _ hx))
      ((size_foldl_places _ a).trans hsize) ?_
    rcases hor with hmem | hP
    · rcases List.mem_cons.mp hmem with rfl | hmem
      · exact .inr (hset a hsize)
      · exact .inl hmem
    · exact .inr (hkeep c (hl c List.mem_cons_self) a hsize hP)

/-- The place that is recorded for a value is its place in the block that lists it. -/
theorem positions_eq (h : f.Listing) (hb : b ∈ f.layout) (hv : v ∈ (f.block b).values) :
    f.positions.getD v 0 = (f.block b).values.idxOf v := by
  have hplace : ∀ c ∈ f.layout, ∀ a : Array Nat, a.size = f.numValues → (f.recorded a c).getD v 0 =
      if v ∈ (f.block c).values then (f.block c).values.idxOf v else a.getD v 0 := by
    intro c hc a hsize
    have hplaces := places_foldl id 0 (f.block c).values 0 a hsize (h.nodup c hc)
      (fun x hx => h.lt hc hx) v
    simpa only [recorded, id, Nat.zero_add] using hplaces
  refine positions_induct (P := (· = (f.block b).values.idxOf v)) hb (fun a hsize => ?_)
    fun c hc a hsize hP => ?_
  · rw [hplace b hb a hsize, if_pos hv]
  · rw [hplace c hc a hsize]
    split
    · next hin => rw [h.unique hc hb hin hv]
    · exact hP

/-! ## The type rules, by the kind of the value -/

namespace Checker

variable (c : Checker) (id : ValueId) (x : Value)

/-- The type of an operand. -/
def argType (i : Nat) : Outcome Ty := return (← c.func.argument x i).type

/-- The finding that a rule is broken, unless it holds. -/
def require (ok : Bool) (r : TypeRule) : Findings := do
  if ok then return [] else return [.type (← c.func.instrText id x) r]

/-- Operands in a wrong number are reported, and then not looked at. -/
def counted (n : Nat) (k : Findings) : Findings := do
  if x.args.length ≠ n then return [.operandCount (← c.func.instrText id x) n] else k

def laneInside (t : Ty) : Bool := 0 ≤ x.aux.toInt && x.aux.toInt < t.numLanes

def binaryRule : Findings :=
  c.counted id x 2 do
    let same ← both (return (← c.argType x 0) == x.type) (return (← c.argType x 1) == x.type)
    let kind ← if x.op.isFloatBinary then c.require id x x.type.isFloat .floatOperation
      else c.require id x x.type.isInt .integerOperation
    return (← c.require id x same .operandTypes) ++ kind

def conversionRule : Findings :=
  c.counted id x 1 do
    let source ← c.argType x 0
    match castRule? x.op source x.type with
    | some r => return [.cast (← c.func.instrText id x) r source x.type]
    | none => return []

def unaryRule : Findings :=
  c.counted id x 1 do
    c.require id x (← both (return x.type.isFloat) (return (← c.argType x 0) == x.type)) .floatUnary

def compareRule : Findings :=
  c.counted id x 2 do
    let a ← c.argType x 0
    let operands ← c.require id x (a == (← c.argType x 1)) .compareOperands
    let result ← c.require id x (x.type == (← a.maskType)) .compareResult
    let cls ← c.require id x (x.predicate.isFloat == (x.op == .fcmp)) .predicateClass
    let kind ← if x.op == .icmp then c.require id x (a.isInt || a.isPtr) .integerCompare
      else c.require id x a.isFloat .floatCompare
    return operands ++ result ++ cls ++ kind

def allocaRule : Findings := do
  let place ← c.require id x (x.block == some (← c.func.entry)) .allocaBlock
  return place ++ (← c.require id x (x.type == .ptr && 0 < x.aux.toInt) .allocaShape)

def gepRule : Findings :=
  c.counted id x 2 do
    let index : Outcome Bool := do
      let t ← c.argType x 1
      return t.isInt && !t.isVector
    c.require id x ((← both (return (← c.argType x 0) == .ptr) index) && x.type == .ptr) .address

def extractRule : Findings :=
  c.counted id x 1 do
    let a ← c.argType x 0
    c.require id x (a.isVector && laneInside x a && x.type == a.elemType) .extract

def insertRule : Findings :=
  c.counted id x 2 do
    let a ← c.argType x 0
    let elem ← both (return a.isVector && x.type == a) (return (← c.argType x 1) == a.elemType)
    c.require id x (elem && laneInside x a) .insert

def shuffleRule : Findings :=
  c.counted id x 2 do
    let a ← c.argType x 0
    let mask := x.mask.getD []
    let operands ← c.require id x (← both (return a.isVector) (return (← c.argType x 1) == a))
      .shuffleOperands
    let result ← c.require id x (x.type.isVector && x.type.elemKind == a.elemKind &&
      mask.length == x.type.numLanes) .shuffleResult
    let selectors ← mask.mapM fun (m : Int) =>
      c.require id x (m < 2 * a.numLanes) .shuffleSelector
    return operands ++ result ++ selectors.flatten

def selectRule : Findings :=
  c.counted id x 3 do
    let cond ← c.argType x 0
    let arms ← c.require id x
      (← both (return (← c.argType x 1) == x.type) (return (← c.argType x 2) == x.type)) .selectArms
    return arms ++ (← c.require id x (cond == .i1 ||
      (cond.isVector && cond.isInt && cond.numLanes == x.type.numLanes)) .selectCondition)

def callRule : Findings := do
  c.require id x (← both (return 1 ≤ x.args.length) (return (← c.argType x 0) == .ptr)) .callTarget

/-- What is checked of a value is the rule of its kind. -/
theorem types_eq : c.types id x =
    if x.op.isBinary then c.binaryRule id x
    else if x.op.isCast then c.conversionRule id x
    else match x.op with
    | .fneg | .fsqrt => c.unaryRule id x
    | .icmp | .fcmp => c.compareRule id x
    | .alloca => c.allocaRule id x
    | .load => c.counted id x 1 do c.require id x ((← c.argType x 0) == .ptr) .load
    | .store => c.counted id x 2 do
      c.require id x ((← c.argType x 1) == .ptr && x.type == .void) .store
    | .gep => c.gepRule id x
    | .extract => c.extractRule id x
    | .insert => c.insertRule id x
    | .shuffle => c.shuffleRule id x
    | .select => c.selectRule id x
    | .call => c.callRule id x
    | .copy => c.counted id x 1 do c.require id x ((← c.argType x 0) == x.type) .copy
    | .const => c.require id x
        (!x.type.isVector || (x.lanes.getD []).length == x.type.numLanes) .constantLanes
    | .globalAddr => c.require id x (x.global.isSome && x.type == .ptr) .globalAddress
    | _ => .ok [] := by
  unfold types
  split
  · rfl
  split
  · rfl
  cases hop : x.op
  case icmp | fcmp =>
    unfold compareRule
    rw [hop]
    rfl
  all_goals rfl

end Checker

/-! ## Rules without findings -/

section types

variable {c : Checker} {id : ValueId} {x : Value} {ts : List Ty} {t : Ty}

theorem argType_of {i : Nat} (hts : List.Forall₂ c.func.OfType x.args ts) (hi : ts[i]? = some t) :
    c.argType x i = .ok t := by
  obtain ⟨hlt, rfl⟩ := List.getElem?_eq_some_iff.mp hi
  have hlt' : i < x.args.length := hts.length_eq ▸ hlt
  obtain ⟨a, ha, htype⟩ := (List.forall₂_iff_get.mp hts).2 i hlt' hlt
  simp only [List.get_eq_getElem] at ha htype
  simp [Checker.argType, argument, Outcome.at?, List.getElem?_eq_getElem hlt', ha, htype]

theorem require_nil {ok : Bool} {r : TypeRule} : c.require id x ok r = .ok [] ↔ ok = true := by
  cases ok with
  | true => simp [Checker.require]
  | false => simp [Checker.require, Outcome.bind_eq_ok]

/-- Operands of types `ts` are looked at if they are as many as the rule `Q` asks for. -/
theorem counted_nil {n : Nat} {k : Findings} {Q : Prop}
    (hts : List.Forall₂ c.func.OfType x.args ts) (hQ : Q → ts.length = n)
    (h : ts.length = n → (k = .ok [] ↔ Q)) : c.counted id x n k = .ok [] ↔ Q := by
  have hlen : ts.length = x.args.length := hts.length_eq.symm
  have hk : c.counted id x n k = .ok [] ↔ ts.length = n ∧ k = .ok [] := by
    rw [hlen]
    by_cases hn : x.args.length = n <;> simp [Checker.counted, hn, Outcome.bind_eq_ok]
  rw [hk]
  exact ⟨fun ⟨hl, hK⟩ => (h hl).mp hK, fun hq => ⟨hQ hq, (h (hQ hq)).mpr hq⟩⟩

theorem binaryRule_nil (hts : List.Forall₂ c.func.OfType x.args ts) :
    c.binaryRule id x = .ok [] ↔ ts = [x.type, x.type] ∧
      if x.op.isFloatBinary then x.type.isFloat = true else x.type.isInt = true := by
  refine counted_nil hts (fun h => by simp [h.1]) fun hl => ?_
  obtain ⟨s, t, rfl⟩ := List.length_eq_two.mp hl
  simp only [argType_of (i := 0) hts rfl, argType_of (i := 1) hts rfl, both, Outcome.ok_bind,
    Outcome.pure_eq_ok]
  by_cases hs : s = x.type <;> cases x.op.isFloatBinary <;>
    simp [Outcome.bind_eq_ok, require_nil, hs, and_comm]

theorem conversionRule_nil (hts : List.Forall₂ c.func.OfType x.args ts) :
    c.conversionRule id x = .ok [] ↔ ∃ s, ts = [s] ∧ castRule? x.op s x.type = none := by
  refine counted_nil hts (by rintro ⟨s, rfl, _⟩; rfl) fun hl => ?_
  obtain ⟨s, rfl⟩ := List.length_eq_one_iff.mp hl
  simp only [argType_of (i := 0) hts rfl, Outcome.ok_bind]
  cases h : castRule? x.op s x.type <;> simp [Outcome.bind_eq_ok, h]

theorem unaryRule_nil (hts : List.Forall₂ c.func.OfType x.args ts) :
    c.unaryRule id x = .ok [] ↔ x.type.isFloat = true ∧ ts = [x.type] := by
  refine counted_nil hts (fun h => by simp [h.2]) fun hl => ?_
  obtain ⟨s, rfl⟩ := List.length_eq_one_iff.mp hl
  simp only [argType_of (i := 0) hts rfl, both, Outcome.ok_bind, Outcome.pure_eq_ok]
  cases x.type.isFloat <;> simp [require_nil]

theorem compareRule_nil (hts : List.Forall₂ c.func.OfType x.args ts) :
    c.compareRule id x = .ok [] ↔ ∃ a, ts = [a, a] ∧ a.maskType = .ok x.type ∧
      x.predicate.isFloat = (x.op == .fcmp) ∧
      if x.op = .icmp then (a.isInt || a.isPtr) = true else a.isFloat = true := by
  refine counted_nil hts (by rintro ⟨a, rfl, _⟩; rfl) fun hl => ?_
  obtain ⟨s, t, rfl⟩ := List.length_eq_two.mp hl
  simp only [argType_of (i := 0) hts rfl, argType_of (i := 1) hts rfl, Outcome.ok_bind]
  cases hm : s.maskType with
  | error e => simp [Outcome.bind_eq_ok, hm]
  | ok m =>
    by_cases hst : s = t
    · subst hst
      by_cases hop : x.op = .icmp <;>
        simp [Outcome.bind_eq_ok, require_nil, hm, hop, eq_comm (a := x.type)]
    · by_cases hop : x.op = .icmp <;> simp [Outcome.bind_eq_ok, require_nil, hop, hst, Ne.symm hst]

theorem allocaRule_nil : c.allocaRule id x = .ok [] ↔
    (x.block = some c.func.start ∧ c.func.layout ≠ []) ∧ x.type = .ptr ∧ 0 < x.aux.toInt := by
  unfold Checker.allocaRule
  cases hl : c.func.layout with
  | nil => simp [entry, hl, Outcome.crash]
  | cons b l => simp [entry, start, hl, Outcome.bind_eq_ok, require_nil]

theorem gepRule_nil (hts : List.Forall₂ c.func.OfType x.args ts) :
    c.gepRule id x = .ok [] ↔ x.type = .ptr ∧ ∃ t, ts = [.ptr, t] ∧ t.isInt = true ∧
      t.isVector = false := by
  refine counted_nil hts (by rintro ⟨_, t, rfl, _⟩; rfl) fun hl => ?_
  obtain ⟨s, t, rfl⟩ := List.length_eq_two.mp hl
  by_cases hs : s = .ptr <;>
    simp [argType_of (i := 0) hts rfl, argType_of (i := 1) hts rfl, both, hs, require_nil, and_comm]

theorem extractRule_nil (hts : List.Forall₂ c.func.OfType x.args ts) :
    c.extractRule id x = .ok [] ↔ ∃ a, ts = [a] ∧ a.isVector = true ∧ LaneOf x a ∧
      x.type = a.elemType := by
  refine counted_nil hts (by rintro ⟨a, rfl, _⟩; rfl) fun hl => ?_
  obtain ⟨s, rfl⟩ := List.length_eq_one_iff.mp hl
  simp [argType_of (i := 0) hts rfl, require_nil, Checker.laneInside, LaneOf, and_assoc]

theorem insertRule_nil (hts : List.Forall₂ c.func.OfType x.args ts) :
    c.insertRule id x = .ok [] ↔ ts = [x.type, x.type.elemType] ∧ x.type.isVector = true ∧
      LaneOf x x.type := by
  refine counted_nil hts (fun h => by simp [h.1]) fun hl => ?_
  obtain ⟨s, t, rfl⟩ := List.length_eq_two.mp hl
  by_cases hs : x.type = s
  · subst hs
    cases hv : x.type.isVector <;>
      simp [argType_of (i := 0) hts rfl, argType_of (i := 1) hts rfl, both, require_nil,
        Checker.laneInside, LaneOf, hv]
  · simp [argType_of (i := 0) hts rfl, both, require_nil, hs, Ne.symm hs]

theorem shuffleRule_nil (hts : List.Forall₂ c.func.OfType x.args ts) :
    c.shuffleRule id x = .ok [] ↔ ∃ a, ts = [a, a] ∧ a.isVector = true ∧ x.type.isVector = true ∧
      x.type.elemKind = a.elemKind ∧ (x.mask.getD []).length = x.type.numLanes ∧
      ∀ m ∈ x.mask.getD [], m < 2 * (a.numLanes : Int) := by
  refine counted_nil hts (by rintro ⟨a, rfl, _⟩; rfl) fun hl => ?_
  obtain ⟨s, t, rfl⟩ := List.length_eq_two.mp hl
  have hselectors := Outcome.mapM_flatten_nil (l := x.mask.getD [])
    (g := fun m => c.require id x (m < 2 * (s.numLanes : Int)) .shuffleSelector)
  simp only [Outcome.bind_eq_ok, Except.ok.injEq, List.flatten_eq_nil_iff, require_nil,
    decide_eq_true_eq] at hselectors
  by_cases hst : s = t
  · subst hst
    cases hv : s.isVector <;>
      simp [argType_of (i := 0) hts rfl, argType_of (i := 1) hts rfl, both, Outcome.bind_eq_ok, require_nil,
        hselectors, hv, and_assoc]
  · cases hv : s.isVector <;>
      simp [argType_of (i := 0) hts rfl, argType_of (i := 1) hts rfl, both, Outcome.bind_eq_ok, require_nil,
        hv, Ne.symm hst]

theorem selectRule_nil (hts : List.Forall₂ c.func.OfType x.args ts) :
    c.selectRule id x = .ok [] ↔ ∃ s, ts = [s, x.type, x.type] ∧ (s = .i1 ∨
      (s.isVector = true ∧ s.isInt = true ∧ s.numLanes = x.type.numLanes)) := by
  refine counted_nil hts (by rintro ⟨a, rfl, _⟩; rfl) fun hl => ?_
  obtain ⟨s, t, u, rfl⟩ := List.length_eq_three.mp hl
  by_cases ht : t = x.type <;>
    simp [argType_of (i := 0) hts rfl, argType_of (i := 1) hts rfl, argType_of (i := 2) hts rfl, both,
      Outcome.bind_eq_ok, require_nil, ht, and_assoc]

theorem callRule_nil (hts : List.Forall₂ c.func.OfType x.args ts) :
    c.callRule id x = .ok [] ↔ ∃ rest, ts = .ptr :: rest := by
  unfold Checker.callRule
  rw [hts.length_eq]
  cases ts with
  | nil => simp [both, require_nil]
  | cons t ts => simp [both, argType_of (i := 0) hts rfl, require_nil]

/-- The rules are those of operands of types `ts`, whatever function the operands are of. -/
theorem types_nil_of (hts : List.Forall₂ c.func.OfType x.args ts) :
    c.types id x = .ok [] ↔
      WellTyped x ts (x.block = some c.func.start ∧ c.func.layout ≠ []) := by
  rw [Checker.types_eq, WellTyped]
  split
  · exact binaryRule_nil hts
  split
  · exact conversionRule_nil hts
  cases hop : x.op <;> simp only
  case fneg | fsqrt => exact unaryRule_nil hts
  case icmp | fcmp =>
    have h : c.compareRule id x = .ok [] ↔ _ := compareRule_nil hts
    rwa [hop] at h
  case alloca => exact allocaRule_nil
  case load =>
    refine counted_nil hts (fun h => by simp [h]) fun hl => ?_
    obtain ⟨s, rfl⟩ := List.length_eq_one_iff.mp hl
    simp [argType_of (i := 0) hts rfl, require_nil]
  case store =>
    refine counted_nil hts (by rintro ⟨_, t, rfl⟩; rfl) fun hl => ?_
    obtain ⟨s, t, rfl⟩ := List.length_eq_two.mp hl
    simp [argType_of (i := 1) hts rfl, require_nil, and_comm]
  case gep => exact gepRule_nil hts
  case extract => exact extractRule_nil hts
  case insert => exact insertRule_nil hts
  case shuffle => exact shuffleRule_nil hts
  case select => exact selectRule_nil hts
  case call => exact callRule_nil hts
  case copy =>
    refine counted_nil hts (fun h => by simp [h]) fun hl => ?_
    obtain ⟨s, rfl⟩ := List.length_eq_one_iff.mp hl
    simp [argType_of (i := 0) hts rfl, require_nil]
  case const =>
    rw [require_nil]
    cases x.type.isVector <;> simp
  case globalAddr => simp [require_nil]

theorem types_nil (hargs : ∀ o ∈ x.args, ∃ a, o = .value a) :
    c.types id x = .ok [] ↔
      WellTyped x (c.func.argTypes x) (x.block = some c.func.start ∧ c.func.layout ≠ []) :=
  types_nil_of (ofType_argTypes hargs)

end types

/-! ## Operands -/

theorem orReport_nil {ok : Bool} {r : Violation} : orReport ok r = [] ↔ ok = true := by
  cases ok <;> simp [orReport]

/-- The operand is no store. -/
def NoStore (f : Func) (o : Operand) : Prop := ∀ w, o = .value w → (f.value w).op ≠ .store

section use

variable {t : DomTree} {pos : Nat}

/-- What the checks of a function share. -/
abbrev checker (f : Func) (t : DomTree) : Checker := ⟨f, t, f.positions⟩

theorem use_nil (hf : f.Flow) (hl : f.Listing) (ht : t.Of f f.start) :
    (f.checker t).use b pos o = .ok [] ↔ ∃ v d, o = .value v ∧ (f.value v).block = some d ∧
      (f.Reached b → if d = b then f.positions.getD v 0 < pos else f.Dominates d b) := by
  cases o with
  | missing => simp [Checker.use]
  | foreign k => simp [Checker.use, number]
  | value v =>
    cases hd : (f.value v).block with
    | none => simp [Checker.use, number, hd]
    | some d =>
      have hown := hf.own d ((hl.listed v d).mp hd).1
      have hreach := ht.reachable b
      by_cases hb : t.isReachable b = true
      · by_cases hdb : d = b
        · subst hdb
          have hr : f.Reached d := hreach.mp hb
          simp [Checker.use, number, hd, hown, hb, hr, orReport_nil]
        · have hr : f.Reached b := hreach.mp hb
          have hdom := ht.dominates_iff (a := d) (b := b)
          simp only [Checker.use, number, hd, hown, hb, hdb]
          simp [orReport_nil, hd, hdb, hr, hdom, Dominates]
          exact fun _ => hr
      · have hr : ¬ f.Reached b := fun h => hb (hreach.mpr h)
        simp [Checker.use, number, hd, hown, hb, hr]

theorem use_end_nil (hf : f.Flow) (hl : f.Listing) (ht : t.Of f f.start) :
    (f.checker t).use b (f.block b).values.length o = .ok [] ↔
      ∃ v d, o = .value v ∧ (f.value v).block = some d ∧ (f.Reached b → f.Dominates d b) := by
  rw [use_nil hf hl ht]
  refine exists_congr fun v => exists_congr fun d => and_congr_right fun _ =>
    and_congr_right fun hd => imp_congr_right fun _ => ?_
  split
  · next heq =>
    subst heq
    have hv := (hl.listed v d).mp hd
    rw [positions_eq hl hv.1 hv.2]
    exact ⟨fun _ => .refl _ _ _, fun _ => List.idxOf_lt_length_of_mem hv.2⟩
  · rfl

theorem use_at_nil (hf : f.Flow) (hl : f.Listing) (ht : t.Of f f.start)
    (hu : (f.block b).values[pos]? = some u) :
    (f.checker t).use b pos o = .ok [] ↔
      ∃ v, o = .value v ∧ (f.value v).block.isSome ∧ (f.Reached b → f.Earlier v u b) := by
  rw [use_nil hf hl ht]
  refine exists_congr fun v => ?_
  constructor
  · rintro ⟨d, ho, hd, h⟩
    refine ⟨ho, by simp [hd], fun hr => ⟨d, hd, ?_⟩⟩
    replace h := h hr
    split at h
    · next heq =>
      subst heq
      have hv := (hl.listed v d).mp hd
      rw [positions_eq hl hv.1 hv.2, idxOf_lt_iff_sublist (hl.nodup d hv.1) hu hv.2] at h
      exact .inl ⟨rfl, h⟩
    · next hne => exact .inr ⟨hne, h⟩
  · rintro ⟨ho, hd, h⟩
    obtain ⟨d, hd⟩ := Option.isSome_iff_exists.mp hd
    refine ⟨d, ho, hd, fun hr => ?_⟩
    obtain ⟨d', hd', h⟩ := h hr
    obtain rfl : d = d' := by simpa [hd] using hd'
    rcases h with ⟨rfl, h⟩ | ⟨hne, h⟩
    · have hv := (hl.listed v d).mp hd
      rwa [if_pos rfl, positions_eq hl hv.1 hv.2,
        idxOf_lt_iff_sublist (hl.nodup d hv.1) hu hv.2]
    · rwa [if_neg hne]

theorem atEnd_iff (hf : f.Flow) (hl : f.Listing) (ht : t.Of f f.start) (hs : f.NoStore o) :
    f.AtEnd o b ↔ (f.checker t).use b (f.block b).values.length o = .ok [] := by
  rw [use_end_nil hf hl ht]
  refine exists_congr fun v => ?_
  constructor
  · rintro ⟨ho, hstore | ⟨d, h⟩⟩
    · exact absurd hstore (hs v ho)
    · exact ⟨d, ho, h⟩
  · rintro ⟨d, ho, h⟩
    exact ⟨ho, .inr ⟨d, h⟩⟩

theorem before_iff (hf : f.Flow) (hl : f.Listing) (ht : t.Of f f.start) (hs : f.NoStore o)
    (hu : (f.block b).values[pos]? = some u) :
    f.Before o u b ↔ (f.checker t).use b pos o = .ok [] := by
  rw [use_at_nil hf hl ht hu]
  refine exists_congr fun v => and_congr_right fun ho => ?_
  simp [hs v ho]

end use

/-! ## Blocks -/

section block

variable {t : DomTree}

theorem use_atEnd (hf : f.Flow) (hl : f.Listing) (ht : t.Of f f.start)
    (h : (f.checker t).use b (f.block b).values.length o = .ok []) : f.AtEnd o b := by
  obtain ⟨v, d, ho, h⟩ := (use_end_nil hf hl ht).mp h
  exact ⟨v, ho, .inr ⟨d, h⟩⟩

theorem use_before {pos : Nat} (hf : f.Flow) (hl : f.Listing) (ht : t.Of f f.start)
    (hu : (f.block b).values[pos]? = some u) (h : (f.checker t).use b pos o = .ok []) :
    f.Before o u b := by
  obtain ⟨v, ho, h⟩ := (use_at_nil hf hl ht hu).mp h
  exact ⟨v, ho, .inr h⟩

theorem AtEnd.isValue (h : f.AtEnd o b) : ∃ v, o = .value v := ⟨h.choose, h.choose_spec.1⟩

theorem terminator_nil (hf : f.Flow) (hl : f.Listing) (ht : t.Of f f.start) :
    (f.checker t).terminator b = .ok [] → f.EndsWell b := by
  intro h
  unfold Checker.terminator at h
  unfold EndsWell
  cases hk : (f.block b).kind with
  | pending => simp [hk] at h
  | jump => simpa [checker, hk, orReport_nil] using h
  | branch =>
    simp only [checker, hk] at h
    by_cases hc : (f.block b).control = .missing
    · simp [hc] at h
    · rw [if_neg hc] at h
      obtain ⟨x, hx, h⟩ := Outcome.bind_eq_ok.mp h
      by_cases hty : x.type = .i1
      · simp only [hty, ne_eq, not_true_eq_false, if_false] at h
        obtain ⟨l, hl', h⟩ := Outcome.bind_eq_ok.mp h
        obtain ⟨hn, rfl⟩ := List.append_eq_nil_iff.mp (Except.ok.inj h)
        have hend := use_atEnd hf hl ht hl'
        obtain ⟨v, hv⟩ := hend.isValue
        rw [hv, find] at hx
        obtain rfl := Except.ok.inj hx
        refine ⟨by simpa [orReport_nil] using hn, by rw [hv]; exact hty, hend⟩
      · simp [hty] at h
  | ret =>
    simp only [checker, hk] at h
    by_cases hc : (f.block b).control = .missing
    · simpa [hc, orReport_nil] using h
    · simp only [if_neg hc] at h ⊢
      cases hv : f.ret.isVoid with
      | true => simp [hv] at h
      | false =>
        simp only [hv, Bool.false_eq_true, if_false] at h
        obtain ⟨x, hx, h⟩ := Outcome.bind_eq_ok.mp h
        by_cases hty : x.type = f.ret
        · simp only [hty, ne_eq, not_true_eq_false, if_false] at h
          have hend := use_atEnd hf hl ht h
          obtain ⟨v, hv⟩ := hend.isValue
          rw [hv, find] at hx
          obtain rfl := Except.ok.inj hx
          exact ⟨rfl, by rw [hv]; exact hty, hend⟩
        · simp [hty] at h
  | unreachable => trivial
  | other c => trivial

theorem EndsWell.terminator (hf : f.Flow) (hl : f.Listing) (ht : t.Of f f.start)
    (hs : f.NoStore (f.block b).control) (h : f.EndsWell b) :
    (f.checker t).terminator b = .ok [] := by
  unfold EndsWell at h
  unfold Checker.terminator
  cases hk : (f.block b).kind with
  | pending => simp [hk] at h
  | jump => simpa [checker, hk, orReport_nil] using h
  | branch =>
    simp only [hk] at h
    obtain ⟨hn, hty, hend⟩ := h
    obtain ⟨v, hv⟩ := hend.isValue
    have huse := (atEnd_iff hf hl ht hs).mp hend
    rw [hv] at hty huse
    have hty : (f.value v).type = .i1 := hty
    have huse : Checker.use ⟨f, t, f.positions⟩ b (f.block b).values.length (.value v) = .ok [] :=
      huse
    simp [checker, hk, hv, find, hty, huse, orReport_nil, hn]
  | ret =>
    simp only [hk] at h
    by_cases hc : (f.block b).control = .missing
    · simpa [hc, orReport_nil, checker, hk] using h
    · rw [if_neg hc] at h
      obtain ⟨hvoid, hty, hend⟩ := h
      obtain ⟨v, hv⟩ := hend.isValue
      have huse := (atEnd_iff hf hl ht hs).mp hend
      rw [hv] at hty huse
      have hty : (f.value v).type = f.ret := hty
      have huse : Checker.use ⟨f, t, f.positions⟩ b (f.block b).values.length (.value v) =
        .ok [] := huse
      simp [checker, hk, hv, find, hty, huse, hvoid]
  | unreachable => simp [hk]
  | other c => simp [hk]

theorem edges_nil (hf : f.Flow) (hb : b ∈ f.layout) : (f.checker t).edges b = [] := by
  unfold Checker.edges
  rw [List.append_eq_nil_iff, List.flatMap_eq_nil_iff, List.flatMap_eq_nil_iff]
  constructor
  · intro s hs
    simpa [orReport_nil] using (hf.mem_preds_iff hb (hf.succs_mem b hb s hs)).mpr hs
  · intro p hp
    simpa [orReport_nil, next] using (hf.mem_preds_iff (hf.preds_mem b hb p hp) hb).mp hp

/-- A phi without findings: as many arguments as predecessors, each looked at where it comes from. -/
theorem phi_uses {c : Checker} {x : Value} (h : c.phi b v x = .ok []) :
    x.args.length = (c.func.block b).preds.length ∧
      ∀ y ∈ x.args.zip (c.func.block b).preds,
        c.use y.2 (c.func.block y.2).values.length y.1 = .ok [] ∧
          ∃ a, c.func.find y.1 = .ok a ∧ a.type = x.type := by
  unfold Checker.phi at h
  by_cases hlen : x.args.length = (c.func.block b).preds.length
  · simp only [hlen, ne_eq, not_true_eq_false, if_false] at h
    refine ⟨hlen, fun y hy => ?_⟩
    have hy := Outcome.mapM_flatten_nil.mp h y hy
    simp only [Outcome.bind_eq_ok] at hy
    obtain ⟨a, ha, l, hl, hy⟩ := hy
    obtain ⟨hty, rfl⟩ := List.append_eq_nil_iff.mp (Except.ok.inj hy)
    exact ⟨hl, a, ha, by simpa [orReport_nil] using hty⟩
  · simp [hlen] at h

theorem phi_nil {x : Value} (hx : f.value v = x) (hf : f.Flow) (hl : f.Listing)
    (ht : t.Of f f.start) (h : (f.checker t).phi b v x = .ok []) : f.PhiWell b v := by
  subst hx
  obtain ⟨hlen, huses⟩ := phi_uses h
  refine ⟨hlen, fun y hy => ?_⟩
  obtain ⟨huse, a, ha, hty⟩ := huses y hy
  have hend := use_atEnd hf hl ht huse
  obtain ⟨w, hw⟩ := hend.isValue
  rw [hw, find] at ha
  obtain rfl := Except.ok.inj ha
  exact ⟨by rw [hw]; exact hty, hend⟩

theorem PhiWell.phi (hf : f.Flow) (hl : f.Listing) (ht : t.Of f f.start)
    (hs : ∀ o ∈ (f.value v).args, f.NoStore o) (h : f.PhiWell b v) :
    (f.checker t).phi b v (f.value v) = .ok [] := by
  unfold Checker.phi
  simp only [h.1, ne_eq, not_true_eq_false, if_false]
  refine Outcome.mapM_flatten_nil.mpr fun y hy => ?_
  obtain ⟨hty, hend⟩ := h.2 y hy
  have huse := (atEnd_iff hf hl ht (hs y.1 (List.of_mem_zip hy).1)).mp hend
  obtain ⟨w, hw⟩ := hend.isValue
  rw [hw] at hty huse
  have hty : (f.value w).type = (f.value v).type := hty
  simp only [hw, find, hty, Outcome.ok_bind]
  rw [huse]
  simp [orReport]

/-- A phi without findings stands among the phis, and its arguments are in order. -/
theorem value_phi {c : Checker} {late : Bool} {pos : Nat} (h : c.value b late pos v = .ok [])
    (hphi : (c.func.value v).op = .phi) : late = false ∧ c.phi b v (c.func.value v) = .ok [] := by
  unfold Checker.value at h
  simp only [hphi, beq_self_eq_true, if_true] at h
  obtain ⟨l, hl, h⟩ := Outcome.bind_eq_ok.mp h
  obtain ⟨h', rfl⟩ := List.append_eq_nil_iff.mp (Except.ok.inj h)
  obtain ⟨_, hlate⟩ := List.append_eq_nil_iff.mp h'
  exact ⟨by simpa [orReport_nil] using hlate, hl⟩

/-- The operands of any other value without findings, and its types, are in order. -/
theorem value_uses {c : Checker} {late : Bool} {pos : Nat} (h : c.value b late pos v = .ok [])
    (hphi : (c.func.value v).op ≠ .phi) :
    (∀ o ∈ (c.func.value v).args, c.use b pos o = .ok []) ∧
      c.types v (c.func.value v) = .ok [] := by
  unfold Checker.value at h
  simp only [beq_iff_eq, hphi, if_false] at h
  obtain ⟨us, hus, h⟩ := Outcome.bind_eq_ok.mp h
  obtain ⟨l, hl, h⟩ := Outcome.bind_eq_ok.mp h
  obtain ⟨h', rfl⟩ := List.append_eq_nil_iff.mp (Except.ok.inj h)
  obtain ⟨_, hflat⟩ := List.append_eq_nil_iff.mp h'
  exact ⟨Outcome.mapM_flatten_nil.mp (Outcome.bind_eq_ok.mpr ⟨us, hus, congrArg _ hflat⟩), hl⟩

theorem value_nil {late : Bool} {pos : Nat} (hf : f.Flow) (hl : f.Listing) (ht : t.Of f f.start)
    (hb : b ∈ f.layout) (hu : (f.block b).values[pos]? = some v)
    (h : (f.checker t).value b late pos v = .ok []) :
    ((f.value v).op = .phi → late = false ∧ f.PhiWell b v) ∧
      ((f.value v).op ≠ .phi → f.ValueWell b v) := by
  have hblock := (hl.listed v b).mpr ⟨hb, List.mem_of_getElem? hu⟩
  refine ⟨fun hphi => ?_, fun hphi => ?_⟩
  · obtain ⟨hlate, hargs⟩ := value_phi h hphi
    exact ⟨hlate, phi_nil rfl hf hl ht hargs⟩
  · obtain ⟨huses, htypes⟩ := value_uses h hphi
    have hbefore : ∀ o ∈ (f.value v).args, f.Before o v b :=
      fun o ho => use_before hf hl ht hu (huses o ho)
    refine ⟨fun _ => hbefore, ?_⟩
    have htypes := (types_nil fun o ho => ?_).mp htypes
    · simp only [hblock, Option.some.injEq, hf.layout_ne, ne_eq, not_false_eq_true,
        and_true] at htypes
      exact htypes
    · obtain ⟨w, hw, _⟩ := hbefore o ho
      exact ⟨w, hw⟩

theorem ValueWell.value {late : Bool} {pos : Nat} (hf : f.Flow) (hl : f.Listing)
    (ht : t.Of f f.start) (hb : b ∈ f.layout) (hu : (f.block b).values[pos]? = some v)
    (hs : ∀ o ∈ (f.value v).args, f.NoStore o)
    (hparam : (f.value v).op = .param → (f.value v).args = []) (hphi : (f.value v).op ≠ .phi)
    (h : f.ValueWell b v) : (f.checker t).value b late pos v = .ok [] := by
  have hblock := (hl.listed v b).mpr ⟨hb, List.mem_of_getElem? hu⟩
  have hbefore : ∀ o ∈ (f.value v).args, f.Before o v b := by
    intro o ho
    refine h.1 (fun hp => ?_) o ho
    simp [hparam hp] at ho
  have huses : (f.value v).args.mapM ((f.checker t).use b pos) =
      .ok ((f.value v).args.map fun _ => []) := by
    rw [Outcome.mapM_eq_ok, List.forall₂_map_right_iff, List.forall₂_same]
    exact fun o ho => (before_iff hf hl ht (hs o ho) hu).mp (hbefore o ho)
  have htypes : (f.checker t).types v (f.value v) = .ok [] := by
    refine (types_nil fun o ho => ?_).mpr ?_
    · obtain ⟨w, hw, _⟩ := hbefore o ho
      exact ⟨w, hw⟩
    · simp only [hblock, Option.some.injEq, hf.layout_ne, ne_eq, not_false_eq_true, and_true]
      exact h.2
  unfold Checker.value
  simp only [beq_iff_eq, hphi, if_false, huses, htypes, hblock, Outcome.ok_bind]
  simp [orReport]

/-- A value that phis may not follow. -/
def endsPhis (f : Func) (v : ValueId) : Bool :=
  !((f.value v).op == .phi || (f.value v).op == .param)

/-- One step through the values of a block. -/
def checkNext (c : Checker) (b : BlockId) (s : Bool × List Violation) (y : ValueId × Nat) :
    Outcome (Bool × List Violation) := do
  let more ← c.value b s.1 y.2 y.1
  return (s.1 || c.func.endsPhis y.1, s.2 ++ more)

theorem checkNext_foldlM {c : Checker} {l : List ValueId} {k : Nat} (late : Bool)
    (found : List Violation) :
    ((l.zipIdx k).foldlM (checkNext c b) (late, found) >>= fun s => .ok s.2) = .ok [] ↔
      found = [] ∧ ∀ i v, l[i]? = some v →
        c.value b (late || (l.take i).any c.func.endsPhis) (k + i) v = .ok [] := by
  induction l generalizing k late found with
  | nil => simp
  | cons v l ih =>
    rw [List.zipIdx_cons, List.foldlM_cons, checkNext]
    simp only [bind_assoc, Outcome.pure_eq_ok, Outcome.ok_bind]
    rw [Outcome.bind_eq_ok]
    constructor
    · rintro ⟨more, hmore, h⟩
      obtain ⟨happ, hrest⟩ := (ih _ _).mp h
      obtain ⟨rfl, rfl⟩ := List.append_eq_nil_iff.mp happ
      refine ⟨rfl, fun i w hi => ?_⟩
      cases i with
      | zero => simp_all
      | succ i => simpa [Bool.or_assoc, Nat.add_assoc, Nat.add_comm 1] using hrest i w (by simpa using hi)
    · rintro ⟨rfl, h⟩
      refine ⟨[], by simpa using h 0 v rfl, (ih _ _).mpr ⟨rfl, fun i w hi => ?_⟩⟩
      simpa [Bool.or_assoc, Nat.add_assoc, Nat.add_comm 1] using
        h (i + 1) w (by simpa using hi)

theorem values_nil {c : Checker} : c.values b = .ok [] ↔
    ∀ i v, (c.func.block b).values[i]? = some v →
      c.value b (((c.func.block b).values.take i).any c.func.endsPhis) i v = .ok [] := by
  have h := checkNext_foldlM (b := b) (c := c) (l := (c.func.block b).values) (k := 0)
    false []
  simp only [true_and, Bool.false_or, Nat.zero_add] at h
  exact h

theorem block_nil {c : Checker} : c.block b = .ok [] ↔
    (c.func.block b).isForeign = false ∧ c.edges b = [] ∧ c.terminator b = .ok [] ∧
      c.values b = .ok [] := by
  unfold Checker.block
  simp only [Outcome.bind_eq_ok, Outcome.pure_eq_ok, Except.ok.injEq, List.append_eq_nil_iff,
    orReport_nil, Bool.not_eq_true']
  constructor
  · rintro ⟨l, hl, m, hm, ⟨⟨hf, he⟩, rfl⟩, rfl⟩
    exact ⟨hf, he, hl, hm⟩
  · rintro ⟨hf, he, hl, hm⟩
    exact ⟨[], hl, [], hm, ⟨⟨hf, he⟩, rfl⟩, rfl⟩

end block

/-! ## Whole functions -/

theorem verify_nil : f.verify = .ok [] ↔
    ∃ t, f.domTree = .ok t ∧ ∀ b ∈ f.layout, (f.checker t).block b = .ok [] := by
  unfold verify
  simp only [Outcome.bind_eq_ok (x := f.domTree)]
  exact exists_congr fun t => and_congr_right fun _ => Outcome.mapM_flatten_nil

/-- An operand without findings is a value that is in a block. -/
theorem use_listed {c : Checker} {pos : Nat} (h : c.use b pos o = .ok []) :
    ∃ a d, o = .value a ∧ (c.func.value a).block = some d := by
  cases o with
  | missing => simp [Checker.use] at h
  | foreign k => simp [Checker.use, number] at h
  | value a =>
    cases hd : (c.func.value a).block with
    | none => simp [Checker.use, number, hd] at h
    | some d => exact ⟨a, d, rfl, hd⟩

/-- Whatever a verified function reads is a value that is in a block. -/
theorem args_listed (h : f.verify = .ok []) (hb : b ∈ f.layout) (hv : v ∈ (f.block b).values)
    (ho : o ∈ (f.value v).args) : ∃ a d, o = .value a ∧ (f.value a).block = some d := by
  obtain ⟨t, -, hall⟩ := verify_nil.mp h
  obtain ⟨i, hi⟩ := List.getElem?_of_mem hv
  have hval := values_nil.mp (block_nil.mp (hall b hb)).2.2.2 i v hi
  by_cases hphi : (f.value v).op = .phi
  · obtain ⟨hlen, huses⟩ := phi_uses (value_phi hval hphi).2
    obtain ⟨j, hj⟩ := List.getElem?_of_mem ho
    have hlt : j < (f.block b).preds.length := hlen ▸ (List.getElem?_eq_some_iff.mp hj).1
    have hz : (o, (f.block b).preds[j]) ∈ (f.value v).args.zip (f.block b).preds :=
      List.mem_of_getElem? (i := j)
        (List.getElem?_zip_eq_some.mpr ⟨hj, List.getElem?_eq_getElem hlt⟩)
    exact use_listed (huses _ hz).1
  · exact use_listed ((value_uses hval hphi).1 o ho)

/-- What a verified function computes follows the type rules, wherever its values are listed. -/
theorem value_typed (h : f.verify = .ok []) (hb : b ∈ f.layout) (hv : v ∈ (f.block b).values)
    (hphi : (f.value v).op ≠ .phi) : WellTyped (f.value v) (f.argTypes (f.value v))
      ((f.value v).block = some f.start ∧ f.layout ≠ []) := by
  obtain ⟨t, -, hall⟩ := verify_nil.mp h
  obtain ⟨i, hi⟩ := List.getElem?_of_mem hv
  have hval := values_nil.mp (block_nil.mp (hall b hb)).2.2.2 i v hi
  refine (types_nil fun o ho => ?_).mp (value_uses hval hphi).2
  obtain ⟨a, -, rfl, -⟩ := args_listed h hb hv ho
  exact ⟨a, rfl⟩

/-- What the end of a block without findings reads has none. -/
theorem terminator_use {c : Checker} (h : c.terminator b = .ok [])
    (hk : (c.func.block b).kind = .branch ∨
      (c.func.block b).kind = .ret ∧ (c.func.block b).control ≠ .missing) :
    c.use b (c.func.block b).values.length (c.func.block b).control = .ok [] := by
  unfold Checker.terminator at h
  rcases hk with hk | ⟨hk, hc⟩
  · simp only [hk] at h
    by_cases hc : (c.func.block b).control = .missing
    · simp [hc] at h
    · rw [if_neg hc] at h
      obtain ⟨x, -, h⟩ := Outcome.bind_eq_ok.mp h
      split at h
      · simp at h
      · obtain ⟨l, hl, h⟩ := Outcome.bind_eq_ok.mp h
        obtain ⟨-, rfl⟩ := List.append_eq_nil_iff.mp (Except.ok.inj h)
        exact hl
  · simp only [hk, if_neg hc] at h
    split at h
    · simp at h
    · obtain ⟨x, -, h⟩ := Outcome.bind_eq_ok.mp h
      split at h
      · simp at h
      · exact h

/-- Whatever a block ends with is a value that is in a block. -/
theorem terminator_listed {c : Checker} (h : c.terminator b = .ok [])
    (hk : (c.func.block b).kind = .branch ∨ (c.func.block b).kind = .ret) :
    (c.func.block b).control = .missing ∨
      ∃ a d, (c.func.block b).control = .value a ∧ (c.func.value a).block = some d := by
  by_cases hm : (c.func.block b).control = .missing
  · exact .inl hm
  · exact .inr (use_listed (terminator_use h (hk.imp_right fun hk => ⟨hk, hm⟩)))

theorem not_pending_lt (h : (f.block b).kind ≠ .pending) : b < f.numBlocks := by
  rcases Nat.lt_or_ge b f.numBlocks with hlt | hge
  · exact hlt
  · rw [block_of_le hge] at h
    exact absurd rfl h

theorem terminator_ne_pending {c : Checker} (h : c.terminator b = .ok []) :
    (c.func.block b).kind ≠ .pending := by
  intro hk
  simp [Checker.terminator, hk] at h

theorem Consistent.flow (h : f.Consistent) : f.Flow := by
  obtain ⟨t, ht, hall⟩ := verify_nil.mp h.verified
  have hne : f.layout ≠ [] := by
    intro hnil
    simp [Func.domTree, entry, hnil, Outcome.crash] at ht
  exact ⟨hne, h.layout_nodup,
    fun b hb => not_pending_lt (terminator_ne_pending (block_nil.mp (hall b hb)).2.2.1),
    fun b hb => (block_nil.mp (hall b hb)).1, h.succs_mem, h.preds_mem, h.edges, h.entry_preds⟩

theorem Consistent.ssa (h : f.Consistent) : f.Ssa := by
  obtain ⟨t, ht, hall⟩ := verify_nil.mp h.verified
  have hf := h.flow
  have hl : f.Listing := ⟨h.listed, h.values_nodup⟩
  have hof : t.Of f f.start := by
    obtain ⟨t', ht', hof⟩ := hf.domTree
    obtain rfl : t' = t := Except.ok.inj (ht'.symm.trans ht)
    exact hof
  have hval : ∀ b ∈ f.layout, ∀ i v, (f.block b).values[i]? = some v →
      ((f.value v).op = .phi → ((f.block b).values.take i).any f.endsPhis = false ∧ f.PhiWell b v) ∧
        ((f.value v).op ≠ .phi → f.ValueWell b v) := fun b hb i v hi =>
    value_nil hf hl hof hb hi (values_nil.mp (block_nil.mp (hall b hb)).2.2.2 i v hi)
  refine ⟨hf, hl, h.entry_phis,
    fun b hb => terminator_nil hf hl hof (block_nil.mp (hall b hb)).2.2.1, ?_, ?_, ?_⟩
  · intro b hb x p hs hphi
    obtain ⟨i, hi⟩ := List.getElem?_of_mem (hs.subset (by simp) : p ∈ (f.block b).values)
    have hlate := ((hval b hb i p hi).1 hphi).1
    have hlt := (idxOf_lt_iff_sublist (h.values_nodup b hb) hi (hs.subset (by simp))).mpr hs
    have hx : x ∈ (f.block b).values.take i := List.mem_take_iff_idxOf_lt
      (hs.subset (by simp)) |>.mpr hlt
    have hends := List.any_eq_false.mp hlate x hx
    simp only [endsPhis, Bool.not_eq_true, Bool.not_eq_false', Bool.or_eq_true, beq_iff_eq] at hends
    exact hends
  · intro b hb v hv hphi
    obtain ⟨i, hi⟩ := List.getElem?_of_mem hv
    exact ((hval b hb i v hi).1 hphi).2
  · intro b hb v hv hphi
    obtain ⟨i, hi⟩ := List.getElem?_of_mem hv
    exact (hval b hb i v hi).2 hphi

theorem Ssa.consistent (h : f.Ssa) (hparams : f.ParamsBare) (hstores : f.StoresUnused) :
    f.Consistent := by
  have hf := h.flow
  have hl := h.listing
  obtain ⟨t, ht, hof⟩ := hf.domTree
  refine ⟨verify_nil.mpr ⟨t, ht, fun b hb => block_nil.mpr ⟨hf.own b hb, edges_nil hf hb,
    (h.ends b hb).terminator hf hl hof (hstores b hb).2, values_nil.mpr fun i v hi => ?_⟩⟩,
    hf.layout_nodup, hf.succs_mem, hf.preds_mem, hf.edges, hl.listed, hl.nodup, hf.entry_preds,
    h.entry_phis⟩
  have hv : v ∈ (f.block b).values := List.mem_of_getElem? hi
  have hargs : ∀ o ∈ (f.value v).args, f.NoStore o := by
    rintro o ho w rfl
    exact (hstores b hb).1 v hv w ho
  by_cases hphi : (f.value v).op = .phi
  · have hwell := (h.phis b hb v hv hphi).phi hf hl hof hargs
    have hlate : ((f.block b).values.take i).any f.endsPhis = false := by
      rw [List.any_eq_false]
      intro x hx
      have hmem := List.mem_of_mem_take hx
      have hlt := (List.mem_take_iff_idxOf_lt hmem).mp hx
      have hs := (idxOf_lt_iff_sublist (hl.nodup b hb) hi hmem).mp hlt
      rcases h.phisFirst b hb x v hs hphi with hx | hx <;> simp [endsPhis, hx]
    have hblock := (hl.listed v b).mpr ⟨hb, hv⟩
    simp [Checker.value, hphi, hblock, hlate, orReport, hwell]
  · exact (h.values b hb v hv hphi).value hf hl hof hb hi hargs (hparams b hb v hv) hphi

end SsaJit.Func
