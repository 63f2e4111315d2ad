import SsaJit.Proofs.Pass.Rewrites

/-! Constants whose patterns lie within the width of their types. Folding operations on such constants
never faults and gives such constants again, and optimisations cut every constant they make to its
type; so if a function starts with such constants only, it never has others. -/

namespace SsaJit

/-- A pattern fits a kind if it is below the power of two that the kind's bits span. -/
theorem Kind.cut_eq_self {k : Kind} {w : UInt64} : k.cut w = w ↔ w.toNat < 2 ^ k.bits := by
  have hmask : ∀ {n : Nat} {m : UInt64}, m.toNat = 2 ^ n - 1 → (w &&& m = w ↔ w.toNat < 2 ^ n) :=
    fun hm => ⟨and_mask_toNat hm, and_mask_of_lt hm⟩
  have hnone : (0 : UInt64) = w ↔ w.toNat < 2 ^ 0 := by
    rw [← UInt64.toNat_inj]
    simp [eq_comm]
  have hall : w.toNat < 2 ^ 64 := w.toNat_lt
  cases k with
  | i1 => exact hmask (n := 1) rfl
  | i8 => exact hmask (n := 8) rfl
  | i16 => exact hmask (n := 16) rfl
  | i32 | f32 => exact hmask (n := 32) rfl
  | i64 | ptr => exact iff_of_true rfl hall
  | void | vector | other => exact hnone

/-- One pattern for each of the type's lanes, each within the width of the lanes' kind. -/
def Ty.Canonical (t : Ty) (lanes : List UInt64) : Prop :=
  lanes.length = t.numLanes ∧ ∀ w ∈ lanes, w.toNat < 2 ^ t.elemKind.bits

theorem Ty.canonical_iff_fits {t : Ty} {lanes : List UInt64} : t.Canonical lanes ↔ t.Fits lanes := by
  simp only [Canonical, Fits, Kind.cut_eq_self]

namespace Func

variable {f g k : Func} {b : BlockId} {v : ValueId} {x y : Value} {o : Operand} {t : Ty}
  {lanes : List UInt64} {args : List (List UInt64)} {c : Checker} {id : ValueId}

/-! ## Folding -/

/-- The operand has a type that can be built, and the lanes are canonical for it. -/
def OperandLanes (f : Func) (o : Operand) (lanes : List UInt64) : Prop :=
  ∃ a, f.find o = .ok a ∧ a.type.Valid ∧ a.type.Canonical lanes

/-- If an operand is a constant, its lanes are canonical. -/
def CanonicalIfConst (f : Func) (o : Operand) : Prop :=
  ∃ a, f.find o = .ok a ∧ a.type.Valid ∧ ∀ lanes, a.constLanes = some lanes → a.type.Canonical lanes

theorem types_of_operandLanes {os : List Operand} (h : List.Forall₂ f.OperandLanes os args) :
    ∃ ts, List.Forall₂ f.OfType os ts ∧ List.Forall₂ Ty.Fits ts args ∧ ∀ t ∈ ts, t.Valid := by
  induction h with
  | nil => exact ⟨[], .nil, .nil, by simp⟩
  | @cons o lanes os args ho _ ih =>
    obtain ⟨a, ha, hvalid, hlanes⟩ := ho
    obtain ⟨ts, hts, hfits, hall⟩ := ih
    refine ⟨a.type :: ts, .cons ⟨a, ha, rfl⟩ hts, .cons (Ty.canonical_iff_fits.mp hlanes) hfits, ?_⟩
    exact List.forall_mem_cons.mpr ⟨hvalid, hall⟩

/-- Folding a value that the verifier accepts never faults on canonical lanes and gives such lanes. -/
theorem fold_canonical (hc : c.types id x = .ok []) (hx : x.type.Valid)
    (hargs : List.Forall₂ c.func.OperandLanes x.args args) :
    ∃ r, (c.func.operation x >>= fun q => q.fold args) = .ok r ∧
      ∀ lanes, r = some lanes → x.type.Canonical lanes := by
  obtain ⟨ts, hts, hfits, hvalid⟩ := types_of_operandLanes hargs
  obtain ⟨r, hr, hlanes⟩ := fold_fits ((types_nil_of hts).mp hc) hx hvalid hfits
  rw [operation_of hts]
  exact ⟨r, hr, fun lanes hl => Ty.canonical_iff_fits.mpr (hlanes lanes hl)⟩

theorem constOperands_canonical {os : List Operand} (h : ∀ o ∈ os, f.CanonicalIfConst o) :
    ∃ r, f.constOperands os = .ok r ∧ ∀ args, r = some args → List.Forall₂ f.OperandLanes os args := by
  induction os with
  | nil => exact ⟨_, rfl, fun args ha => by obtain rfl := Option.some.inj ha; exact .nil⟩
  | cons o os ih =>
    obtain ⟨⟨a, ha, hvalid, hconst⟩, hrest⟩ := List.forall_mem_cons.mp h
    obtain ⟨r, hr, hargs⟩ := ih hrest
    rw [constOperands, ha, Outcome.ok_bind]
    cases hlanes : a.constLanes with
    | none => exact ⟨none, rfl, fun _ hn => by cases hn⟩
    | some lanes =>
      refine ⟨r.map (lanes :: ·), by simp [hr], fun args hs => ?_⟩
      obtain ⟨more, rfl, rfl⟩ := Option.map_eq_some_iff.mp hs
      exact .cons ⟨a, ha, hvalid, hconst lanes hlanes⟩ (hargs more rfl)

theorem foldValue_canonical (hc : c.types id x = .ok []) (hx : x.type.Valid)
    (hargs : ∀ o ∈ x.args, c.func.CanonicalIfConst o) :
    ∃ r, c.func.foldValue x = .ok r ∧ ∀ lanes, r = some lanes → x.type.Canonical lanes := by
  obtain ⟨r, hr, hlanes⟩ := constOperands_canonical hargs
  rw [foldValue, hr, Outcome.ok_bind]
  cases r with
  | none => exact ⟨none, rfl, fun _ hn => by cases hn⟩
  | some args => exact fold_canonical hc hx (hlanes args rfl)

/-! ## Constants of a function -/

theorem insertValue_ok {i : Int} {r : Func × ValueId} (h : f.insertValue b i x = .ok r) :
    r = (f.inserted b i.toNat x, f.numValues) := by
  rw [insertValue] at h
  split at h
  · cases h
  · exact (Except.ok.inj h).symm

theorem insertConst_ok {i : Int} {r : Func × ValueId} (h : f.insertConst b i t lanes = .ok r) :
    r = (f.inserted b i.toNat (constOf t lanes), f.numValues) ∧ t.numLanes ≤ lanes.length := by
  rw [insertConst] at h
  cases t with
  | scalar k =>
    obtain ⟨w, hw, h⟩ := Outcome.bind_eq_ok.mp h
    obtain ⟨rest, rfl⟩ : ∃ rest, lanes = w :: rest := by
      cases lanes with
      | nil => cases Outcome.at?_eq_ok.mp hw
      | cons z rest => exact ⟨rest, by rw [Option.some.inj (Outcome.at?_eq_ok.mp hw)]⟩
    exact ⟨insertValue_ok h, Nat.succ_le_succ (Nat.zero_le _)⟩
  | vec e n =>
    obtain ⟨ls, hls, h⟩ := Outcome.bind_eq_ok.mp h
    rw [constLanesFor] at hls
    split at hls
    · cases hls
    next hl =>
    obtain rfl := Except.ok.inj hls
    exact ⟨insertValue_ok h, Nat.le_of_not_lt hl⟩

/-- If the value is a constant of a type that has a size, its lanes are canonical. -/
def CanonicalConst (y : Value) : Prop :=
  y.op = .const → y.type.elemKind.size ≠ 0 →
    ∃ lanes, y.constLanes = some lanes ∧ y.type.Canonical lanes

instance (y : Value) : Decidable (CanonicalConst y) :=
  decidable_of_iff (y.op = .const → y.type.elemKind.size ≠ 0 →
      y.constLanes.any fun lanes => lanes.length = y.type.numLanes &&
        lanes.all fun w => w.toNat < 2 ^ y.type.elemKind.bits) <| by
    simp [CanonicalConst, Ty.Canonical, Option.any_eq_true]

/-- All constants of a function are canonical, also those that no block lists. -/
def ConstsCanonical (f : Func) : Prop := ∀ v, CanonicalConst (f.value v)

/-- A new constant is cut to its type. -/
theorem constOf_canonical (hl : t.numLanes ≤ lanes.length) : CanonicalConst (constOf t lanes) := by
  intro _ hsize
  rw [constOf_type] at hsize ⊢
  have hcut : ∀ w, (t.elemKind.canon w).toNat < 2 ^ t.elemKind.bits :=
    fun w => Kind.cut_eq_self.mp (Kind.cut_canon hsize)
  cases t with
  | scalar k =>
    refine ⟨[k.canon (lanes.headD 0)], ?_, rfl, List.forall_mem_singleton.mpr (hcut _)⟩
    simp [constOf, Ty.isVector, Value.constLanes, Value.isConst, Ty.kind]
  | vec e n =>
    refine ⟨(lanes.take n.toNat).map e.canon, ?_, ?_, ?_⟩
    · simp [constOf, Ty.isVector, Value.constLanes, Value.isConst, laneCut, Ty.numLanes]
    · simpa [Ty.numLanes] using hl
    · intro w hw
      obtain ⟨z, -, rfl⟩ := List.mem_map.mp hw
      exact hcut z

/-- Every constant of `g` is canonical, or it is a constant of `f`. -/
def ConstsFrom (f g : Func) : Prop :=
  ∀ v, (g.value v).op = .const → CanonicalConst (g.value v) ∨
    v < f.numValues ∧ ∃ args block, g.value v = { f.value v with args, block }

namespace ConstsFrom

theorem refl (f : Func) : ConstsFrom f f := by
  intro v hv
  refine .inr ⟨?_, (f.value v).args, (f.value v).block, rfl⟩
  by_contra hge
  rw [value_of_le (Nat.le_of_not_lt hge)] at hv
  cases hv

/-- Where an edit leaves constants alone, it does not matter what it does elsewhere. -/
theorem edited (h : ConstsFrom f g) (hk : ∀ v, (k.value v).op = .const →
    CanonicalConst (k.value v) ∨ ∃ args block, k.value v = { g.value v with args, block }) :
    ConstsFrom f k := by
  intro v hv
  rcases hk v hv with hk | ⟨args, block, hk⟩
  · exact .inl hk
  · rw [hk] at hv ⊢
    rcases h v hv with hg | ⟨hlt, args', block', hg⟩
    · exact .inl hg
    · exact .inr ⟨hlt, args, block, by rw [hg]⟩

theorem modified {e : Value → Value} (h : ConstsFrom f g)
    (he : (e (g.value v)).op = .const → ∃ args block, e (g.value v) = { g.value v with args, block }) :
    ConstsFrom f (g.modifyValue v e) := by
  by_cases hlt : v < g.numValues
  · refine h.edited fun w hw => .inr ?_
    by_cases hwv : w = v
    · subst hwv
      rw [value_modifyValue hlt, if_pos rfl] at hw ⊢
      exact he hw
    · exact ⟨(g.value w).args, (g.value w).block, by rw [value_modifyValue_ne hwv]⟩
  · rw [modifyValue_of_le (Nat.le_of_not_lt hlt)]
    exact h

theorem inserted {i : Nat} (h : ConstsFrom f g) (hy : CanonicalConst y) :
    ConstsFrom f (g.inserted b i y) := by
  refine h.edited fun w hw => ?_
  rw [value_inserted] at hw ⊢
  split
  · exact .inl hy
  · exact .inr ⟨(g.value w).args, (g.value w).block, rfl⟩

theorem of_rewrites (h : f.Rewrites g) : ConstsFrom f g := by
  induction h with
  | refl => exact .refl f
  | block b e _ ih => exact ih.edited fun v _ => .inr ⟨_, _, rfl⟩
  | layout l _ ih => exact ih.edited fun v _ => .inr ⟨_, _, rfl⟩
  | @rewire g v e he _ ih => exact ih.modified fun _ => he (g.value v)
  | toAdd v _ ih => exact ih.modified fun hop => by cases hop
  | const _ hx ih =>
    obtain ⟨rfl, hl⟩ := insertConst_ok hx
    exact ih.inserted (constOf_canonical hl)
  | @phi _ _ _ y _ _ hy hx ih =>
    obtain rfl := insertValue_ok hx
    refine ih.inserted fun hop => ?_
    rw [hy] at hop
    cases hop

theorem constsCanonical (h : ConstsFrom f g) (hf : f.ConstsCanonical) : g.ConstsCanonical := by
  intro v hop hsize
  rcases h v hop with hv | ⟨-, args, block, hv⟩
  · exact hv hop hsize
  · rw [hv] at hop hsize ⊢
    exact hf v hop hsize

end ConstsFrom

theorem constsCanonical_of_lt (h : ∀ v < f.numValues, CanonicalConst (f.value v)) :
    f.ConstsCanonical := by
  intro v hop
  by_cases hlt : v < f.numValues
  · exact h v hlt hop
  · rw [value_of_le (Nat.le_of_not_lt hlt)] at hop
    cases hop

/-- Operands that the function lists itself are then as folding needs them. -/
theorem ConstsCanonical.operand (hf : f.ConstsCanonical) (ht : (f.value v).type.Valid)
    (hsize : (f.value v).type.elemKind.size ≠ 0) : f.CanonicalIfConst (.value v) := by
  refine ⟨f.value v, rfl, ht, fun lanes hl => ?_⟩
  have hop : (f.value v).op = .const := by
    by_contra hne
    simp [Value.constLanes, Value.isConst, hne] at hl
  obtain ⟨lanes', hl', hcan⟩ := hf v hop hsize
  obtain rfl := Option.some.inj (hl'.symm.trans hl)
  exact hcan

end Func

/-! ## Sequences of optimisations -/

namespace Pass

open Func

/-- Folding a value that the verifier accepts never faults on canonical lanes, whether the lanes are
given or those of constant operands, and what it answers is canonical. Optimisations make no other
constants, so a function all of whose constants are canonical stays one. -/
theorem constants_stay_canonical :
    (∀ {c : Checker} {id : ValueId} {x : Value}, c.types id x = .ok [] → x.type.Valid →
      (∀ args, List.Forall₂ c.func.OperandLanes x.args args →
        ∃ r, (c.func.operation x >>= fun q => q.fold args) = .ok r ∧
          ∀ lanes, r = some lanes → x.type.Canonical lanes) ∧
      ((∀ o ∈ x.args, c.func.CanonicalIfConst o) →
        ∃ r, c.func.foldValue x = .ok r ∧ ∀ lanes, r = some lanes → x.type.Canonical lanes)) ∧
    ∀ f : Func,
      (∀ names, Throughout names f f.ConstsFrom) ∧
      (f.ConstsCanonical →
        (∀ names, Throughout names f ConstsCanonical) ∧
        ∀ (p : Pipeline) n t g t', p.runUntilFixed n f t = .ok (g, t') → g.ConstsCanonical) := by
  refine ⟨fun hc hx => ⟨fun _ hargs => fold_canonical hc hx hargs,
    fun hargs => foldValue_canonical hc hx hargs⟩, fun f => ?_⟩
  have hnames : ∀ names, Throughout names f f.ConstsFrom :=
    fun names => (throughout_rewrites names f).imp fun _ => .of_rewrites
  refine ⟨hnames, fun hf => ⟨fun names => (hnames names).imp fun _ hg => hg.constsCanonical hf, ?_⟩⟩
  intro p n t g t' h
  exact (ConstsFrom.of_rewrites (Pipeline.runUntilFixed_rewrites h)).constsCanonical hf

/-- Two hundred and one hundred, added as bytes. -/
def byteSum : Func where
  name := "byteSum"
  ret := .i8
  params := []
  values := #[
    { op := .const, type := .i8, block := some 0, aux := 200 },
    { op := .const, type := .i8, block := some 0, aux := 100 },
    { op := .add, type := .i8, block := some 0, args := [.value 0, .value 1] }]
  blocks := #[{ values := [0, 1, 2], kind := .ret, control := .value 2 }]
  layout := [0]

/-- The sum is cut to forty-four, and combining puts it for the addition. -/
theorem constants_stay_canonical_byteSum :
    (∃ r, byteSum.foldValue (byteSum.value 2) = .ok r ∧
      ∀ lanes, r = some lanes → Ty.i8.Canonical lanes) ∧
    byteSum.foldValue (byteSum.value 2) = .ok (some [44]) ∧
    (runNamed ["instcombine"] byteSum).2.ConstsCanonical ∧
    ((runNamed ["instcombine"] byteSum).2.value 3).constLanes = some [44] := by
  obtain ⟨hfold, hpasses⟩ := constants_stay_canonical
  have htypes : (byteSum.checker default).types 2 (byteSum.value 2) = .ok [] := rfl
  have hcanonical : byteSum.ConstsCanonical := constsCanonical_of_lt (by decide)
  refine ⟨(hfold htypes (by decide)).2 ?_, rfl, ((hpasses byteSum).2 hcanonical).1 _ |>.2, rfl⟩
  intro o ho
  obtain rfl | rfl : o = .value 0 ∨ o = .value 1 := by simpa [byteSum, value] using ho
  · exact hcanonical.operand (by decide) (by decide)
  · exact hcanonical.operand (by decide) (by decide)

end Pass

end SsaJit
