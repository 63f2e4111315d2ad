import SsaJit.Graph.Basic
import SsaJit.Proofs.Lanes
import SsaJit.Proofs.Outcome

/-! Folding a well-typed operation on lanes that fit their types always comes to an answer, and an
answer with lanes has lanes that fit the type of the result. -/

namespace SsaJit

/-- As many lanes as the type has, each as the bytes of its kind hold it. -/
def Ty.Fits (t : Ty) (lanes : List UInt64) : Prop :=
  lanes.length = t.numLanes ∧ ∀ w ∈ lanes, t.elemKind.cut w = w

theorem Ty.Fits.getElem? {t : Ty} {lanes : List UInt64} (h : t.Fits lanes) {i : Nat}
    (hi : i < t.numLanes) : ∃ w, lanes[i]? = some w ∧ t.elemKind.cut w = w := by
  have hlt : i < lanes.length := by rw [h.1]; exact hi
  exact ⟨lanes[i], List.getElem?_eq_getElem hlt, h.2 _ (List.getElem_mem hlt)⟩

theorem Ty.Fits.at? {t : Ty} {lanes : List UInt64} (h : t.Fits lanes) {i : Nat}
    (hi : i < t.numLanes) : ∃ w, Outcome.at? lanes i = .ok w ∧ t.elemKind.cut w = w := by
  obtain ⟨w, hw, hfit⟩ := h.getElem? hi
  exact ⟨w, Outcome.at?_eq_ok.mpr hw, hfit⟩

theorem Ty.Fits.map_canon {t : Ty} {lanes : List UInt64} (h : t.Fits lanes) :
    lanes.map t.elemKind.canon = lanes := by
  conv_rhs => rw [← List.map_id lanes]
  exact List.map_congr_left fun w hw => Kind.canon_of_cut (h.2 w hw)

theorem Ty.Fits.cut_canon {t : Ty} {lanes : List UInt64} (h : t.Fits lanes) :
    ∀ w ∈ lanes, t.elemKind.cut (t.elemKind.canon w) = t.elemKind.canon w := by
  intro w hw
  rw [Kind.canon_of_cut (h.2 w hw), h.2 w hw]

theorem Operation.fit_of_length {n : Nat} {lanes : List UInt64} (h : lanes.length = n) :
    fit n lanes = lanes := by
  subst h
  simp [fit]

theorem forall₂_range {P : Nat → UInt64 → Prop} {r : List UInt64} {n : Nat} (hn : r.length = n)
    (h : ∀ i w, r[i]? = some w → P i w) : List.Forall₂ P (List.range n) r := by
  refine List.forall₂_iff_get.mpr ⟨by rw [List.length_range, hn], fun i _ hi => ?_⟩
  simpa using h i r[i] (List.getElem?_eq_getElem hi)

theorem perLane_of_forall₂ {g : Nat → Outcome (Option UInt64)} {l : List Nat} {r : List UInt64}
    (h : List.Forall₂ (fun i r => g i = .ok (some r)) l r) :
    Operation.perLane g l = .ok (some r) := by
  induction h with
  | nil => rfl
  | cons hg _ ih =>
    rw [Operation.perLane, hg, Outcome.ok_bind, ih]
    rfl

namespace Func

variable {x : Value} {ts : List Ty} {home : Prop} {args : List (List UInt64)}

/-- The operation of a value with operands of given types. -/
def operationOf (x : Value) (ts : List Ty) : Operation :=
  { op := x.op, type := x.type, aux := x.aux, mask := x.mask.getD [], operands := ts }

/-- An answer that fits a type, or a lack of one. -/
def Folds (t : Ty) (r : Outcome (Option (List UInt64))) : Prop :=
  ∃ l, r = .ok l ∧ ∀ lanes, l = some lanes → t.Fits lanes

theorem folds_none {t : Ty} : Folds t (.ok none) := ⟨none, rfl, fun _ h => by cases h⟩

theorem folds_some {t : Ty} {lanes : List UInt64} (h : t.Fits lanes) : Folds t (.ok (some lanes)) :=
  ⟨some lanes, rfl, fun _ hl => by obtain rfl := Option.some.inj hl; exact h⟩

theorem folds_perLane {t : Ty} {g : Nat → Outcome (Option UInt64)}
    (h : ∀ i < t.numLanes, LaneFits t.elemKind (g i)) :
    Folds t (Operation.perLane g (List.range t.numLanes)) := by
  obtain ⟨r, hr, hall⟩ := Operation.perLane_fits (k := t.elemKind) (g := g)
    (l := List.range t.numLanes) fun i hi => h i (List.mem_range.mp hi)
  refine ⟨r, hr, fun lanes hl => ?_⟩
  obtain ⟨hlen, hfit⟩ := hall lanes hl
  exact ⟨by rw [hlen, List.length_range], hfit⟩

theorem folds_lanes {t : Ty} {g : Nat → Outcome UInt64}
    (h : ∀ i < t.numLanes, ∃ w, g i = .ok w ∧ t.elemKind.cut w = w) :
    Folds t (some <$> (List.range t.numLanes).mapM g) := by
  obtain ⟨lanes, hl, hlen, hfit⟩ := mapM_fits (P := fun w => t.elemKind.cut w = w) (g := g)
    (l := List.range t.numLanes) fun i hi => h i (List.mem_range.mp hi)
  rw [hl]
  exact folds_some ⟨by rw [hlen, List.length_range], hfit⟩

theorem isFloat_elemKind {t : Ty} (h : t.isFloat = true) : t.elemKind = .f32 := by
  simpa [Ty.isFloat] using h

theorem fold_binary_eq (hop : x.op.isBinary = true) (a b : List UInt64) :
    (operationOf x ts).fold [a, b] = Operation.perLane (fun i => do
      evalBinary x.op x.type.elemKind (← .at? a i) (← .at? b i)) (List.range x.type.numLanes) := by
  simp only [Operation.fold, operationOf, hop, if_true]
  rfl

/-- A binary operation lane by lane. -/
theorem fold_binary_lanes {p q r : List UInt64} (hop : x.op.isBinary = true)
    (hr : r.length = x.type.numLanes)
    (h : ∀ (i : Nat) (c : UInt64), r[i]? = some c → ∃ a b, p[i]? = some a ∧ q[i]? = some b ∧
      evalBinary x.op x.type.elemKind a b = .ok (some c)) :
    (operationOf x ts).fold [p, q] = .ok (some r) := by
  rw [fold_binary_eq hop]
  refine perLane_of_forall₂ (forall₂_range hr fun i c hc => ?_)
  obtain ⟨a, b, ha, hb, heval⟩ := h i c hc
  rw [Outcome.at?_eq_ok.mpr ha, Outcome.at?_eq_ok.mpr hb]
  exact heval

/-- A binary operation that gives a result in every lane. -/
theorem fold_binary_zipWith {p q : List UInt64} {lane : UInt64 → UInt64 → UInt64}
    (hop : x.op.isBinary = true) (hp : p.length = x.type.numLanes) (hq : q.length = x.type.numLanes)
    (hlane : ∀ a b, evalBinary x.op x.type.elemKind a b = .ok (some (lane a b))) :
    (operationOf x ts).fold [p, q] = .ok (some (List.zipWith lane p q)) := by
  refine fold_binary_lanes hop (by simp [hp, hq]) fun i c hc => ?_
  obtain ⟨a, b, ha, hb, rfl⟩ := List.getElem?_zipWith_eq_some.mp hc
  exact ⟨a, b, ha, hb, hlane a b⟩

theorem fold_binary (hop : x.op.isBinary = true) (hty : WellTyped x ts home)
    (hargs : List.Forall₂ Ty.Fits ts args) : Folds x.type ((operationOf x ts).fold args) := by
  rw [WellTyped, if_pos hop] at hty
  obtain ⟨rfl, hty⟩ := hty
  obtain ⟨a, as, ha, has, rfl⟩ := List.forall₂_cons_left_iff.mp hargs
  obtain ⟨b, bs, hb, hbs, rfl⟩ := List.forall₂_cons_left_iff.mp has
  obtain rfl := List.forall₂_nil_left_iff.mp hbs
  rw [fold_binary_eq hop]
  refine folds_perLane fun i hi => ?_
  obtain ⟨u, hu, _⟩ := ha.at? hi
  obtain ⟨w, hw, hwfit⟩ := hb.at? hi
  rw [hu, hw]
  cases hf : x.op.isFloatBinary with
  | true =>
    rw [hf, if_pos rfl] at hty
    rw [isFloat_elemKind hty]
    exact evalBinary_float hf
  | false =>
    rw [hf] at hty
    exact evalBinary_int hty hf hwfit

theorem forall₂_one {s : Ty} (h : List.Forall₂ Ty.Fits [s] args) :
    ∃ a, args = [a] ∧ s.Fits a := by
  obtain ⟨a, as, ha, has, rfl⟩ := List.forall₂_cons_left_iff.mp h
  obtain rfl := List.forall₂_nil_left_iff.mp has
  exact ⟨a, rfl, ha⟩

theorem forall₂_two {s t : Ty} (h : List.Forall₂ Ty.Fits [s, t] args) :
    ∃ a b, args = [a, b] ∧ s.Fits a ∧ t.Fits b := by
  obtain ⟨a, as, ha, has, rfl⟩ := List.forall₂_cons_left_iff.mp h
  obtain ⟨b, rfl, hb⟩ := forall₂_one has
  exact ⟨a, b, rfl, ha, hb⟩

theorem forall₂_three {s t u : Ty} (h : List.Forall₂ Ty.Fits [s, t, u] args) :
    ∃ a b c, args = [a, b, c] ∧ s.Fits a ∧ t.Fits b ∧ u.Fits c := by
  obtain ⟨a, as, ha, has, rfl⟩ := List.forall₂_cons_left_iff.mp h
  obtain ⟨b, c, rfl, hb, hc⟩ := forall₂_two has
  exact ⟨a, b, c, rfl, ha, hb, hc⟩

theorem fold_bitcast_eq {s : Ty} {a lanes : List UInt64} (hop : x.op = .bitcast) (ha : s.Fits a)
    (hread : readLanes x.type.elemKind x.type.elemKind.size x.type.numLanes
      (a.flatMap (leBytes s.elemKind.size)) = .ok lanes) :
    (operationOf x [s]).fold [a] = .ok (some lanes) := by
  have hbytes := bytesOfLanes_eq ha.1
  simp only [Operation.fold, operationOf, hop, Op.isBinary, Outcome.at?]
  simp [hbytes, lanesOfBytes, hread]

theorem fold_bitcast {s : Ty} {a : List UInt64} (hop : x.op = .bitcast)
    (hrule : castRule? .bitcast s x.type = none) (ha : s.Fits a) :
    Folds x.type ((operationOf x [s]).fold [a]) := by
  have hsize : s.size = x.type.size := by
    simp only [castRule?, if_true] at hrule
    split at hrule
    · next h => simp at h; exact h.1
    · cases hrule
  obtain ⟨lanes, hl, hlen, hfit⟩ := readLanes_fits x.type.elemKind x.type.numLanes
    (a.flatMap (leBytes s.elemKind.size)) (by
      rw [length_bytes, ha.1]
      exact hsize)
  rw [fold_bitcast_eq hop ha hl]
  exact folds_some ⟨hlen, hfit⟩

theorem evalCast_fits {op : Op} {s t : Ty} {w : UInt64} (hop : op.isCast = true)
    (hne : op ≠ .bitcast) (hrule : castRule? op s t = none) :
    LaneFits t.elemKind (.ok (evalCast op s.elemKind t.elemKind w)) := by
  have hcanon : t.elemKind.size ≠ 0 → ∀ r, LaneFits t.elemKind (.ok (some (t.elemKind.canon r))) :=
    fun h r => laneFits_some (Kind.cut_canon h)
  have hint : t.elemKind.isInt = true → t.elemKind.size ≠ 0 := Kind.size_ne_zero_of_isInt
  unfold castRule? at hrule
  simp only [hne, if_false] at hrule
  split at hrule
  · cases hrule
  unfold evalCast
  cases op <;> simp only [Op.isCast, Bool.false_eq_true] at hop <;>
    simp only [ite_eq_left_iff, reduceCtorEq, imp_false, not_not, Bool.and_eq_true,
      beq_iff_eq] at hrule ⊢
  case trunc => exact hcanon (hint hrule.1.2) _
  case zext => exact hcanon (hint hrule.1.2) _
  case sext => exact hcanon (hint hrule.1.2) _
  case fptosi | fptoui =>
    split
    · exact hcanon (hint hrule.1.2) _
    · exact laneFits_none
  case sitofp | uitofp =>
    rw [hrule.2]
    exact laneFits_some (Single.toWord_fits _)
  case bitcast => exact absurd rfl hne
  case ptrtoint => exact hcanon (hint hrule.2) _
  case inttoptr => exact hcanon (by rw [hrule.2]; decide) _

theorem fold_cast_eq {s : Ty} (hop : x.op.isCast = true) (hb : x.op ≠ .bitcast) (a : List UInt64) :
    (operationOf x [s]).fold [a] = Operation.perLane (fun i => do
      return evalCast x.op s.elemKind x.type.elemKind (← .at? a i))
      (List.range x.type.numLanes) := by
  unfold Operation.fold operationOf
  simp only [Op.isBinary_of_isCast hop]
  cases hx : x.op <;> first
    | rfl
    | exact absurd hx hb
    | (rw [hx] at hop; cases hop)

theorem castRule?_numLanes {op : Op} {s t : Ty} (hb : op ≠ .bitcast)
    (hrule : castRule? op s t = none) : s.numLanes = t.numLanes := by
  unfold castRule? at hrule
  simp only [hb, if_false] at hrule
  split at hrule
  · cases hrule
  · next h => exact not_not.mp h

theorem fold_cast (hop : x.op.isCast = true) (hbin : x.op.isBinary ≠ true)
    (hty : WellTyped x ts home) (hargs : List.Forall₂ Ty.Fits ts args) :
    Folds x.type ((operationOf x ts).fold args) := by
  rw [WellTyped, if_neg hbin, if_pos hop] at hty
  obtain ⟨s, rfl, hrule⟩ := hty
  obtain ⟨a, rfl, ha⟩ := forall₂_one hargs
  by_cases hb : x.op = .bitcast
  · exact fold_bitcast hb (hb ▸ hrule) ha
  have hlanes := castRule?_numLanes hb hrule
  rw [fold_cast_eq hop hb]
  refine folds_perLane fun i hi => ?_
  obtain ⟨w, hw, _⟩ := ha.at? (hlanes ▸ hi)
  rw [hw]
  exact evalCast_fits hop hb hrule

theorem fold_unary (hop : x.op = .fneg ∨ x.op = .fsqrt) (hty : x.type.isFloat = true)
    {a : List UInt64} (ha : x.type.Fits a) :
    Folds x.type ((operationOf x [x.type]).fold [a]) := by
  have hk := isFloat_elemKind hty
  rcases hop with hop | hop
  · have hfold : (operationOf x [x.type]).fold [a] = some <$>
        (List.range x.type.numLanes).mapM fun i => do return (← .at? a i) ^^^ 0x80000000 := by
      simp only [Operation.fold, operationOf, hop, Op.isBinary]
      rfl
    rw [hfold]
    refine folds_lanes fun i hi => ?_
    obtain ⟨w, hw, hfit⟩ := ha.at? hi
    rw [hw]
    rw [hk] at hfit ⊢
    exact ⟨_, rfl, fneg_fits hfit⟩
  · have hfold : (operationOf x [x.type]).fold [a] = some <$>
        (List.range x.type.numLanes).mapM fun i => do
          return (Single.ofWord (← .at? a i)).sqrt.toWord := by
      simp only [Operation.fold, operationOf, hop, Op.isBinary]
      rfl
    rw [hfold]
    refine folds_lanes fun i hi => ?_
    obtain ⟨w, hw, _⟩ := ha.at? hi
    rw [hw, hk]
    exact ⟨_, rfl, Single.toWord_fits _⟩

theorem maskType_spec {s t : Ty} (hs : s.Valid) (h : s.maskType = .ok t) :
    t.numLanes = s.numLanes ∧ t.elemKind.size ≠ 0 := by
  cases s with
  | scalar k =>
    obtain rfl : Ty.i1 = t := Except.ok.inj h
    exact ⟨rfl, by decide⟩
  | vec e n =>
    obtain ⟨k, rfl, hsize⟩ := maskType_vec h
    exact ⟨rfl, fun hzero => laneKind_size hs.1 (hsize.symm.trans hzero)⟩

theorem fold_compare_eq {s t : Ty} (hop : x.op = .icmp ∨ x.op = .fcmp) (a b : List UInt64) :
    (operationOf x [s, t]).fold [a, b] = some <$> (List.range x.type.numLanes).mapM fun i => do
      return if evalCompare x.predicate s.elemKind (← .at? a i) (← .at? b i)
        then x.type.elemKind.canon (-1) else 0 := by
  rcases hop with hop | hop <;>
  · simp only [Operation.fold, operationOf, hop, Op.isBinary]
    rfl

theorem fold_compare {s : Ty} {a b : List UInt64} (hop : x.op = .icmp ∨ x.op = .fcmp)
    (hs : s.Valid) (hmask : s.maskType = .ok x.type) (ha : s.Fits a) (hb : s.Fits b) :
    Folds x.type ((operationOf x [s, s]).fold [a, b]) := by
  obtain ⟨hlanes, hsize⟩ := maskType_spec hs hmask
  rw [fold_compare_eq hop]
  refine folds_lanes fun i hi => ?_
  obtain ⟨u, hu, _⟩ := ha.at? (hlanes ▸ hi)
  obtain ⟨w, hw, _⟩ := hb.at? (hlanes ▸ hi)
  rw [hu, hw]
  refine ⟨_, rfl, ?_⟩
  split
  · exact Kind.cut_canon hsize
  · exact Kind.cut_zero _

theorem fold_select_bit {t u : Ty} {a b c : List UInt64} {w : UInt64} (hop : x.op = .select)
    (hw : a[0]? = some w) :
    (operationOf x [.i1, t, u]).fold [a, b, c] = .ok (some (if w ≠ 0 then b else c)) := by
  simp only [Operation.fold, operationOf, hop, Op.isBinary, Outcome.at?]
  by_cases hzero : w = 0 <;> simp [Ty.isVector, hw, hzero]

theorem fold_select_lanes {s t u : Ty} (hop : x.op = .select) (hvec : s.isVector = true)
    (a b c : List UInt64) : (operationOf x [s, t, u]).fold [a, b, c] = some <$>
      (List.range x.type.numLanes).mapM (fun i => do
        if (← Outcome.at? a i) ≠ 0 then Outcome.at? b i else Outcome.at? c i) := by
  simp only [Operation.fold, operationOf, hop, Op.isBinary, Outcome.at?]
  simp only [hvec, List.getElem?_cons_zero, Outcome.ok_bind]
  rfl

theorem fold_select {s : Ty} {a b c : List UInt64} (hop : x.op = .select)
    (hs : s = .i1 ∨ (s.isVector = true ∧ s.isInt = true ∧ s.numLanes = x.type.numLanes))
    (ha : s.Fits a) (hb : x.type.Fits b) (hc : x.type.Fits c) :
    Folds x.type ((operationOf x [s, x.type, x.type]).fold [a, b, c]) := by
  rcases hs with rfl | ⟨hvec, _, hlanes⟩
  · obtain ⟨w, hw, _⟩ := ha.getElem? (i := 0) (by decide)
    rw [fold_select_bit hop hw]
    refine folds_some ?_
    split
    · exact hb
    · exact hc
  · rw [fold_select_lanes hop hvec]
    refine folds_lanes fun i hi => ?_
    obtain ⟨u, hu, _⟩ := ha.at? (hlanes ▸ hi)
    rw [hu]
    by_cases hzero : u = 0
    · obtain ⟨w, hw, hfit⟩ := hc.at? hi
      exact ⟨w, by simp [hzero, hw], hfit⟩
    · obtain ⟨w, hw, hfit⟩ := hb.at? hi
      exact ⟨w, by simp [hzero, hw], hfit⟩

theorem laneAt_eq {lanes : List UInt64} {i : Int} (h : 0 ≤ i) :
    laneAt lanes i = .at? lanes i.toNat := by
  rw [laneAt, if_neg (by omega)]

theorem fold_extract {s : Ty} {a : List UInt64} (hop : x.op = .extract) (hs : s.Valid)
    (hvec : s.isVector = true) (hlane : LaneOf x s) (hty : x.type = s.elemType) (ha : s.Fits a) :
    Folds x.type ((operationOf x [s]).fold [a]) := by
  cases s with
  | scalar k => simp [Ty.isVector] at hvec
  | vec e n =>
    have hte : x.type = .scalar e := by
      rw [hty]
      cases e <;> simp_all [Ty.elemType, Ty.elemKind, Ty.ofKind, Ty.Valid, Ty.laneKind]
    obtain ⟨hnonneg, hlt⟩ := hlane
    obtain ⟨w, hw, hfit⟩ := ha.at? (i := x.aux.toInt.toNat) (by omega)
    have hfold : (operationOf x [.vec e n]).fold [a] = .ok (some [w]) := by
      have hat : Outcome.at? [a] 0 = .ok a := rfl
      simp only [Operation.fold, operationOf, hop, Op.isBinary, hat, Outcome.ok_bind,
        laneAt_eq hnonneg, hw, hte]
      rfl
    rw [hfold]
    refine folds_some ⟨by rw [hte]; rfl, fun y hy => ?_⟩
    obtain rfl : y = w := by simpa using hy
    rw [hte]
    exact hfit

theorem fold_insert {a b : List UInt64} (hop : x.op = .insert) (hx : x.type.Valid)
    (hvec : x.type.isVector = true) (hlane : LaneOf x x.type) (ha : x.type.Fits a)
    (hb : x.type.elemType.Fits b) :
    Folds x.type ((operationOf x [x.type, x.type.elemType]).fold [a, b]) := by
  have helem : x.type.elemType = .scalar x.type.elemKind := by
    cases ht : x.type with
    | scalar k => simp [ht, Ty.isVector] at hvec
    | vec e n =>
      rw [ht] at hx
      cases e <;> simp_all [Ty.elemType, Ty.elemKind, Ty.ofKind, Ty.Valid, Ty.laneKind]
  rw [helem] at hb
  obtain ⟨w, hw, hfit⟩ := hb.getElem? (i := 0) Nat.one_pos
  obtain ⟨hnonneg, hlt⟩ := hlane
  have hfold : (operationOf x [x.type, x.type.elemType]).fold [a, b] =
      .ok (some (a.set x.aux.toInt.toNat w)) := by
    have hin : ¬ (x.aux.toInt < 0 ∨ x.type.numLanes ≤ x.aux.toInt.toNat) := by omega
    simp only [Operation.fold, operationOf, hop, Op.isBinary, Outcome.at?]
    simp only [List.getElem?_cons_zero, List.getElem?_cons_succ, Outcome.ok_bind, hw, if_neg hin,
      Operation.fit_of_length ha.1]
    rfl
  rw [hfold]
  refine folds_some ⟨by simp [ha.1], fun y hy => ?_⟩
  rcases List.mem_or_eq_of_mem_set hy with hy | rfl
  · exact ha.2 y hy
  · exact hfit

theorem shuffleLane_fits {s : Ty} {a b : List UInt64} {m : Int} (ha : s.Fits a) (hb : s.Fits b)
    (hm : m < 2 * (s.numLanes : Int)) :
    ∃ w, Operation.shuffleLane s.numLanes [a, b] m = .ok w ∧ s.elemKind.cut w = w := by
  unfold Operation.shuffleLane
  by_cases hneg : m < 0
  · exact ⟨0, by simp [hneg], Kind.cut_zero _⟩
  · rw [if_neg hneg]
    by_cases hfirst : m < s.numLanes
    · rw [if_pos hfirst]
      exact ha.at? (by omega)
    · rw [if_neg hfirst]
      exact hb.at? (by omega)

theorem fold_shuffle {s : Ty} {a b : List UInt64} (hop : x.op = .shuffle)
    (hkind : x.type.elemKind = s.elemKind) (hlen : (x.mask.getD []).length = x.type.numLanes)
    (hsel : ∀ m ∈ x.mask.getD [], m < 2 * (s.numLanes : Int)) (ha : s.Fits a) (hb : s.Fits b) :
    Folds x.type ((operationOf x [s, s]).fold [a, b]) := by
  obtain ⟨lanes, hl, hn, hfit⟩ := mapM_fits (P := fun w => s.elemKind.cut w = w)
    (g := Operation.shuffleLane s.numLanes [a, b]) (l := x.mask.getD [])
    fun m hm => shuffleLane_fits ha hb (hsel m hm)
  have hfold : (operationOf x [s, s]).fold [a, b] = .ok (some lanes) := by
    simp only [Operation.fold, operationOf, hop, Op.isBinary, Outcome.at?]
    simp [hlen, hl, Operation.fit_of_length (hn.trans hlen)]
  rw [hfold]
  exact folds_some ⟨hn.trans hlen, hkind ▸ hfit⟩

theorem fold_copy_eq {a : List UInt64} (hop : x.op = .copy) (ha : x.type.Fits a) :
    (operationOf x ts).fold [a] = .ok (some a) := by
  simp only [Operation.fold, operationOf, hop, Op.isBinary, Outcome.at?]
  simp [Operation.fit_of_length ha.1]

theorem fold_copy {a : List UInt64} (hop : x.op = .copy) (ha : x.type.Fits a) :
    Folds x.type ((operationOf x [x.type]).fold [a]) := by
  rw [fold_copy_eq hop ha]
  exact folds_some ha

/-- Folding a well-typed operation never faults, and what it answers fits the type. -/
theorem fold_fits (hty : WellTyped x ts home) (hx : x.type.Valid) (hts : ∀ t ∈ ts, t.Valid)
    (hargs : List.Forall₂ Ty.Fits ts args) : Folds x.type ((operationOf x ts).fold args) := by
  by_cases hbin : x.op.isBinary = true
  · exact fold_binary hbin hty hargs
  by_cases hcast : x.op.isCast = true
  · exact fold_cast hcast hbin hty hargs
  rw [WellTyped, if_neg hbin, if_neg hcast] at hty
  have hnone : ∀ {op}, x.op = op → (operationOf x ts).fold args = .ok none →
      Folds x.type ((operationOf x ts).fold args) := fun _ h => h ▸ folds_none
  cases hop : x.op <;> simp only [hop] at hty
  case fneg | fsqrt =>
    obtain ⟨hfloat, rfl⟩ := hty
    obtain ⟨a, rfl, ha⟩ := forall₂_one hargs
    exact fold_unary (by simp [hop]) hfloat ha
  case icmp | fcmp =>
    obtain ⟨s, rfl, hmask, _⟩ := hty
    obtain ⟨a, b, rfl, ha, hb⟩ := forall₂_two hargs
    exact fold_compare (by simp [hop]) (hts s (by simp)) hmask ha hb
  case extract =>
    obtain ⟨s, rfl, hvec, hlane, htype⟩ := hty
    obtain ⟨a, rfl, ha⟩ := forall₂_one hargs
    exact fold_extract hop (hts s (by simp)) hvec hlane htype ha
  case insert =>
    obtain ⟨rfl, hvec, hlane⟩ := hty
    obtain ⟨a, b, rfl, ha, hb⟩ := forall₂_two hargs
    exact fold_insert hop hx hvec hlane ha hb
  case shuffle =>
    obtain ⟨s, rfl, _, _, hkind, hlen, hsel⟩ := hty
    obtain ⟨a, b, rfl, ha, hb⟩ := forall₂_two hargs
    exact fold_shuffle hop hkind hlen hsel ha hb
  case select =>
    obtain ⟨s, rfl, hs⟩ := hty
    obtain ⟨a, b, c, rfl, ha, hb, hc⟩ := forall₂_three hargs
    exact fold_select hop hs ha hb hc
  case copy =>
    subst hty
    obtain ⟨a, rfl, ha⟩ := forall₂_one hargs
    exact fold_copy hop ha
  all_goals
    first
    | simp [hop, Op.isBinary] at hbin; done
    | simp [hop, Op.isCast] at hcast; done
    | exact hnone hop (by simp [Operation.fold, operationOf, hop, Op.isBinary, Op.isCast])

end Func
end SsaJit
