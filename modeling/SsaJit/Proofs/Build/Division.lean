import SsaJit.Proofs.Build.Finish
import SsaJit.Proofs.Build.Operators
import SsaJit.Proofs.Numbers

/-! Division of integers, in every lane of every type. The divisor is one wherever dividing by it would
stop the program, and what the division then gives is the quotient or the remainder of the numbers that
the lanes stand for. -/

namespace SsaJit.Build

open Func BuildM

variable {s : Session} {f g : Func} {b : BlockId} {a c : ValueId}
  {P : regionInterp.State → Prop} {Γ : List Meaning} {x y z : regionInterp.State → Nat → UInt64}

/-! ## The division -/

/-- The type of one lane has the same numbers. -/
theorem SType.lane_word {t : SType} (ht : t.isInteger = true) :
    t.lane.Word t.ty.elemKind ∧ t.lane.numClass = t.numClass ∧ t.lane.ty.elemKind = t.ty.elemKind := by
  cases t <;> first
    | exact ⟨⟨rfl, rfl, rfl, by decide⟩, rfl, rfl⟩
    | simp [isInteger, numClass] at ht

theorem SType.isFloat_of_isInteger {t : SType} (ht : t.isInteger = true) : t.isFloat = false := by
  cases t <;> first | rfl | simp [isInteger, numClass] at ht

theorem Ledger.guardedDivision {t : SType} {o : BinOp} (hs : s.closed = false) (h : Ledger f b P g Γ)
    (ht : t.isInteger = true) (ho : o = .div ∨ o = .rem) (ha : ⟨a, t.ty, x⟩ ∈ Γ) (hc : ⟨c, t.ty, y⟩ ∈ Γ)
    (hcut : ∀ st, P st → ∀ i < t.ty.numLanes, t.ty.elemKind.cut (y st i) = y st i) :
    Adds s f b P g Γ (BuildM.guardedDivision o.choice (own s t a) (own s t c)) (own s t) t.ty fun st i =>
      o.eval t (x st i) (y st i) := by
  obtain ⟨hword, hclass, hkind⟩ := SType.lane_word ht
  have hsigned : t.lane.isSigned = t.isSigned := by rw [SType.isSigned, SType.isSigned, hclass]
  obtain ⟨op, hpick, hbin, hfloat, heval⟩ := o.guarded_eval hword ho
  rw [hclass] at hpick
  rw [hsigned] at heval
  have heval' : ∀ p q, o.eval t.lane p q = o.eval t p q := fun p q => by
    simp only [BinOp.eval, hkind, hsigned]
  obtain ⟨g₁, v₁, hgives₁, h₁⟩ := h.safeDivisor t.isSigned hs hword.isInt ha hc
  obtain ⟨g₂, v₂, hgives₂, h₂⟩ := h₁.binary (z := fun st i => o.eval t (x st i) (y st i)) hs hbin hfloat
    hword.isInt (.tail _ ha) (.head _) fun st hst i hi => by rw [heval _ _ (hcut st hst i hi), heval']
  have hboth : Adds s f b P g Γ (do
      let d ← BuildM.safeDivisor t.ty (.value a) (.value c) (t.numClass == .signed)
      let op ← lift (o.choice.pick t.numClass)
      BuildM.binary op (.value a) d) .value t.ty fun st i => o.eval t (x st i) (y st i) := by
    rw [hpick]
    exact ⟨g₂, v₂, hgives₁.bind (gives_lift.bind hgives₂),
      h₂.settle (fun e he => .tail _ he) fun _ _ _ _ => rfl⟩
  obtain ⟨g', v, hgives, hledger⟩ := hboth.into
  exact ⟨g', v, gives_sessionOf_two.bind hgives, hledger⟩

/-! ## Exact quotients -/

namespace SType

variable {t : SType} {p q : UInt64}

def least (t : SType) : Int := t.ty.elemKind.least t.isSigned

/-- The quotient of two numbers, cut towards zero. By zero it is the number that is divided; and the
quotient that the type has no room for, that of the least number by minus one, is the least number. -/
def quotient (t : SType) (x y : Int) : Int :=
  if y = 0 then x else if t.isSigned = true ∧ x = t.least ∧ y = -1 then t.least else x.tdiv y

/-- The remainder of two numbers, with the sign of the first; nothing remains where there is no quotient. -/
def residue (t : SType) (x y : Int) : Int :=
  if y = 0 then 0 else if t.isSigned = true ∧ x = t.least ∧ y = -1 then 0 else x.tmod y

/-- What division makes of two patterns stands for the quotient of their numbers. -/
theorem number_div (ht : t.isInteger = true) (hp : t.ty.elemKind.canon p = p)
    (hq : t.ty.elemKind.canon q = q) :
    t.number (BinOp.div.eval t p q) = t.quotient (t.number p) (t.number q) := by
  have hk := (lane_word ht).1.isInt
  have hzero : t.number q = 0 ↔ q = 0 := Kind.number_eq_zero hk hq
  rw [quotient, BinOp.eval]
  dsimp only
  by_cases hq0 : q = 0
  · rw [if_pos hq0, if_pos (hzero.mpr hq0), hp]
  rw [if_neg hq0, if_neg (mt hzero.mp hq0)]
  unfold number least
  cases t.isSigned with
  | false => simpa using Kind.number_udiv hk hp hq
  | true => simpa using Kind.number_sdiv hk hp hq

theorem number_rem (ht : t.isInteger = true) (hp : t.ty.elemKind.canon p = p)
    (hq : t.ty.elemKind.canon q = q) :
    t.number (BinOp.rem.eval t p q) = t.residue (t.number p) (t.number q) := by
  have hk := (lane_word ht).1.isInt
  have hzero : t.number q = 0 ↔ q = 0 := Kind.number_eq_zero hk hq
  rw [residue, BinOp.eval]
  dsimp only
  by_cases hq0 : q = 0
  · rw [if_pos hq0, if_pos (hzero.mpr hq0), Kind.canon_zero]
    exact Kind.number_zero hk _
  rw [if_neg hq0, if_neg (mt hzero.mp hq0)]
  unfold number least
  cases t.isSigned with
  | false => simpa using Kind.number_urem hk hp hq hq0
  | true =>
    have hrem := Kind.number_srem hk hp hq hq0
    -- nothing remains of a number by minus one
    have hminus : ∀ x : Int, x.tmod (-1) = 0 := fun x => by rw [Int.tmod_neg, Int.tmod_one]
    simp only [if_true, true_and, hrem]
    split
    case isTrue hover => rw [hover.2, hminus]
    case isFalse => rfl

end SType

/-- Division and remainder of integers, single or in vectors, do not stop the program, whatever the lanes
are; every lane of the result is the exact quotient or remainder, or what is put in its place. -/
theorem division_guarded {t : SType} (ht : t.isInteger = true) (hs : s.closed = false) (hf : Site f b)
    (ha : f.Usable b a) (hat : (f.value a).type = t.ty) (hc : f.Usable b c)
    (hct : (f.value c).type = t.ty) :
    LaneByLane s f b t a c (divide (own s t a) (own s t c)) t.quotient ∧
      LaneByLane s f b t a c (remainder (own s t a) (own s t c)) t.residue := by
  have hint := (SType.lane_word ht).1.isInt
  have hledger := ledger_fitting hf ha hat hc hct
  have hdivide : divide (own s t a) (own s t c) =
      guardedDivision BinOp.div.choice (own s t a) (own s t c) := by
    rw [divide, show (own s t a).type = t from rfl, SType.isFloat_of_isInteger ht]
    rfl
  have hcut : ∀ {p : UInt64} (o : BinOp) (q : UInt64), t.ty.elemKind.cut (o.eval t p q) = o.eval t p q :=
    fun o q => Kind.cut_canon (Kind.size_ne_zero_of_isInt hint)
  constructor
  · rw [hdivide]
    exact laneByLane (hledger.guardedDivision hs ht (.inl rfl) (.head _) (.tail _ (.head _))
      fun st hst i hi => hst.2.cut hi) fun p q hp hq =>
        ⟨hcut .div q, SType.number_div ht (Kind.canon_of_cut hp) (Kind.canon_of_cut hq)⟩
  · exact laneByLane (hledger.guardedDivision (o := .rem) hs ht (.inr rfl) (.head _) (.tail _ (.head _))
      fun st hst i hi => hst.2.cut hi) fun p q hp hq =>
        ⟨hcut .rem q, SType.number_rem ht (Kind.canon_of_cut hp) (Kind.canon_of_cut hq)⟩

/-- A function of two vectors of four numbers, as it begins. -/
def pairs : Func := Func.empty "pairs" .v4i32 [.v4i32, .v4i32]

/-- The least number by minus one, 7 by 0, -7 by 2 and 5 by -3. -/
def pairsState : regionInterp.State where
  env v := .lanes (if v = 0 then [0x80000000, 7, 0xFFFFFFF9, 5] else [0xFFFFFFFF, 0, 2, 0xFFFFFFFD])
  mem := { args := [], bytes := fun _ => [] }

theorem division_guarded_pairs : ∃ (g g' : Func) (v v' : ValueId) (st st' : regionInterp.State)
    (zs zs' : List UInt64),
    ((divide (own {} .int4 0) (own {} .int4 1)).Gives (Session.on {} pairs 0) (own {} .int4 v)
        (Session.on {} g 0) ∧
      (List.range' 2 (g.numValues - 2)).foldlM g.exec pairsState = .ok st ∧
      st.env v = .lanes zs ∧ zs.map SType.int4.number = [-2147483648, 7, -3, -1]) ∧
    (remainder (own {} .int4 0) (own {} .int4 1)).Gives (Session.on {} pairs 0) (own {} .int4 v')
        (Session.on {} g' 0) ∧
      (List.range' 2 (g'.numValues - 2)).foldlM g'.exec pairsState = .ok st' ∧
      st'.env v' = .lanes zs' ∧ zs'.map SType.int4.number = [0, 0, -1, 2] := by
  have hbegun : Begun .v4i32 [.v4i32, .v4i32] pairs := begun_empty _ _ _
  have hsite : Site pairs 0 := ⟨hbegun.draft, by decide, by decide⟩
  have husable : ∀ v < 2, pairs.Usable 0 v ∧ (pairs.value v).type = .v4i32 := by
    intro v hv
    have hplace : ∀ v < 2, (pairs.value v).op ≠ .store ∧ v ∈ (pairs.block 0).values ∧
      (pairs.value v).type = .v4i32 := by decide
    obtain ⟨hop, hin, htype⟩ := hplace v hv
    exact ⟨⟨hop, .inr hin⟩, htype⟩
  obtain ⟨ha, hat⟩ := husable 0 (by decide)
  obtain ⟨hc, hct⟩ := husable 1 (by decide)
  obtain ⟨⟨g, v, hdivide, -, -, hdiv⟩, g', v', hremainder, -, -, hrem⟩ :=
    division_guarded (t := .int4) (s := {}) rfl rfl hsite ha hat hc hct
  have hxs : Ty.v4i32.Fits [0x80000000, 7, 0xFFFFFFF9, 5] := by
    refine ⟨rfl, ?_⟩
    simp only [List.mem_cons, List.not_mem_nil, or_false, forall_eq_or_imp, forall_eq]
    decide
  have hys : Ty.v4i32.Fits [0xFFFFFFFF, 0, 2, 0xFFFFFFFD] := by
    refine ⟨rfl, ?_⟩
    simp only [List.mem_cons, List.not_mem_nil, or_false, forall_eq_or_imp, forall_eq]
    decide
  obtain ⟨st, zs, hrun, -, hzs, -, hquotients⟩ := hdiv g (.refl g) pairsState _ _ rfl rfl hxs hys
  obtain ⟨st', zs', hrun', -, hzs', -, hresidues⟩ := hrem g' (.refl g') pairsState _ _ rfl rfl hxs hys
  exact ⟨g, g', v, v', st, st', zs, zs', ⟨hdivide, hrun, hzs, hquotients.trans (by decide)⟩, hremainder,
    hrun', hzs', hresidues.trans (by decide)⟩

end SsaJit.Build
