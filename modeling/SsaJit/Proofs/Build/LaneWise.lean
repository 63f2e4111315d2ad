import SsaJit.Proofs.Build.Values
import SsaJit.Proofs.Numbers

/-! Values of any number of lanes, single ones included, that are built one after the other in a block.
What is known of each is its type and its lanes, which depend on the state in which running the new
instructions begins. All that is known is kept together while the function grows. -/

namespace SsaJit

variable {n : Nat} {t u : Ty} {x y z : Nat → UInt64}

/-! ## Rows of lanes -/

/-- The lanes below a number. -/
def row (n : Nat) (x : Nat → UInt64) : List UInt64 := (List.range n).map x

theorem row_congr (h : ∀ i < n, x i = y i) : row n x = row n y :=
  List.map_congr_left fun i hi => h i (List.mem_range.mp hi)

theorem at_row {i : Nat} (hi : i < n) : Outcome.at? (row n x) i = .ok (x i) := by
  rw [Outcome.at?, row, List.getElem?_map, List.getElem?_range hi]
  rfl

theorem row_getD (xs : List UInt64) : row xs.length (fun i => xs.getD i 0) = xs := by
  refine List.ext_getElem (by simp [row]) fun i hi hi' => ?_
  simp [row, hi']

theorem row_replicate (n : Nat) (w : UInt64) : row n (fun _ => w) = List.replicate n w := by
  rw [row, List.map_const', List.length_range]

namespace Operation

theorem perLane_row {g : Nat → Outcome (Option UInt64)} (h : ∀ i < n, g i = .ok (some (z i))) :
    perLane g (List.range n) = .ok (some (row n z)) := by
  have hall : ∀ l : List Nat, (∀ i ∈ l, g i = .ok (some (z i))) → perLane g l = .ok (some (l.map z)) := by
    intro l hl
    induction l with
    | nil => rfl
    | cons i l ih =>
      rw [perLane, hl i List.mem_cons_self, ih fun j hj => hl j (List.mem_cons_of_mem _ hj)]
      rfl
  exact hall _ fun i hi => h i (List.mem_range.mp hi)

theorem mapM_row {g : Nat → Outcome UInt64} (h : ∀ i < n, g i = .ok (z i)) :
    (List.range n).mapM g = .ok (row n z) := by
  refine Outcome.mapM_eq_ok.mpr (List.forall₂_map_right_iff.mpr (List.forall₂_same.mpr fun i hi => ?_))
  exact h i (List.mem_range.mp hi)

variable {o : Operation}

theorem fold_binary_row (hop : o.op.isBinary = true) (hn : o.type.numLanes = n)
    (h : ∀ i < n, evalBinary o.op o.type.elemKind (x i) (y i) = .ok (some (z i))) :
    o.fold [row n x, row n y] = .ok (some (row n z)) := by
  unfold fold
  dsimp only
  rw [if_pos hop, hn]
  refine perLane_row fun i hi => ?_
  have hx : Outcome.at? [row n x, row n y] 0 = .ok (row n x) := rfl
  have hy : Outcome.at? [row n x, row n y] 1 = .ok (row n y) := rfl
  rw [hx, hy, Outcome.ok_bind, Outcome.ok_bind, at_row hi, at_row hi]
  exact h i hi

theorem fold_icmp_row (hop : o.op = .icmp) (hn : o.type.numLanes = n) (hts : o.operands = [t, t]) :
    o.fold [row n x, row n y] = .ok (some (row n fun i =>
      if evalCompare o.predicate t.elemKind (x i) (y i) then o.type.elemKind.canon (-1) else 0)) := by
  unfold fold
  dsimp only
  have hx : Outcome.at? [row n x, row n y] 0 = .ok (row n x) := rfl
  have hy : Outcome.at? [row n x, row n y] 1 = .ok (row n y) := rfl
  have ht : Outcome.at? [t, t] 0 = .ok t := rfl
  rw [hop, hn, hts, ht, Outcome.ok_bind, if_neg (by decide)]
  dsimp only
  rw [mapM_row fun i hi => by rw [hx, hy, Outcome.ok_bind, Outcome.ok_bind, at_row hi, at_row hi]; rfl]
  rfl

/-- A choice lane by lane; between single lanes it is made by the one flag there is. -/
theorem fold_select_row (hop : o.op = .select) (hn : o.type.numLanes = n) (hts : o.operands = [u, t, t])
    (hu : u.isVector = true ∨ n = 1) : o.fold [row n z, row n x, row n y] =
      .ok (some (row n fun i => if z i = 0 then y i else x i)) := by
  unfold fold
  dsimp only
  have hz : Outcome.at? [row n z, row n x, row n y] 0 = .ok (row n z) := rfl
  have hx : Outcome.at? [row n z, row n x, row n y] 1 = .ok (row n x) := rfl
  have hy : Outcome.at? [row n z, row n x, row n y] 2 = .ok (row n y) := rfl
  have ht : Outcome.at? [u, t, t] 0 = .ok u := rfl
  rw [hop, hn, hts, ht, Outcome.ok_bind, if_neg (by decide), hz, hx, hy]
  dsimp only
  simp only [Outcome.ok_bind]
  cases hvec : u.isVector with
  | true =>
    rw [if_pos rfl, mapM_row (z := fun i => if z i = 0 then y i else x i) fun i hi => ?_]
    · rfl
    · rw [at_row hi, Outcome.ok_bind]
      by_cases hzero : z i = 0
      · rw [if_neg (not_not.mpr hzero), if_pos hzero, at_row hi]
      · rw [if_pos hzero, if_neg hzero, at_row hi]
  | false =>
    obtain rfl : n = 1 := hu.resolve_left (by rw [hvec]; decide)
    rw [if_neg (by decide), at_row Nat.one_pos, Outcome.ok_bind]
    by_cases hzero : z 0 = 0
    · rw [if_neg (not_not.mpr hzero)]
      simp [row, hzero]
    · rw [if_pos hzero]
      simp [row, hzero]

end Operation

/-- The type of a comparison of integers. -/
def Ty.flag : Ty → Ty
  | .scalar _ => .i1
  | .vec e n => .vec e n

theorem Ty.maskType_of_isInt (ht : t.isInt = true) : t.maskType = .ok t.flag := by
  cases t with
  | scalar k => rfl
  | vec e n => cases e <;> first | rfl | cases ht

theorem Ty.numLanes_flag (t : Ty) : t.flag.numLanes = t.numLanes := by cases t <;> rfl

theorem Ty.flag_isInt (ht : t.isInt = true) : t.flag.isInt = true := by
  cases t with
  | scalar k => rfl
  | vec e n => exact ht

theorem Ty.flag_isVector (t : Ty) : t.flag.isVector = true ∨ t.numLanes = 1 := by
  cases t with
  | scalar k => exact .inr rfl
  | vec e n => exact .inl rfl

end SsaJit

namespace SsaJit.Build

open Func BuildM

variable {α β : Type} {s : Session} {f g : Func} {b : BlockId} {v a c d : ValueId} {t : Ty}
  {P : regionInterp.State → Prop} {st : regionInterp.State}

/-! ## What is known of a block -/

/-- A value with its lanes, which depend on the state in which running begins. -/
structure Meaning where
  id : ValueId
  type : Ty
  lane : regionInterp.State → Nat → UInt64

/-- The value has these lanes. -/
def Meaning.Holds (e : Meaning) (st st' : regionInterp.State) : Prop :=
  st'.env e.id = .lanes (row e.type.numLanes (e.lane st))

variable {Γ Δ : List Meaning} {e : Meaning} {x y z : regionInterp.State → Nat → UInt64}

/-- `f` has grown to `g` at the end of `b`. The values of `Γ` can be read there and have their lanes once
what is new has run from a state where `P` holds; and it runs to its end. -/
structure Ledger (f : Func) (b : BlockId) (P : regionInterp.State → Prop) (g : Func) (Γ : List Meaning) :
    Prop where
  grown : Grown b f g
  usable : ∀ e ∈ Γ, g.Usable b e.id
  typed : ∀ e ∈ Γ, (g.value e.id).type = e.type
  runs : ∀ F, GrowsTo g F → ∀ st, P st → ∃ st',
    (List.range' f.numValues (g.numValues - f.numValues)).foldlM F.exec st = .ok st' ∧
      Keeps f.numValues g.numValues st st' ∧ ∀ e ∈ Γ, e.Holds st st'

/-- The action adds a value of type `t` with lanes `x` to what is known. -/
def Adds (s : Session) (f : Func) (b : BlockId) (P : regionInterp.State → Prop) (g : Func)
    (Γ : List Meaning) (act : BuildM α) (res : ValueId → α) (t : Ty) (x : regionInterp.State → Nat → UInt64) : Prop :=
  ∃ g' v, act.Gives (s.on g b) (res v) (s.on g' b) ∧ Ledger f b P g' (⟨v, t, x⟩ :: Γ)

namespace Ledger

/-- Nothing has been built yet. -/
theorem start (hf : Site f b) (husable : ∀ e ∈ Γ, f.Usable b e.id ∧ (f.value e.id).type = e.type)
    (hholds : ∀ st, P st → ∀ e ∈ Γ, e.Holds st st) : Ledger f b P f Γ where
  grown := .refl hf
  usable e he := (husable e he).1
  typed e he := (husable e he).2
  runs F _ st hst := ⟨st, by rw [Nat.sub_self]; rfl, .refl _ _, hholds st hst⟩

/-- What led to the newest value is left out. Lanes only matter where `P` holds and below their number. -/
theorem settle (h : Ledger f b P g (⟨v, t, x⟩ :: Δ)) (hsub : Γ ⊆ Δ)
    (hxy : ∀ st, P st → ∀ i < t.numLanes, x st i = y st i) : Ledger f b P g (⟨v, t, y⟩ :: Γ) where
  grown := h.grown
  usable e he := by
    rcases List.mem_cons.mp he with rfl | he
    · exact h.usable ⟨v, t, x⟩ List.mem_cons_self
    · exact h.usable e (List.mem_cons_of_mem _ (hsub he))
  typed e he := by
    rcases List.mem_cons.mp he with rfl | he
    · exact h.typed ⟨v, t, x⟩ List.mem_cons_self
    · exact h.typed e (List.mem_cons_of_mem _ (hsub he))
  runs F hF st hst := by
    obtain ⟨st', hrun, hkeep, hholds⟩ := h.runs F hF st hst
    refine ⟨st', hrun, hkeep, fun e he => ?_⟩
    rcases List.mem_cons.mp he with rfl | he
    · exact (hholds ⟨v, t, x⟩ List.mem_cons_self).trans (congrArg _ (row_congr (hxy st hst)))
    · exact hholds e (List.mem_cons_of_mem _ (hsub he))

theorem lt (h : Ledger f b P g Γ) (he : e ∈ Γ) : e.id < g.numValues :=
  Widens.usable_lt h.grown.site.draft (h.usable e he)

/-- One more instruction at the end of the block. -/
theorem emit {i : Value} (hs : s.closed = false) (h : Ledger f b P g Γ) (hi : g.Fresh b i)
    (hop : i.op ≠ .store) (hexec : ∀ F, GrowsTo (g.appended b i) F → ∀ st st', P st →
      (∀ e ∈ Γ, e.Holds st st') → F.exec st' g.numValues =
        .ok (st'.assign g.numValues i.op (.lanes (row i.type.numLanes (x st)), st'.mem))) :
    Adds s f b P g Γ (BuildM.emit i) .value i.type x := by
  have hsite := h.grown.site
  have hgrown := Grown.appended hsite hi
  have hval : (g.appended b i).value g.numValues = { i with block := some b } := by
    rw [value_appended, if_pos rfl]
  refine ⟨_, _, gives_emit hs hsite.pending, h.grown.trans hgrown, fun e he => ?_, fun e he => ?_,
    fun F hF st hst => ?_⟩
  · rcases List.mem_cons.mp he with rfl | he
    · refine ⟨by rw [hval]; exact hop, .inr ?_⟩
      rw [block_appended hsite.lt, if_pos rfl]
      simp
    · exact hgrown.later.grows.usable hsite.draft hgrown.site.draft (h.usable e he)
  · rcases List.mem_cons.mp he with rfl | he
    · rw [hval]
    · rw [hgrown.later.grows.value e.id (h.lt he), h.typed e he]
  obtain ⟨st', hrun, hkeep, hholds⟩ := h.runs F (hgrown.later.grows.trans hF) st hst
  set st'' := st'.assign g.numValues i.op (.lanes (row i.type.numLanes (x st)), st'.mem) with hst''
  have hlast : F.exec st' g.numValues = .ok st'' := hexec F hF st st' hst hholds
  have hothers : ∀ w : ValueId, w ≠ g.numValues → st''.env w = st'.env w := fun w hw => by
    simp [hst'', Interp.State.assign, hop, Function.update_of_ne hw]
  have hle := h.grown.later.grows.numValues
  have hkeep' : Keeps g.numValues (g.numValues + 1) st' st'' :=
    ⟨Nat.le_succ _, rfl, fun w hw => hothers w (hw.elim Nat.ne_of_lt fun hw => Nat.ne_of_gt hw)⟩
  refine ⟨st'', ?_, by rw [numValues_appended]; exact hkeep.trans hkeep', fun e he => ?_⟩
  · have hnext : f.numValues + 1 * (g.numValues - f.numValues) = g.numValues := by omega
    rw [numValues_appended, Nat.succ_sub hle, List.range'_concat, List.foldlM_append, hrun, hnext]
    change (F.exec st' g.numValues >>= fun st => pure st) = _
    rw [hlast]
    rfl
  · rcases List.mem_cons.mp he with rfl | he
    · simp [Meaning.Holds, hst'', Interp.State.assign, hop]
    · exact (hothers e.id (Nat.ne_of_lt (h.lt he))).trans (hholds e he)

/-- An instruction that folding has a say on. -/
theorem compute {i : Value} (es : List Meaning) (hs : s.closed = false) (h : Ledger f b P g Γ)
    (hpure : i.isPure = true) (hint : i.op ≠ .intrinsic) (hconst : i.op ≠ .const)
    (hargs : i.args = es.map fun e => .value e.id) (hes : es ⊆ Γ)
    (htyped : WellTyped i (es.map (·.type)) (b = 0))
    (hfold : ∀ st, P st → (operationOf i.bare (es.map (·.type))).fold
      (es.map fun e => row e.type.numLanes (e.lane st)) = .ok (some (row i.type.numLanes (x st)))) :
    Adds s f b P g Γ (BuildM.emit i) .value i.type x := by
  have hops : i.op ≠ .phi ∧ (i.op ≠ .param ∧ i.op ≠ .alloca) ∧ i.op ≠ .store := by
    refine ⟨?_, ⟨?_, ?_⟩, ?_⟩ <;> intro hop <;> simp [Value.isPure, hop] at hpure
  have htypes : i.args.map g.operandType = es.map (·.type) := by
    rw [hargs, List.map_map]
    exact List.map_congr_left fun e he => h.typed e (hes he)
  have hi : g.Fresh b i := by
    refine ⟨hops.1, hops.2.1, fun o ho => ?_, by rw [htypes]; exact htyped⟩
    rw [hargs] at ho
    obtain ⟨e, he, rfl⟩ := List.mem_map.mp ho
    exact ⟨e.id, rfl, h.usable e (hes he)⟩
  refine h.emit hs hi hops.2.2 fun F hF st st' hst hholds => ?_
  have hreads : i.args.map st'.get = (es.map fun e => row e.type.numLanes (e.lane st)).map .lanes := by
    rw [hargs, List.map_map, List.map_map]
    exact List.map_congr_left fun e he => hholds e (hes he)
  rw [exec_appended h.grown.site hi hF, htypes, hreads]
  refine Regions.perform_some (y := i.bare) hconst ?_
  rw [Regions.exec?_fold (y := i.bare) hops.2.1.1 hops.2.1.2,
    Value.fold?_of_fold (y := i.bare) hpure hint (hfold st hst)]
  rfl

/-- A constant, and what it says of its lanes. -/
theorem constant {i : Value} {w : Nat → UInt64} (hs : s.closed = false) (h : Ledger f b P g Γ)
    (hop : i.op = .const) (hargs : i.args = []) (hlanes : i.constLanes = some (row i.type.numLanes w)) :
    Adds s f b P g Γ (BuildM.emit i) .value i.type fun _ => w := by
  have htyped : WellTyped i (i.args.map g.operandType) (b = 0) := by
    simp only [WellTyped, hop, Op.isBinary, Op.isCast, Bool.false_eq_true, if_false]
    intro hvec
    have hl : i.lanes = some (row i.type.numLanes w) := by
      rwa [Value.constLanes, Value.isConst, hop, if_neg (by decide), if_pos hvec] at hlanes
    rw [hl, Option.getD_some, row, List.length_map, List.length_range]
  have hi : g.Fresh b i :=
    ⟨by rw [hop]; decide, by rw [hop]; decide, fun o ho => by simp [hargs] at ho, htyped⟩
  refine h.emit hs hi (by rw [hop]; decide) fun F hF st st' _ _ => ?_
  rw [exec_appended h.grown.site hi hF, Regions.perform_const (y := i.bare) hop, hop]
  have hbare : i.bare.constLanes = i.constLanes := rfl
  rw [hbare, hlanes]
  rfl

theorem constSplat (hs : s.closed = false) (h : Ledger f b P g Γ) (t : Ty) (w : UInt64) :
    Adds s f b P g Γ (BuildM.constSplat t w) .value t fun _ _ => t.elemKind.canon w := by
  cases t with
  | scalar k => exact h.constant hs rfl rfl (w := fun _ => k.canon w) rfl
  | vec k n =>
    have hcut : ((List.replicate n.toNat w).take n.toNat).map (laneCut (.vec k n)).canon =
        row n.toNat fun _ => k.canon w := by
      rw [List.take_of_length_le (by simp), List.map_replicate, row_replicate]
      rfl
    obtain ⟨g', v, hgives, hledger⟩ := h.constant (w := fun _ => k.canon w)
      (i := { op := .const, type := .vec k n, lanes := some (row n.toNat fun _ => k.canon w) })
      hs rfl rfl rfl
    refine ⟨g', v, ?_, hledger⟩
    have hlength : ¬ (List.replicate n.toNat w).length < n.toNat := by simp
    rw [BuildM.constSplat, if_pos (show (Ty.vec k n).isVector = true from rfl), constVector]
    dsimp only [Ty.numLanes]
    rw [hcut, row_replicate, List.length_replicate, Nat.sub_self, List.replicate_zero, List.append_nil,
      ← row_replicate]
    exact hgives.bind (gives_unless hlength (gives_pure _))

theorem binary {o : Op} (hs : s.closed = false) (h : Ledger f b P g Γ) (ho : o.isBinary = true)
    (hfloat : o.isFloatBinary = false) (ht : t.isInt = true) (ha : ⟨a, t, x⟩ ∈ Γ) (hc : ⟨c, t, y⟩ ∈ Γ)
    (hval : ∀ st, P st → ∀ i < t.numLanes,
      evalBinary o t.elemKind (x st i) (y st i) = .ok (some (z st i))) :
    Adds s f b P g Γ (BuildM.binary o (.value a) (.value c)) .value t z := by
  have hne : ∀ o' : Op, o'.isBinary = false → o ≠ o' := fun o' ho' heq => by simp [← heq, ho] at ho'
  have hpure : Value.isPure { op := o, type := t, args := [.value a, .value c] } = true := by
    cases o <;> first | rfl | cases ho
  obtain ⟨g', v, hgives, hledger⟩ := h.compute (x := z) [⟨a, t, x⟩, ⟨c, t, y⟩]
    (i := { op := o, type := t, args := [.value a, .value c] }) hs hpure (hne _ rfl) (hne _ rfl) rfl
    (by simp [ha, hc]) (by simp [WellTyped, ho, hfloat, ht])
    fun st hst => Operation.fold_binary_row ho rfl (hval st hst)
  exact ⟨g', v, gives_typeOf.bind (by rw [h.typed _ ha]; exact hgives), hledger⟩

theorem icmp {p : Predicate} (hs : s.closed = false) (h : Ledger f b P g Γ) (hp : Comparing p)
    (ht : t.isInt = true) (ha : ⟨a, t, x⟩ ∈ Γ) (hc : ⟨c, t, y⟩ ∈ Γ) :
    Adds s f b P g Γ (BuildM.icmp p (.value a) (.value c)) .value t.flag fun st i =>
      if evalCompare p t.elemKind (x st i) (y st i) then t.flag.elemKind.canon (-1) else 0 := by
  have hmask := Ty.maskType_of_isInt ht
  set i : Value := { comparison p a c with type := t.flag } with hi
  have hpred : (operationOf i.bare [t, t]).predicate = p := by
    simp [hi, Operation.predicate, operationOf, Value.bare, comparison, hp.code]
  obtain ⟨g', v, hgives, hledger⟩ := h.compute (i := i) [⟨a, t, x⟩, ⟨c, t, y⟩]
    (x := fun st i => if evalCompare p t.elemKind (x st i) (y st i) then t.flag.elemKind.canon (-1) else 0)
    hs rfl (by simp [hi, comparison]) (by simp [hi, comparison]) rfl (by simp [ha, hc])
    (by simp [hi, WellTyped, comparison, Op.isBinary, Op.isCast, hmask, Value.predicate, hp.code,
      hp.isFloat, ht])
    fun st _ => by
      have hfold := Operation.fold_icmp_row (o := operationOf i.bare [t, t]) (x := x st) (y := y st) rfl
        t.numLanes_flag rfl
      rw [hpred] at hfold
      rw [show i.type.numLanes = t.numLanes from t.numLanes_flag]
      exact hfold
  refine ⟨g', v, gives_typeOf.bind ?_, hledger⟩
  rw [h.typed _ ha, hmask]
  exact gives_lift.bind hgives

theorem select (hs : s.closed = false) (h : Ledger f b P g Γ) (ht : t.flag.isInt = true)
    (hd : ⟨d, t.flag, z⟩ ∈ Γ) (ha : ⟨a, t, x⟩ ∈ Γ) (hc : ⟨c, t, y⟩ ∈ Γ) :
    Adds s f b P g Γ (BuildM.select (.value d) (.value a) (.value c)) .value t fun st i =>
      if z st i = 0 then y st i else x st i := by
  have hflag : t.flag = .i1 ∨
      t.flag.isVector = true ∧ t.flag.isInt = true ∧ t.flag.numLanes = t.numLanes := by
    cases t with
    | scalar k => exact .inl rfl
    | vec e n => exact .inr ⟨rfl, ht, rfl⟩
  obtain ⟨g', v, hgives, hledger⟩ := h.compute [⟨d, t.flag, z⟩, ⟨a, t, x⟩, ⟨c, t, y⟩]
    (x := fun st i => if z st i = 0 then y st i else x st i)
    (i := { op := .select, type := t, args := [.value d, .value a, .value c] }) hs rfl (by simp) (by simp)
    rfl (by simp [hd, ha, hc]) (by simpa [WellTyped, Op.isBinary, Op.isCast] using hflag)
    fun st _ => by
      dsimp only [List.map]
      rw [t.numLanes_flag]
      exact Operation.fold_select_row rfl rfl rfl t.flag_isVector
  exact ⟨g', v, gives_typeOf.bind (by rw [h.typed _ ha]; exact hgives), hledger⟩

end Ledger

namespace Adds

/-- The value as a handle. -/
theorem into {act : BuildM Operand} {u : SType} (h : Adds s f b P g Γ act .value u.ty x) :
    Adds s f b P g Γ (BuildM.into s.id u act) (own s u) u.ty x := by
  obtain ⟨g', v, hgives, hledger⟩ := h
  exact ⟨g', v, gives_into (s := s.on g b) hgives (hledger.typed _ List.mem_cons_self), hledger⟩

end Adds

/-! ## Values of one lane -/

/-- The lane of a value, or zero. -/
def laneIn (st : regionInterp.State) (a : ValueId) (i : Nat) : UInt64 :=
  ((st.env a).lanes?.getD []).getD i 0

theorem laneIn_zero {p : UInt64} (h : st.env a = .lanes [p]) : laneIn st a 0 = p := by
  rw [laneIn, h]
  rfl

/-- Values of one lane are given. -/
theorem Ledger.offered (es : List (ValueId × Kind)) (hf : Site f b)
    (hes : ∀ e ∈ es, Offered f b e.1 e.2)
    (hP : ∀ st, P st → ∀ e ∈ es, ∃ p, st.env e.1 = .lanes [p]) :
    Ledger f b P f (es.map fun e => ⟨e.1, .scalar e.2, fun st => laneIn st e.1⟩) := by
  refine .start hf (fun e' he => ?_) fun st hst e' he => ?_
  · obtain ⟨e, hmem, rfl⟩ := List.mem_map.mp he
    exact ⟨(hes e hmem).usable, (hes e hmem).type⟩
  · obtain ⟨e, hmem, rfl⟩ := List.mem_map.mp he
    obtain ⟨p, hp⟩ := hP st hst e hmem
    refine hp.trans (congrArg Datum.lanes ?_)
    rw [← laneIn_zero hp]
    rfl

/-- What adds a lane to values of one lane computes it. -/
theorem computes_of_adds {R : regionInterp.State → UInt64 → Prop} {k : Kind} {act : BuildM Operand}
    (es : List (ValueId × Kind)) (hf : Site f b) (hes : ∀ e ∈ es, Offered f b e.1 e.2)
    (hR : ∀ st r, R st r → ∀ e ∈ es, ∃ p, st.env e.1 = .lanes [p])
    (hact : Ledger f b (fun st => ∃ r, R st r) f
        (es.map fun e => ⟨e.1, .scalar e.2, fun st => laneIn st e.1⟩) →
      Adds s f b (fun st => ∃ r, R st r) f
        (es.map fun e => ⟨e.1, .scalar e.2, fun st => laneIn st e.1⟩) act .value (.scalar k) x)
    (hx : ∀ st r, R st r → r = x st 0) : ∃ g v, Computes s f b act .value k g v R := by
  obtain ⟨g, v, hgives, hledger⟩ := hact (.offered es hf hes fun st ⟨r, hr⟩ => hR st r hr)
  refine ⟨g, v, hgives, hledger.grown,
    ⟨hledger.usable _ List.mem_cons_self, hledger.typed _ List.mem_cons_self⟩, fun F hF st r hr => ?_⟩
  obtain ⟨st', hrun, hkeep, hholds⟩ := hledger.runs F hF st ⟨r, hr⟩
  exact ⟨st', hrun, hkeep, by rw [hx st r hr]; exact hholds _ List.mem_cons_self⟩

section single

variable {k : Kind}

theorem computes_constInt (hs : s.closed = false) (hf : Site f b) (bits : UInt64) :
    ∃ g v, Computes s f b (constInt (.scalar k) bits) .value k g v
      fun _ r => r = k.canon bits :=
  computes_of_adds [] hf (by simp) (by simp) (fun h => h.constSplat hs (.scalar k) bits)
    fun _ _ hr => hr

theorem computes_binary {o : Op} (hs : s.closed = false) (hf : Site f b)
    (ho : o.isBinary = true) (hfloat : o.isFloatBinary = false) (hk : k.isInt = true)
    (ha : Offered f b a k) (hc : Offered f b c k) :
    ∃ g v, Computes s f b (binary o (.value a) (.value c)) .value k g v
      fun st r => ∃ p q, st.env a = .lanes [p] ∧ st.env c = .lanes [q] ∧
        evalBinary o k p q = .ok (some r) := by
  refine computes_of_adds [(a, k), (c, k)] hf (by simp [ha, hc]) ?_
    (fun h => h.binary (t := .scalar k)
      (z := fun st i => (evalBinary o k (laneIn st a i) (laneIn st c i)).toOption.join.getD 0)
      hs ho hfloat hk (.head _) (.tail _ (.head _)) ?_) ?_
  · rintro st r ⟨p, q, hp, hq, -⟩
    simp [hp, hq]
  · rintro st ⟨r, p, q, hp, hq, hr⟩ i hi
    obtain rfl : i = 0 := Nat.lt_one_iff.mp hi
    rw [laneIn_zero hp, laneIn_zero hq]
    exact hr.trans (by rw [hr]; rfl)
  · rintro st r ⟨p, q, hp, hq, hr⟩
    rw [laneIn_zero hp, laneIn_zero hq, hr]
    rfl

theorem computes_icmp {p : Predicate} (hs : s.closed = false) (hf : Site f b)
    (hp : Comparing p) (hk : k.isInt = true)
    (ha : Offered f b a k) (hc : Offered f b c k) :
    ∃ g v, Computes s f b (icmp p (.value a) (.value c)) .value .i1 g v
      fun st r => ∃ q q', st.env a = .lanes [q] ∧ st.env c = .lanes [q'] ∧
        r = if evalCompare p k q q' then 1 else 0 := by
  refine computes_of_adds [(a, k), (c, k)] hf (by simp [ha, hc]) ?_
    (fun h => h.icmp (t := .scalar k) hs hp hk (.head _) (.tail _ (.head _))) ?_
  · rintro st r ⟨q, q', hq, hq', -⟩
    simp [hq, hq']
  · rintro st r ⟨q, q', hq, hq', hr⟩
    rw [laneIn_zero hq, laneIn_zero hq']
    exact hr

theorem computes_select (hs : s.closed = false) (hf : Site f b)
    (ha : Offered f b a .i1) (hc : Offered f b c k) (hd : Offered f b d k) :
    ∃ g v, Computes s f b (select (.value a) (.value c) (.value d)) .value k g v
      fun st r => ∃ p q q', st.env a = .lanes [p] ∧ st.env c = .lanes [q] ∧
        st.env d = .lanes [q'] ∧ r = if p = 0 then q' else q := by
  refine computes_of_adds [(a, .i1), (c, k), (d, k)] hf (by simp [ha, hc, hd]) ?_
    (fun h => h.select (t := .scalar k) hs rfl (.head _) (.tail _ (.head _))
      (.tail _ (.tail _ (.head _)))) ?_
  · rintro st r ⟨p, q, q', hp, hq, hq', -⟩
    simp [hp, hq, hq']
  · rintro st r ⟨p, q, q', hp, hq, hq', hr⟩
    rw [laneIn_zero hp, laneIn_zero hq, laneIn_zero hq']
    exact hr

end single

/-! ## Operations on two values -/

/-- The number that a lane of the type stands for. -/
def SType.number (t : SType) (w : UInt64) : Int := t.ty.elemKind.number t.isSigned w

/-- The action builds at the end of `b` a value of the type, and running what it builds on numbers of the
type that `a` and `c` hold does not stop short and leaves in each lane what `φ` makes of the two numbers
there. -/
def LaneByLane (s : Session) (f : Func) (b : BlockId) (t : SType) (a c : ValueId) (act : BuildM Handle)
    (φ : Int → Int → Int) : Prop :=
  ∃ g v, act.Gives (s.on f b) (own s t v) (s.on g b) ∧ Grown b f g ∧ (g.value v).type = t.ty ∧
    ∀ F, GrowsTo g F → ∀ (st : regionInterp.State) xs ys, st.env a = .lanes xs → st.env c = .lanes ys →
      t.ty.Fits xs → t.ty.Fits ys →
      ∃ st' zs, (List.range' f.numValues (g.numValues - f.numValues)).foldlM F.exec st = .ok st' ∧
        Keeps f.numValues g.numValues st st' ∧ st'.env v = .lanes zs ∧ t.ty.Fits zs ∧
        zs.map t.number = List.zipWith φ (xs.map t.number) (ys.map t.number)

/-- The value holds lanes of the type. -/
def Fitting (t : Ty) (st : regionInterp.State) (a : ValueId) : Prop :=
  ∃ xs, st.env a = .lanes xs ∧ t.Fits xs

theorem Fitting.env (h : Fitting t st a) : st.env a = .lanes (row t.numLanes (laneIn st a)) := by
  obtain ⟨xs, hxs, hlen, -⟩ := h
  have hlane : laneIn st a = fun i => xs.getD i 0 := by
    funext i
    rw [laneIn, hxs]
    rfl
  rw [hlane, ← hlen, row_getD, hxs]

theorem Fitting.cut (h : Fitting t st a) {i : Nat} (hi : i < t.numLanes) :
    t.elemKind.cut (laneIn st a i) = laneIn st a i := by
  obtain ⟨xs, hxs, hfits⟩ := h
  obtain ⟨w, hw, hcut⟩ := hfits.getElem? hi
  have hlane : laneIn st a i = w := by
    rw [laneIn, hxs]
    simp [Datum.lanes?, hw]
  rw [hlane, hcut]

/-- Two values are given, and hold lanes of the type. -/
theorem ledger_fitting (hf : Site f b) (ha : f.Usable b a) (hat : (f.value a).type = t) (hc : f.Usable b c)
    (hct : (f.value c).type = t) : Ledger f b (fun st => Fitting t st a ∧ Fitting t st c) f
      [⟨a, t, fun st => laneIn st a⟩, ⟨c, t, fun st => laneIn st c⟩] := by
  refine .start hf (by simp [ha, hat, hc, hct]) fun st hst e he => ?_
  simp only [List.mem_cons, List.not_mem_nil, or_false] at he
  rcases he with rfl | rfl
  · exact hst.1.env
  · exact hst.2.env

/-- What adds a value that is computed lane by lane computes numbers lane by lane. -/
theorem laneByLane {t : SType} {act : BuildM Handle} {w : UInt64 → UInt64 → UInt64} {φ : Int → Int → Int}
    (hact : Adds s f b (fun st => Fitting t.ty st a ∧ Fitting t.ty st c) f
      [⟨a, t.ty, fun st => laneIn st a⟩, ⟨c, t.ty, fun st => laneIn st c⟩] act (own s t) t.ty
      fun st i => w (laneIn st a i) (laneIn st c i))
    (hw : ∀ p q, t.ty.elemKind.cut p = p → t.ty.elemKind.cut q = q →
      t.ty.elemKind.cut (w p q) = w p q ∧ t.number (w p q) = φ (t.number p) (t.number q)) :
    LaneByLane s f b t a c act φ := by
  obtain ⟨g, v, hgives, hledger⟩ := hact
  refine ⟨g, v, hgives, hledger.grown, hledger.typed _ List.mem_cons_self,
    fun F hF st xs ys hxs hys hxfit hyfit => ?_⟩
  have ha : Fitting t.ty st a := ⟨xs, hxs, hxfit⟩
  have hc : Fitting t.ty st c := ⟨ys, hys, hyfit⟩
  obtain rfl : xs = row t.ty.numLanes (laneIn st a) := Datum.lanes.inj (hxs.symm.trans ha.env)
  obtain rfl : ys = row t.ty.numLanes (laneIn st c) := Datum.lanes.inj (hys.symm.trans hc.env)
  obtain ⟨st', hrun, hkeep, hholds⟩ := hledger.runs F hF st ⟨ha, hc⟩
  have hlane := fun (i : Nat) (hi : i < t.ty.numLanes) => hw _ _ (ha.cut hi) (hc.cut hi)
  refine ⟨st', _, hrun, hkeep, hholds _ List.mem_cons_self, ⟨by simp [row], fun r hr => ?_⟩, ?_⟩
  · obtain ⟨i, hi, rfl⟩ := List.mem_map.mp hr
    exact (hlane i (List.mem_range.mp hi)).1
  · simp only [row, List.map_map, List.zipWith_map, List.zipWith_self]
    exact List.map_congr_left fun i hi => (hlane i (List.mem_range.mp hi)).2

end SsaJit.Build
