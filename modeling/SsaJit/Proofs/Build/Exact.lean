import SsaJit.Proofs.Build.Finish
import SsaJit.Proofs.Build.LaneWise
import SsaJit.Proofs.Exec.Processor

/-! What operations on values compute, said in numbers. The values are of any number of lanes, and what
is built runs on the processor that the session builds for. -/

namespace SsaJit

/-- The value holds lanes of the type. -/
def Datum.Fits (t : Ty) : Datum → Prop
  | .lanes xs => t.Fits xs
  | .region _ => False

theorem Datum.Fits.lanes {t : Ty} {d : Datum} (h : d.Fits t) : ∃ xs, d = .lanes xs ∧ t.Fits xs := by
  cases d with
  | lanes xs => exact ⟨xs, rfl, h⟩
  | region v => exact h.elim

instance (t : Ty) (d : Datum) : Decidable (d.Fits t) :=
  match d with
  | .lanes xs => @instDecidableAnd _ _ (Nat.decEq _ _) (List.decidableBAll (fun w => t.elemKind.cut w = w) xs)
  | .region _ => inferInstanceAs (Decidable False)

end SsaJit

namespace SsaJit.Build

open Func BuildM

variable {s : Session} {f g : Func} {b : BlockId} {a v : ValueId} {t u : SType}
  {es : List (ValueId × SType)} {act : BuildM Handle} {φ : (ValueId → Datum) → List Int}

/-- The numbers that the lanes of a value stand for. -/
def SType.numbers (t : SType) (d : Datum) : List Int := (d.lanes?.getD []).map t.number

/-- The values can be read at the end of `b` and have the types. -/
def Given (f : Func) (b : BlockId) (es : List (ValueId × SType)) : Prop :=
  ∀ e ∈ es, f.Usable b e.1 ∧ (f.value e.1).type = e.2.ty

/-- The action builds at the end of `b` a value of type `u`, and nothing that verification would find
fault with once the function is finished. Whatever lanes the values `es` hold, running what is built on
the session's processor does not stop short, changes no other value and not the memory, and leaves a value
whose lanes stand for the numbers that `φ` makes of the values before. -/
def Yields (s : Session) (f : Func) (b : BlockId) (es : List (ValueId × SType)) (u : SType)
    (act : BuildM Handle) (φ : (ValueId → Datum) → List Int) : Prop :=
  ∃ g v, act.Gives (s.on f b) (own s u v) (s.on g b) ∧ Grown b f g ∧ Given g b [(v, u)] ∧
    (∃ h, terminate (some b) g = .ok h ∧ h.verify = .ok []) ∧
    ∀ F, GrowsTo g F → ∀ st : (processorInterp s.cpu).State, (∀ e ∈ es, (st.env e.1).Fits e.2.ty) →
      ∃ st', (List.range' f.numValues (g.numValues - f.numValues)).foldlM F.exec st = .ok st' ∧
        st'.mem = st.mem ∧ (∀ w < f.numValues, st'.env w = st.env w) ∧ (st'.env v).Fits u.ty ∧
        u.numbers (st'.env v) = φ st.env

/-- A function that can be built on can be finished, and is then verified. -/
theorem Site.verifies (h : Site f b) : ∃ F, terminate (some b) f = .ok F ∧ F.verify = .ok [] := by
  obtain ⟨F, hF, hdraft, -, hends, -⟩ := terminate_draft h
  exact ⟨F, hF, (hdraft.consistent hends).verified⟩

/-- The action builds a value, and running what it built from `st` leaves the numbers in its lanes. -/
def Leaves (s : Session) (f : Func) (b : BlockId) (u : SType) (act : BuildM Handle)
    (st : (processorInterp s.cpu).State) (ns : List Int) : Prop :=
  ∃ g v st', act.Gives (s.on f b) (own s u v) (s.on g b) ∧
    (List.range' f.numValues (g.numValues - f.numValues)).foldlM g.exec st = .ok st' ∧
    u.numbers (st'.env v) = ns

/-- Running what is built, right after it was built. -/
theorem Yields.leaves (h : Yields s f b es u act φ) (st : (processorInterp s.cpu).State)
    {ns : List Int} (hst : ∀ e ∈ es, (st.env e.1).Fits e.2.ty) (hns : φ st.env = ns) :
    Leaves s f b u act st ns := by
  obtain ⟨g, v, hgives, -, -, -, hruns⟩ := h
  obtain ⟨st', hrun, -, -, -, hnumbers⟩ := hruns g (.refl g) st hst
  exact ⟨g, v, st', hgives, hrun, hnumbers.trans hns⟩

section begun

variable {r : Ty} {ts : List Ty}

theorem Begun.site (h : Begun r ts f) : Site f 0 :=
  ⟨h.draft, by rw [h.numBlocks]; exact Nat.one_pos, (h.bare 0).1⟩

/-- The parameters of a new function can be read. -/
theorem Begun.given (h : Begun r ts f) (hes : ∀ e ∈ es, ts[e.1]? = some e.2.ty) : Given f 0 es := by
  intro e he
  have hval := h.value e.1 _ (hes e he)
  refine ⟨⟨by rw [hval]; exact nofun, .inr ?_⟩, by rw [hval]; rfl⟩
  rw [h.block]
  exact List.mem_range.mpr (List.getElem?_eq_some_iff.mp (hes e he)).1

end begun

/-! ## From lanes to numbers -/

/-- The values hold lanes of their types. -/
def Filled (es : List (ValueId × SType)) (st : regionInterp.State) : Prop :=
  ∀ e ∈ es, (st.env e.1).Fits e.2.ty

/-- What is known of values that are given. -/
def givens (es : List (ValueId × SType)) : List Meaning :=
  es.map fun e => ⟨e.1, e.2.ty, fun st => laneIn st e.1⟩

theorem fitting_iff {st : regionInterp.State} {t : Ty} : Fitting t st a ↔ (st.env a).Fits t := by
  unfold Fitting
  cases st.env a with
  | lanes xs => exact ⟨fun ⟨_, h, hfits⟩ => Datum.lanes.inj h ▸ hfits, fun h => ⟨xs, rfl, h⟩⟩
  | region w => exact ⟨fun ⟨_, h, _⟩ => absurd h (by simp), False.elim⟩

theorem Filled.fitting {st : regionInterp.State} (h : Filled es st) (ha : (a, t) ∈ es) :
    Fitting t.ty st a :=
  fitting_iff.mpr (h (a, t) ha)

/-- The numbers of a value that holds lanes of its type. -/
theorem Filled.numbers {st : regionInterp.State} (h : Filled es st) (ha : (a, t) ∈ es) :
    t.numbers (st.env a) = (row t.ty.numLanes (laneIn st a)).map t.number := by
  rw [(h.fitting ha).env]
  rfl

theorem Filled.canon {st : regionInterp.State} (h : Filled es st) (ha : (a, t) ∈ es) {i : Nat}
    (hi : i < t.ty.numLanes) : t.ty.elemKind.canon (laneIn st a i) = laneIn st a i :=
  Kind.canon_of_cut ((h.fitting ha).cut hi)

theorem ledger_givens (hf : Site f b) (hes : Given f b es) : Ledger f b (Filled es) f (givens es) := by
  refine .start hf (fun e' he => ?_) fun st hst e' he => ?_
  · obtain ⟨e, hmem, rfl⟩ := List.mem_map.mp he
    exact hes e hmem
  · obtain ⟨e, hmem, rfl⟩ := List.mem_map.mp he
    exact (hst.fitting hmem).env

/-- Running a value that is built from given ones, as a statement about the numbers in its lanes. -/
theorem yields_of_adds {x : regionInterp.State → Nat → UInt64}
    (hact : Adds s f b (Filled es) f (givens es) act (own s u) u.ty x)
    (hcut : ∀ st, Filled es st → ∀ i < u.ty.numLanes, u.ty.elemKind.cut (x st i) = x st i)
    (hφ : ∀ st, Filled es st → (row u.ty.numLanes (x st)).map u.number = φ st.env) :
    Yields s f b es u act φ := by
  obtain ⟨g, v, hgives, hledger⟩ := hact
  refine ⟨g, v, hgives, hledger.grown, ?_, hledger.grown.site.verifies, fun F hF st hst => ?_⟩
  · rintro e he
    obtain rfl := List.mem_singleton.mp he
    exact ⟨hledger.usable _ List.mem_cons_self, hledger.typed _ List.mem_cons_self⟩
  obtain ⟨st', hrun, hkeep, hholds⟩ := hledger.runs F hF ⟨st.env, st.mem⟩ hst
  have hv : st'.env v = .lanes (row u.ty.numLanes (x ⟨st.env, st.mem⟩)) := hholds _ List.mem_cons_self
  have hfits : u.ty.Fits (row u.ty.numLanes (x ⟨st.env, st.mem⟩)) := by
    refine ⟨by simp [row], fun w hw => ?_⟩
    obtain ⟨i, hi, rfl⟩ := List.mem_map.mp hw
    exact hcut ⟨st.env, st.mem⟩ hst i (List.mem_range.mp hi)
  refine ⟨st'.onto s.cpu, foldlM_onto hrun, hkeep.mem, fun w hw => hkeep.env w hw, ?_, ?_⟩
  · change (st'.env v).Fits u.ty
    rw [hv]
    exact hfits
  · change u.numbers (st'.env v) = _
    rw [hv]
    exact hφ _ hst

/-- What each lane stands for after an operation on the lanes of two values. -/
theorem yields_pointwise {c : ValueId} {w : UInt64 → UInt64 → UInt64} {ψ : Int → Int → Int}
    (hk : t.ty.elemKind.size ≠ 0)
    (hact : Adds s f b (Filled [(a, t), (c, t)]) f (givens [(a, t), (c, t)]) act (own s t) t.ty
      fun st i => w (laneIn st a i) (laneIn st c i))
    (hw : ∀ p q, t.ty.elemKind.canon (w p q) = w p q)
    (hψ : ∀ p q, t.ty.elemKind.canon p = p → t.ty.elemKind.canon q = q →
      t.number (w p q) = ψ (t.number p) (t.number q)) :
    Yields s f b [(a, t), (c, t)] t act
      fun env => List.zipWith ψ (t.numbers (env a)) (t.numbers (env c)) := by
  have ha : (a, t) ∈ [(a, t), (c, t)] := List.mem_cons_self
  have hc : (c, t) ∈ [(a, t), (c, t)] := .tail _ List.mem_cons_self
  refine yields_of_adds hact (fun st _ i _ => ?_) fun st hst => ?_
  · rw [← hw]
    exact Kind.cut_canon hk
  · rw [hst.numbers ha, hst.numbers hc]
    simp only [row, List.map_map, List.zipWith_map, List.zipWith_self]
    refine List.map_congr_left fun i hi => ?_
    exact hψ _ _ (hst.canon ha (List.mem_range.mp hi)) (hst.canon hc (List.mem_range.mp hi))

/-- A value that is there already, read as another type of its lanes. -/
theorem yields_there (hf : Site f b) (ha : Given f b [(a, t)]) (hty : t.ty = u.ty)
    (hact : act.Gives (s.on f b) (own s u a) (s.on f b))
    (hφ : ∀ st, Filled [(a, t)] st → u.numbers (st.env a) = φ st.env) :
    Yields s f b [(a, t)] u act φ := by
  have hthere := ha (a, t) List.mem_cons_self
  refine ⟨f, a, hact, .refl hf, ?_, hf.verifies, fun F _ st hst => ?_⟩
  · rintro e he
    obtain rfl := List.mem_singleton.mp he
    exact ⟨hthere.1, hthere.2.trans hty⟩
  refine ⟨st, by rw [Nat.sub_self]; rfl, rfl, fun _ _ => rfl, ?_, hφ ⟨st.env, st.mem⟩ hst⟩
  rw [← hty]
  exact hst (a, t) List.mem_cons_self

/-! ## One instruction of the processor -/

/-- An intrinsic on two values computes what the processor's instruction for it does. -/
theorem yields_intrinsic {id : Intrinsic} {c : ValueId} {ψ : List Int → List Int → List Int}
    (hs : s.closed = false) (hf : Site f b) (hes : Given f b [(a, t), (c, t)])
    (hid : Intrinsic.ofCode (Int64.ofNat id.code.toNat).toUInt64.toUInt8 = id)
    (hψ : ∀ xs ys, t.ty.Fits xs → t.ty.Fits ys → ∃ zs, s.cpu.compute? id t.ty u.ty [xs, ys] = some zs ∧
      u.ty.Fits zs ∧ zs.map u.number = ψ (xs.map t.number) (ys.map t.number)) :
    Yields s f b [(a, t), (c, t)] u (into s.id u (intrinsic id u.ty [.value a, .value c]))
      fun env => ψ (t.numbers (env a)) (t.numbers (env c)) := by
  set i : Value := { op := .intrinsic, type := u.ty, args := [.value a, .value c],
                     aux := Int64.ofNat id.code.toNat } with hi
  have ha := hes (a, t) List.mem_cons_self
  have hc := hes (c, t) (.tail _ List.mem_cons_self)
  have hfresh : f.Fresh b i := by
    refine ⟨by simp [hi], by simp [hi], usable_two ha.1 hc.1, ?_⟩
    simp [hi, WellTyped, Op.isBinary, Op.isCast]
  have hgrown := Grown.appended hf hfresh
  have hval : (f.appended b i).value f.numValues = { i with block := some b } := by
    rw [value_appended, if_pos rfl]
  have htypes : i.args.map f.operandType = [t.ty, t.ty] := by
    simp [hi, operandType, ha.2, hc.2]
  have hname : i.bare.intrinsic = id := hid
  refine ⟨f.appended b i, f.numValues, ?_, hgrown, ?_, hgrown.site.verifies, fun F hF st hst => ?_⟩
  · exact gives_into (s := s.on f b) (gives_emit hs hf.pending) (by rw [hval])
  · rintro e he
    obtain rfl := List.mem_singleton.mp he
    have hop : Op.intrinsic ≠ .store := by decide
    refine ⟨⟨by rw [hval]; exact hop, .inr ?_⟩, by rw [hval]⟩
    rw [block_appended hf.lt, if_pos rfl]
    simp
  obtain ⟨xs, hxs, hxfit⟩ := (hst (a, t) List.mem_cons_self).lanes
  obtain ⟨ys, hys, hyfit⟩ := (hst (c, t) (.tail _ List.mem_cons_self)).lanes
  obtain ⟨zs, hzs, hzfit, hnumbers⟩ := hψ xs ys hxfit hyfit
  have hreads : i.args.map st.get = [.lanes xs, .lanes ys] := by
    simp [hi, Interp.State.get, Interp.read, hxs, hys]
  have hexec : F.exec st f.numValues = .ok (st.assign f.numValues .intrinsic (.lanes zs, st.mem)) := by
    have hmeaning : ([Datum.lanes xs, .lanes ys].mapM Datum.lanes?).bind
        (s.cpu.compute? i.bare.intrinsic ([t.ty, t.ty].headD .void) i.bare.type) = some zs := by
      rw [hname]
      exact hzs
    rw [exec_appended hf hfresh hF, htypes, hreads, Interp.perform, if_neg (by simp [hi, Value.bare])]
    simp only [hmeaning]
    rfl
  have hnew : (st.assign f.numValues .intrinsic (.lanes zs, st.mem)).env f.numValues = .lanes zs := by
    simp [Interp.State.assign]
  refine ⟨st.assign f.numValues .intrinsic (.lanes zs, st.mem), ?_, rfl, fun w hw => ?_, ?_, ?_⟩
  · rw [numValues_appended, Nat.add_sub_cancel_left]
    change (F.exec st f.numValues >>= fun st' => pure st') = _
    rw [hexec]
    rfl
  · simp [Interp.State.assign, Function.update_of_ne (Nat.ne_of_lt hw)]
  · rw [hnew]
    exact hzfit
  · rw [hnew]
    dsimp only
    rw [hxs, hys]
    exact hnumbers

section processor

variable {c : ValueId} {id : Intrinsic}

theorem ofCode_of_lanes {g : UInt64 → UInt64 → UInt64} {k : Kind} (hg : Lower.laneMeaning k id = some g) :
    Intrinsic.ofCode (Int64.ofNat id.code.toNat).toUInt64.toUInt8 = id := by
  cases id <;> first | rfl | simp [Lower.laneMeaning] at hg

/-- An instruction that goes by lanes. -/
theorem yields_lanes {w : UInt64 → UInt64 → UInt64} {ψ : Int → Int → Int} (hs : s.closed = false)
    (hf : Site f b) (hes : Given f b [(a, t), (c, t)]) (hid : s.cpu.supports id t.ty = true)
    (hw : Lower.laneMeaning t.ty.elemKind id = some w)
    (hψ : t.ty.elemKind = .i8 ∨ t.ty.elemKind = .i16 → ∀ p q, t.ty.elemKind.canon p = p →
      t.ty.elemKind.canon q = q →
      t.number (t.ty.elemKind.canon (w p q)) = ψ (t.number p) (t.number q)) :
    Yields s f b [(a, t), (c, t)] t (into s.id t (intrinsic id t.ty [.value a, .value c]))
      fun env => List.zipWith ψ (t.numbers (env a)) (t.numbers (env c)) := by
  obtain ⟨⟨op, imm⟩, hop, hshape, hsize⟩ := Lower.Features.intrinsic?_of_supports hid
  obtain ⟨hvec, rfl, hkind, hmeaning⟩ := Lower.intrinsicOp_lanes hshape hw
  have hint : t.ty.elemKind.isInt = true ∧ t.ty.elemKind ≠ .i1 := by
    rcases hkind with h | h <;> rw [h] <;> decide
  refine yields_intrinsic hs hf hes (ofCode_of_lanes hw) fun xs ys hx hy => ?_
  refine ⟨_, Lower.Features.compute?_zip hop hmeaning (hsize hvec) hint.2 hx hy, ⟨?_, fun z hz => ?_⟩, ?_⟩
  · rw [List.length_map, List.length_zipWith, hx.1, hy.1, Nat.min_self]
  · obtain ⟨z', -, rfl⟩ := List.mem_map.mp hz
    exact Kind.cut_canon (Kind.size_ne_zero_of_isInt hint.1)
  · refine List.ext_getElem (by simp) fun i hi hi' => ?_
    simp only [List.getElem_map, List.getElem_zipWith]
    exact hψ hkind _ _ (Kind.canon_of_cut (hx.2 _ (List.getElem_mem _)))
      (Kind.canon_of_cut (hy.2 _ (List.getElem_mem _)))

/-- An instruction that packs lanes. -/
theorem yields_packed {signed : Bool} {ψ : Int → Int} (hs : s.closed = false) (hf : Site f b)
    (hes : Given f b [(a, t), (c, t)])
    (hid : s.cpu.supports (if signed then .packSS else .packUS) t.ty = true)
    (hu : u.ty.elemKind.isInt = true) (hne : u.ty.elemKind ≠ .i1)
    (hsize : 2 * u.ty.elemKind.size = t.ty.elemKind.size) (hlanes : u.ty.numLanes = 2 * t.ty.numLanes)
    (hψ : ∀ p, u.number (u.ty.elemKind.canon (Lower.packClamp signed u.ty.elemKind
      (t.ty.elemKind.signExtend p).toInt)) = ψ (t.number p)) :
    Yields s f b [(a, t), (c, t)] u
      (into s.id u (intrinsic (if signed then .packSS else .packUS) u.ty [.value a, .value c]))
      fun env => (t.numbers (env a) ++ t.numbers (env c)).map ψ := by
  obtain ⟨⟨op, imm⟩, hop, hshape, hwhole⟩ := Lower.Features.intrinsic?_of_supports hid
  obtain ⟨hvec, rfl, hne', hmeaning⟩ := Lower.intrinsicOp_packs hshape hu hne hsize
  have hnonzero := Kind.size_ne_zero_of_isInt hu
  refine yields_intrinsic (ψ := fun xs ys => (xs ++ ys).map ψ) hs hf hes (by cases signed <;> rfl)
    fun xs ys hx hy => ?_
  refine ⟨_, Lower.Features.compute?_pack hop hmeaning (hwhole hvec) hne' hnonzero hne hsize hlanes hx hy,
    ⟨?_, fun z hz => ?_⟩, ?_⟩
  · rw [List.length_map, List.length_append, hx.1, hy.1, hlanes, Nat.two_mul]
  · obtain ⟨z', -, rfl⟩ := List.mem_map.mp hz
    exact Kind.cut_canon hnonzero
  · rw [← List.map_append, List.map_map, List.map_map]
    exact List.map_congr_left fun p _ => hψ p

end processor

/-- Building does the same in another way. -/
theorem Yields.congr {act' : BuildM Handle} (h : Yields s f b es u act φ)
    (hsame : act'.run.run (s.on f b) = act.run.run (s.on f b)) : Yields s f b es u act' φ := by
  obtain ⟨g, v, hgives, hrest⟩ := h
  exact ⟨g, v, hsame.trans hgives, hrest⟩

/-- One of two ways to build, as the session has it. -/
theorem Yields.either {p : Session → Bool} {x y : BuildM Operand}
    (h : p (s.on f b) = true → Yields s f b es u (into s.id u x) φ)
    (h' : Yields s f b es u (into s.id u y) φ) :
    Yields s f b es u (into s.id u (get >>= fun σ => if p σ then x else y)) φ := by
  have henter : (enter s.id).Gives (s.on f b) () (s.on f b) := gives_enter (s := s.on f b)
  have hrun : ∀ k : Session → BuildM Operand, (into s.id u (get >>= k)).run.run (s.on f b) =
      (into s.id u (k (s.on f b))).run.run (s.on f b) := fun k => by
    rw [into, into, henter.run_bind, henter.run_bind, bind_assoc, gives_get.run_bind]
  by_cases hp : p (s.on f b) = true
  · exact (h hp).congr (by rw [hrun, if_pos hp])
  · exact h'.congr (by rw [hrun, if_neg hp])

end SsaJit.Build
