import SsaJit.Proofs.Bytes
import SsaJit.Proofs.Exec.Lanes
import SsaJit.Proofs.Pass.Combine
import SsaJit.Proofs.Ssa.Form

/-! What is put for a value when instructions are combined has the lanes that folding the operands of the
value gives, whenever these can be read. There are two exceptions. Sums and products of floats keep the
first of two operands that are no numbers, so it matters which is first; and a pointer that was turned
into an integer of fewer bits does not come back. -/

namespace SsaJit

/-! ## Single lanes -/

section lane

variable {k j : Kind} {a b n : UInt64} {op : Op}

theorem Kind.canon_one (k : Kind) : k.canon 1 = 1 := by
  cases k <;> rfl

theorem Kind.canon_and_ones (hk : k.isInt = true) : k.canon (a &&& k.canon (-1)) = k.canon a := by
  cases k <;> simp only [Kind.isInt, Bool.false_eq_true] at hk <;>
    simp [Kind.canon, UInt64.and_assoc]

/-- The one bit that is set is `-1` as a signed number. -/
theorem Kind.canon_div_one (hk : k.isInt = true) (ha : k.canon a = a) :
    k.canon (k.signExtend a / k.signExtend 1).toUInt64 = a := by
  by_cases hbit : k = .i1
  · subst hbit
    have ha : a &&& 1 = a := ha
    rcases Kind.and_one_eq a with h | h <;> rw [ha] at h <;> subst h <;> decide
  · have hone : k.signExtend 1 = 1 := by
      cases k <;> first | rfl | simp_all [Kind.isInt]
    rw [hone, Int64.div_one, Kind.canon_signExtend hk, ha]

theorem evalBinary_neutral (hop : Func.neutral? op = some n) (hk : k.isInt = true)
    (ha : k.cut a = a) : evalBinary op k a (k.canon n) = .ok (some a) := by
  have hcanon : k.canon a = a := Kind.canon_of_cut ha
  cases op <;> simp only [Func.neutral?, reduceCtorEq, Option.some.injEq] at hop <;> subst hop <;>
    simp only [evalBinary, Kind.canon_zero, Kind.canon_one]
  case add => rw [UInt64.add_zero, hcanon]
  case sub => rw [UInt64.sub_zero, hcanon]
  case xor => rw [UInt64.xor_zero, hcanon]
  case or => rw [UInt64.or_zero, hcanon]
  case shl => simp [hcanon]
  case lshr => simp [hcanon]
  case ashr => simp [Kind.canon_signExtend hk, hcanon]
  case mul => rw [UInt64.mul_one, hcanon]
  case udiv => simp [hcanon]
  case and => rw [Kind.canon_and_ones hk, hcanon]
  case sdiv =>
    have hplain : ¬ ((1 : UInt64) = 0 ∨ (k = .i64 ∧ a = Kind.minSigned .i64 ∧ 1 = k.canon (-1))) := by
      rintro (h | ⟨rfl, -, h⟩)
      · cases h
      · cases h
    have hone : k.signExtend 1 ≠ 0 := by
      cases k <;> first | decide | simp [Kind.isInt] at hk
    rw [if_neg hplain, if_neg hone, Kind.canon_div_one hk hcanon]

theorem evalBinary_absorbing (hop : Func.absorbing? op = some n) :
    evalBinary op k a (k.canon n) = .ok (some (k.canon n)) := by
  cases op <;> simp only [Func.absorbing?, reduceCtorEq, Option.some.injEq] at hop <;> subst hop <;>
    simp [evalBinary]

theorem evalBinary_comm (hop : op.isCommutative = true) (hadd : op ≠ .fadd) (hmul : op ≠ .fmul) :
    evalBinary op k a b = evalBinary op k b a := by
  cases op <;> simp only [Op.isCommutative, Bool.false_eq_true, ne_eq, not_true_eq_false] at * <;>
    simp only [evalBinary]
  case add => rw [UInt64.add_comm]
  case mul => rw [UInt64.mul_comm]
  case and => rw [UInt64.and_comm]
  case or => rw [UInt64.or_comm]
  case xor => rw [UInt64.xor_comm]

theorem evalBinary_total (hop : op.isCommutative = true) :
    ∃ r, evalBinary op k a b = .ok (some r) := by
  cases op <;> simp only [Op.isCommutative, Bool.false_eq_true] at hop <;> exact ⟨_, rfl⟩

/-- The other way round an integer loses nothing on the way back. -/
theorem evalCast_undone (hj : j.isInt = true) (hk : k.isInt = true) (hbits : k.bits ≤ j.bits)
    (hop : op = .zext ∨ op = .sext) (ha : k.cut a = a) :
    ∃ c, evalCast op k j a = some c ∧ evalCast .trunc j k c = some a := by
  have hcanon : k.canon a = a := Kind.canon_of_cut ha
  rcases hop with rfl | rfl
  · refine ⟨_, rfl, congrArg some ?_⟩
    rw [Kind.canon_narrower hj hk hbits, hcanon]
  · refine ⟨_, rfl, congrArg some ?_⟩
    rw [Kind.canon_narrower hj hk hbits, Kind.canon_signExtend hk, hcanon]

/-- What a relation says of a number and itself. -/
def Predicate.holdsOfSame : Predicate → Bool
  | .eq | .sle | .sge | .ule | .uge => true
  | _ => false

theorem compareInt_same {p : Predicate} : compareInt p k a a = p.holdsOfSame := by
  cases p <;> simp [compareInt, Predicate.holdsOfSame]

theorem Func.equalConst?_cases {y : Value} {lanes : List UInt64}
    (h : Func.equalConst? y = some lanes) :
    (∃ o, y.args = [o, o] ∧ (y.op = .sub ∨ y.op = .xor) ∧ lanes = Func.splat y.type 0) ∨
      ∃ o, y.args = [o, o] ∧ y.op = .icmp ∧
        lanes = Func.splat y.type (if y.predicate.holdsOfSame then -1 else 0) := by
  unfold Func.equalConst? at h
  split at h
  · next o o' hargs =>
    split at h
    · cases h
    · next hne =>
      obtain rfl : o = o' := by simpa using (not_or.mp hne).1
      cases hop : y.op <;> simp only [hop, reduceCtorEq] at h
      case sub => exact .inl ⟨o, hargs, .inl rfl, (Option.some.inj h).symm⟩
      case xor => exact .inl ⟨o, hargs, .inr rfl, (Option.some.inj h).symm⟩
      case icmp =>
        refine .inr ⟨o, hargs, rfl, ?_⟩
        cases hp : y.predicate <;> simp only [hp, reduceCtorEq, Option.some.injEq] at h <;>
          exact h.symm
  · cases h

end lane

/-! ## All lanes -/

section lanes

variable {x : Value} {ts : List Ty} {p q r : List UInt64}

namespace Func

theorem fold_cast_lanes {s : Ty} (hop : x.op.isCast = true) (hb : x.op ≠ .bitcast)
    (hr : r.length = x.type.numLanes)
    (h : ∀ (i : Nat) (c : UInt64), r[i]? = some c → ∃ a, p[i]? = some a ∧
      evalCast x.op s.elemKind x.type.elemKind a = some c) :
    (operationOf x [s]).fold [p] = .ok (some r) := by
  rw [fold_cast_eq hop hb]
  refine perLane_of_forall₂ (forall₂_range hr fun i c hc => ?_)
  obtain ⟨a, ha, heval⟩ := h i c hc
  rw [Outcome.at?_eq_ok.mpr ha]
  exact congrArg Except.ok heval

theorem fold_compare_lanes {s t : Ty} (hop : x.op = .icmp ∨ x.op = .fcmp)
    (hr : r.length = x.type.numLanes)
    (h : ∀ (i : Nat) (c : UInt64), r[i]? = some c → ∃ a b, p[i]? = some a ∧ q[i]? = some b ∧
      c = if evalCompare x.predicate s.elemKind a b then x.type.elemKind.canon (-1) else 0) :
    (operationOf x [s, t]).fold [p, q] = .ok (some r) := by
  rw [fold_compare_eq hop]
  refine congrArg (some <$> ·) (Outcome.mapM_eq_ok.mpr (forall₂_range hr fun i c hc => ?_))
  obtain ⟨a, b, ha, hb, rfl⟩ := h i c hc
  rw [Outcome.at?_eq_ok.mpr ha, Outcome.at?_eq_ok.mpr hb]
  rfl

/-- The operands of these operations can change places. -/
theorem fold_commuted (ts : List Ty) (hcomm : x.op.isCommutative = true) (hadd : x.op ≠ .fadd)
    (hmul : x.op ≠ .fmul) (hp : p.length = x.type.numLanes) (hq : q.length = x.type.numLanes) :
    ∃ r, (operationOf x ts).fold [p, q] = .ok (some r) ∧
      (operationOf x ts).fold [q, p] = .ok (some r) := by
  let lane (a b : UInt64) : UInt64 :=
    ((evalBinary x.op x.type.elemKind a b).toOption.join).getD 0
  have hlane : ∀ a b, evalBinary x.op x.type.elemKind a b = .ok (some (lane a b)) := fun a b => by
    obtain ⟨r, hr⟩ := evalBinary_total (k := x.type.elemKind) (a := a) (b := b) hcomm
    simp only [lane, hr]
    rfl
  have hbin := Op.isBinary_of_commutative hcomm
  refine ⟨List.zipWith lane p q, fold_binary_zipWith hbin hp hq hlane, ?_⟩
  rw [fold_binary_zipWith hbin hq hp hlane, List.zipWith_comm]
  have hturn : lane = fun a b => lane b a := by
    funext a b
    exact Option.some.inj (Except.ok.inj ((hlane a b).symm.trans
      ((evalBinary_comm hcomm hadd hmul).trans (hlane b a))))
  rw [← hturn]

/-- A bitcast there and back again. -/
theorem fold_bitcast_undone {y : Value} (hx : x.op = .bitcast) (hy : y.op = .bitcast)
    (hp : x.type.Fits p) (hmid : y.type.Valid) (hrule : castRule? .bitcast y.type x.type = none) :
    ∃ m, (operationOf y [x.type]).fold [p] = .ok (some m) ∧
      (operationOf x [y.type]).fold [m] = .ok (some p) := by
  obtain ⟨hsize, hbit⟩ : y.type.size = x.type.size ∧ y.type.kind ≠ .i1 := by
    simp only [castRule?, if_true] at hrule
    split at hrule
    · next h => simpa using h
    · cases hrule
  have hlanes : y.type.elemKind ≠ .i1 := by
    cases ht : y.type with
    | scalar k => rwa [ht] at hbit
    | vec k n =>
      rintro rfl
      rw [ht] at hmid
      simp [Ty.Valid, Ty.laneKind] at hmid
  have hlen : (p.flatMap (leBytes x.type.elemKind.size)).length =
      y.type.numLanes * y.type.elemKind.size := by
    rw [length_bytes, hp.1]
    exact hsize.symm
  obtain ⟨m, hread, hm, hfit⟩ := readLanes_fits y.type.elemKind y.type.numLanes _ hlen
  have hbytes := (bytes_of_readLanes (fun h => absurd h hlanes) hlen hread).2
  refine ⟨m, fold_bitcast_eq hy hp hread, fold_bitcast_eq hx ⟨hm, hfit⟩ ?_⟩
  rw [hbytes, ← hp.1]
  exact readLanes_bytes hp.2

/-- Another conversion there and back again. -/
theorem fold_cast_undone {y : Value} (hx : x.op.isCast = true) (hxb : x.op ≠ .bitcast)
    (hy : y.op.isCast = true) (hyb : y.op ≠ .bitcast) (hp : x.type.Fits p)
    (hn : y.type.numLanes = x.type.numLanes)
    (hback : ∀ a, x.type.elemKind.cut a = a →
      ∃ c, evalCast y.op x.type.elemKind y.type.elemKind a = some c ∧
        evalCast x.op y.type.elemKind x.type.elemKind c = some a) :
    ∃ m, (operationOf y [x.type]).fold [p] = .ok (some m) ∧
      (operationOf x [y.type]).fold [m] = .ok (some p) := by
  let turn (a : UInt64) : UInt64 := (evalCast y.op x.type.elemKind y.type.elemKind a).getD 0
  have hturn : ∀ a ∈ p, evalCast y.op x.type.elemKind y.type.elemKind a = some (turn a) ∧
      evalCast x.op y.type.elemKind x.type.elemKind (turn a) = some a := fun a ha => by
    obtain ⟨c, hc, ha⟩ := hback a (hp.2 a ha)
    have : turn a = c := by simp only [turn, hc, Option.getD_some]
    rw [this]
    exact ⟨hc, ha⟩
  refine ⟨p.map turn, fold_cast_lanes hy hyb ?_ fun i c hc => ?_,
    fold_cast_lanes hx hxb hp.1 fun i a ha => ?_⟩
  · rw [List.length_map, hp.1, hn]
  · rw [List.getElem?_map, Option.map_eq_some_iff] at hc
    obtain ⟨a, ha, rfl⟩ := hc
    exact ⟨a, ha, (hturn a (List.mem_of_getElem? ha)).1⟩
  · exact ⟨turn a, by rw [List.getElem?_map, ha]; rfl, (hturn a (List.mem_of_getElem? ha)).2⟩

theorem Undoes.isCast {op op' : Op} (h : Undoes op op') : op.isCast = true ∧ op'.isCast = true := by
  cases h <;> exact ⟨rfl, rfl⟩

/-- A conversion there and back again, if pointers keep all their bits. -/
theorem Undoes.fold {y : Value} (h : Undoes x.op y.op) (hp : x.type.Fits p) (hmid : y.type.Valid)
    (hy : castRule? y.op x.type y.type = none) (hx : castRule? x.op y.type x.type = none)
    (hptr : y.op = .ptrtoint → y.type.elemKind = .i64) :
    ∃ m, (operationOf y [x.type]).fold [p] = .ok (some m) ∧
      (operationOf x [y.type]).fold [m] = .ok (some p) := by
  obtain ⟨hxc, hyc⟩ := h.isCast
  generalize hxop : x.op = o at h hx hxc
  generalize hyop : y.op = o' at h hy hyc hptr
  cases h with
  | bitcast => exact fold_bitcast_undone hxop hyop hp hmid hx
  | zext | sext =>
    have hn := castRule?_numLanes (by decide) hx
    refine fold_cast_undone (by rw [hxop]; rfl) (by rw [hxop]; decide) (by rw [hyop]; rfl)
      (by rw [hyop]; decide) hp hn fun a ha => ?_
    simp only [castRule?, reduceCtorEq, if_false, hn, ne_eq, not_true_eq_false] at hx
    split at hx
    · next hbits =>
      simp only [Bool.and_eq_true, decide_eq_true_eq] at hbits
      rw [hxop, hyop]
      exact evalCast_undone hbits.1.1 hbits.1.2 (Nat.le_of_lt hbits.2) (by simp) ha
    · cases hx
  | pointer =>
    have hn := castRule?_numLanes (by decide) hx
    refine fold_cast_undone (by rw [hxop]; rfl) (by rw [hxop]; decide) (by rw [hyop]; rfl)
      (by rw [hyop]; decide) hp hn fun a ha => ?_
    rw [hxop, hyop, hptr rfl, castRule?_inttoptr hx]
    exact ⟨a, rfl, rfl⟩

end Func

end lanes

/-! ## Values -/

namespace Func

variable {W : World} {f g : Func} {b c d : BlockId} {u v w a e : ValueId} {o : Operand}
  {strict : Prop} {env : ValueId → List UInt64}

/-- What can be read where the value stands is as it was computed. -/
def Seen (W : World) (f : Func) (b : BlockId) (v : ValueId) (env : ValueId → List UInt64) : Prop :=
  ∀ a, f.Before (.value a) v b → (f.value a).op ≠ .store → f.Computed W a env

theorem makes_of_fold {l : List ValueId} {r : List UInt64}
    (hop : (f.value v).op.isFoldable = true) (hargs : (f.value v).args = l.map .value)
    (hfold : (operationOf (f.value v) (l.map fun a => (f.value a).type)).fold (l.map env) =
      .ok (some r)) : Makes W f v env r := by
  have hreads : (f.value v).reads = l.map .value := by
    rw [Value.reads, if_neg (Op.isFoldable_ne hop).2.1, hargs]
  refine Value.eval?_eq_some.mpr ⟨hop, ?_⟩
  rw [hreads, List.map_map, List.map_map]
  exact hfold

/-- Folding what was computed is what was computed. -/
theorem Computed.fold {l : List ValueId} {r : List UInt64} (h : f.Computed W v env)
    (hop : (f.value v).op.isFoldable = true) (hargs : (f.value v).args = l.map .value)
    (hfold : (operationOf (f.value v) (l.map fun a => (f.value a).type)).fold (l.map env) =
      .ok (some r)) : env v = r :=
  h.folded r (makes_of_fold hop hargs hfold)

theorem isSplat_eq {n : UInt64} (h : f.isSplat (.value a) n = .ok true) :
    ∃ lanes, (f.value a).constLanes = some lanes ∧
      ∀ w ∈ lanes, w = (f.value a).type.elemKind.canon n := by
  unfold isSplat at h
  simp only [find, Outcome.ok_bind] at h
  cases hl : (f.value a).constLanes with
  | none => rw [hl] at h; cases h
  | some lanes =>
    rw [hl] at h
    have hall : lanes.all (· == (f.value a).type.elemKind.canon n) = true := Except.ok.inj h
    exact ⟨lanes, rfl, by simpa using hall⟩

/-- A splat has its pattern in every lane. -/
theorem Computed.splat {n : UInt64} (h : f.Computed W a env)
    (hsplat : f.isSplat (.value a) n = .ok true) {i : Nat} {x : UInt64}
    (hx : (env a)[i]? = some x) : x = (f.value a).type.elemKind.canon n := by
  obtain ⟨lanes, hl, hall⟩ := isSplat_eq hsplat
  rw [h.const lanes hl] at hx
  exact hall x (List.mem_of_getElem? hx)

theorem Op.isFoldable_of_binary {op : Op} (h : op.isBinary = true) : op.isFoldable = true := by
  cases op <;> first | rfl | cases h

theorem Op.isFoldable_of_cast {op : Op} (h : op.isCast = true) : op.isFoldable = true := by
  cases op <;> first | rfl | cases h

/-- A binary operation on integers, by lanes. -/
theorem makes_binary {r : List UInt64} (hop : (f.value v).op.isBinary = true)
    (hargs : (f.value v).args = [.value a, .value c]) (hr : r.length = (f.value v).type.numLanes)
    (hlane : ∀ (i : Nat) (z : UInt64), r[i]? = some z → ∃ x y, (env a)[i]? = some x ∧
      (env c)[i]? = some y ∧
      evalBinary (f.value v).op (f.value v).type.elemKind x y = .ok (some z)) :
    Makes W f v env r :=
  makes_of_fold (l := [a, c]) (Op.isFoldable_of_binary hop) hargs (fold_binary_lanes hop hr hlane)

section equal

variable (h : f.Good strict) (hb : b ∈ f.layout) (hv : v ∈ (f.block b).values)
include h hb hv

theorem Good.seen_arg (hphi : (f.value v).op ≠ .phi) (hparam : (f.value v).op ≠ .param)
    (hseen : Seen W f b v env) (ha : .value a ∈ (f.value v).args) : f.Computed W a env :=
  hseen a (h.ssa.before hb hv hphi hparam ha) (h.tidy.noStore_arg hb hv ha a rfl)

/-- What the operands of a binary operation on integers are. -/
theorem Good.binary_seen (hop : (f.value v).op.isBinary = true)
    (hfloat : (f.value v).op.isFloatBinary = false) (hseen : Seen W f b v env)
    (hargs : (f.value v).args = [.value a, .value c]) :
    (f.value v).type.elemKind.isInt = true ∧
      (f.Computed W a env ∧ (f.value a).type = (f.value v).type) ∧
      f.Computed W c env ∧ (f.value c).type = (f.value v).type := by
  obtain ⟨a', c', hargs', ha, hc⟩ := h.binary_args hb hv hop
  obtain ⟨rfl, rfl⟩ : a' = a ∧ c' = c := by simpa [hargs] using hargs'.symm
  have hty := h.ssa.typed hb hv fun heq => by simp [heq, Op.isBinary] at hop
  rw [WellTyped, if_pos hop, hfloat] at hty
  exact ⟨hty.2, ⟨hseen _ ha.before ha.noStore, ha.type⟩, hseen _ hc.before hc.noStore, hc.type⟩

/-- What the operands of a choice are. -/
theorem Good.select_seen {z : ValueId} (hop : (f.value v).op = .select) (hseen : Seen W f b v env)
    (hargs : (f.value v).args = [.value z, .value a, .value e]) :
    ∃ s, (s = .i1 ∨ s.isVector = true ∧ s.numLanes = (f.value v).type.numLanes) ∧
      (f.value z).type = s ∧ (f.value a).type = (f.value v).type ∧
      (f.value e).type = (f.value v).type ∧
      f.Computed W z env ∧ f.Computed W a env ∧ f.Computed W e env := by
  have hcomputed : ∀ {y}, .value y ∈ (f.value v).args → f.Computed W y env :=
    h.seen_arg hb hv (by simp [hop]) (by simp [hop]) hseen
  have hty := h.ssa.typed hb hv (by simp [hop])
  simp only [WellTyped, hop, Op.isBinary, Op.isCast, Bool.false_eq_true, if_false] at hty
  obtain ⟨s, hty, hs⟩ := hty
  simp only [argTypes, hargs, operandType, List.map_cons, List.map_nil, List.cons.injEq,
    and_true] at hty
  exact ⟨s, hs.imp_right fun h => ⟨h.1, h.2.2⟩, hty.1, hty.2.1, hty.2.2,
    hcomputed (by simp [hargs]), hcomputed (by simp [hargs]), hcomputed (by simp [hargs])⟩

/-- A value that its operands make equal to one of them, when it is a binary operation. -/
theorem EqualTo.makes_binary (hop : (f.value v).op.isBinary = true) (hseen : Seen W f b v env)
    (heq : f.EqualTo (f.value v) w) : Makes W f v env (env w) := by
  cases heq with
  | neutral hargs hn hc =>
    next c n =>
    have hfloat : (f.value v).op.isFloatBinary = false := by
      cases hf : (f.value v).op <;> simp_all [neutral?, Op.isFloatBinary]
    obtain ⟨hint, ⟨hw, hwt⟩, hsplat, hct⟩ := h.binary_seen hb hv hop hfloat hseen hargs
    have hlen : (env w).length = (f.value v).type.numLanes := hwt ▸ hw.fits.1
    refine Func.makes_binary hop hargs hlen fun i z hz => ?_
    have hi : i < (f.value c).type.numLanes := by
      rw [hct, ← hlen]
      exact (List.getElem?_eq_some_iff.mp hz).1
    obtain ⟨y, hy, -⟩ := hsplat.fits.getElem? hi
    have hcut := hw.fits.2 z (List.mem_of_getElem? hz)
    rw [hwt] at hcut
    refine ⟨z, y, hz, hy, ?_⟩
    rw [hsplat.splat hc hy, hct]
    exact evalBinary_neutral hn hint hcut
  | absorbing hargs hn hc =>
    next a n =>
    have hfloat : (f.value v).op.isFloatBinary = false := by
      cases hf : (f.value v).op <;> simp_all [absorbing?, Op.isFloatBinary]
    obtain ⟨hint, ⟨ha, hat⟩, hsplat, hct⟩ := h.binary_seen hb hv hop hfloat hseen hargs
    have hlen : (env w).length = (f.value v).type.numLanes := hct ▸ hsplat.fits.1
    refine Func.makes_binary hop hargs hlen fun i z hz => ?_
    have hi : i < (f.value a).type.numLanes := by
      rw [hat, ← hlen]
      exact (List.getElem?_eq_some_iff.mp hz).1
    obtain ⟨x, hx, -⟩ := ha.fits.getElem? hi
    refine ⟨x, z, hx, hz, ?_⟩
    rw [hsplat.splat hc hz, hct]
    exact evalBinary_absorbing hn
  | same hargs hand =>
    have hfloat : (f.value v).op.isFloatBinary = false := by
      rcases hand with hf | hf <;> rw [hf] <;> rfl
    obtain ⟨-, ⟨hw, hwt⟩, -⟩ := h.binary_seen hb hv hop hfloat hseen hargs
    refine Func.makes_binary hop hargs (hwt ▸ hw.fits.1) fun i z hz => ⟨z, z, hz, hz, ?_⟩
    have hcut := hw.fits.2 z (List.mem_of_getElem? hz)
    rw [hwt] at hcut
    exact evalBinary_same hand hcut
  | copied _ hf | either _ hf | chosen _ hf | recast _ hf => simp [hf, Op.isBinary] at hop
  | undone _ _ hf =>
    rw [Op.isBinary_of_isCast hf.isCast.1] at hop
    cases hop

theorem makes_either {z : ValueId} (hop : (f.value v).op = .select) (hseen : Seen W f b v env)
    (hargs : (f.value v).args = [.value z, .value w, .value w]) : Makes W f v env (env w) := by
  obtain ⟨s, hs, htz, htw, -, hz, hw, -⟩ := h.select_seen hb hv hop hseen hargs
  refine makes_of_fold (l := [z, w, w]) (by rw [hop]; rfl) hargs ?_
  simp only [List.map_cons, List.map_nil, htz]
  rcases hs with rfl | ⟨hvec, hlanes⟩
  · obtain ⟨x, hx, -⟩ := hz.fits.getElem? (i := 0) (by rw [htz]; exact Nat.one_pos)
    rw [fold_select_bit hop hx, ite_self]
  · rw [fold_select_lanes hop hvec]
    have hmap : (List.range (f.value v).type.numLanes).mapM (fun i => do
        if (← Outcome.at? (env z) i) ≠ 0 then Outcome.at? (env w) i else Outcome.at? (env w) i) =
          .ok (env w) := by
      refine Outcome.mapM_eq_ok.mpr (forall₂_range (htw ▸ hw.fits.1) fun i y hy => ?_)
      have hi : i < (f.value z).type.numLanes := by
        rw [htz, hlanes, ← htw, ← hw.fits.1]
        exact (List.getElem?_eq_some_iff.mp hy).1
      obtain ⟨x, hx, -⟩ := hz.fits.at? hi
      rw [hx, Outcome.ok_bind, ite_self, Outcome.at?_eq_ok.mpr hy]
    rw [hmap]
    rfl

theorem makes_chosen {z : ValueId} (hop : (f.value v).op = .select) (hseen : Seen W f b v env)
    (hargs : (f.value v).args = [.value z, .value a, .value e])
    (hscalar : (f.value z).type.isVector = false) (hconst : (f.value z).isConst = true) :
    Makes W f v env (env (if (f.value z).aux ≠ 0 then a else e)) := by
  obtain ⟨s, hs, htz, -, -, hz, -, -⟩ := h.select_seen hb hv hop hseen hargs
  obtain rfl : s = .i1 := hs.resolve_right fun hvec => by simp [← htz, hscalar] at hvec
  have henv : env z = [(f.value z).aux.toUInt64] := by
    refine hz.const _ ?_
    simp [Value.constLanes, hconst, hscalar]
  refine makes_of_fold (l := [z, a, e]) (by rw [hop]; rfl) hargs ?_
  simp only [List.map_cons, List.map_nil, htz]
  rw [fold_select_bit (w := (f.value z).aux.toUInt64) hop (by rw [henv]; rfl)]
  have haux : (f.value z).aux.toUInt64 ≠ 0 ↔ (f.value z).aux ≠ 0 :=
    not_congr ⟨fun h0 => congrArg UInt64.toInt64 h0, fun h0 => by rw [h0]; rfl⟩
  by_cases h0 : (f.value z).aux ≠ 0
  · rw [if_pos (haux.mpr h0), if_pos h0]
  · rw [if_neg (haux.not.mpr h0), if_neg h0]

theorem makes_copied (hop : (f.value v).op = .copy) (hseen : Seen W f b v env)
    (hargs : (f.value v).args = [.value w]) (htype : (f.value w).type = (f.value v).type) :
    Makes W f v env (env w) := by
  have hw : f.Computed W w env :=
    h.seen_arg hb hv (by simp [hop]) (by simp [hop]) hseen (by simp [hargs])
  exact makes_of_fold (l := [w]) (by rw [hop]; rfl) hargs (fold_copy_eq hop (htype ▸ hw.fits))

theorem makes_recast (hop : (f.value v).op = .bitcast) (hseen : Seen W f b v env)
    (hargs : (f.value v).args = [.value w]) (htype : (f.value w).type = (f.value v).type) :
    Makes W f v env (env w) := by
  have hw : f.Computed W w env :=
    h.seen_arg hb hv (by simp [hop]) (by simp [hop]) hseen (by simp [hargs])
  have hfits : (f.value v).type.Fits (env w) := htype ▸ hw.fits
  refine makes_of_fold (l := [w]) (by rw [hop]; rfl) hargs ?_
  simp only [List.map_cons, List.map_nil, htype]
  refine fold_bitcast_eq hop hfits ?_
  rw [← hfits.1]
  exact readLanes_bytes hfits.2

/-- The operand of a conversion and the rule that it follows. -/
theorem Good.cast_arg (hop : (f.value v).op.isCast = true)
    (hargs : (f.value v).args = [.value a]) :
    castRule? (f.value v).op (f.value a).type (f.value v).type = none := by
  have hty := h.ssa.typed hb hv fun heq => by simp [heq, Op.isCast] at hop
  have hbin : (f.value v).op.isBinary ≠ true := by
    rw [Op.isBinary_of_isCast hop]
    exact Bool.false_ne_true
  rw [WellTyped, if_neg hbin, if_pos hop] at hty
  obtain ⟨s, hs, hrule⟩ := hty
  obtain rfl : (f.value a).type = s := by simpa [argTypes, hargs, operandType] using hs
  exact hrule

/-- Integers of the type have all the bits of a pointer, if any is turned into a pointer. -/
def WholeInt (f : Func) (t : Ty) : Prop :=
  ∀ b ∈ f.layout, ∀ v ∈ (f.block b).values, (f.value v).op = .inttoptr →
    f.argTypes (f.value v) = [t] → t = .i64

/-- An integer type that a pointer is turned into and that is turned into a pointer has all the bits of
a pointer. -/
def PointersWhole (f : Func) : Prop :=
  ∀ b ∈ f.layout, ∀ v ∈ (f.block b).values, (f.value v).op = .ptrtoint → f.WholeInt (f.value v).type

instance {t : Ty} : Decidable (f.WholeInt t) := inferInstanceAs (Decidable (∀ b ∈ f.layout, _))

instance : Decidable f.PointersWhole := inferInstanceAs (Decidable (∀ b ∈ f.layout, _))

theorem makes_undone (hptr : f.PointersWhole) (hop : Undoes (f.value v).op (f.value a).op)
    (hseen : Seen W f b v env) (hargs : (f.value v).args = [.value a])
    (hinner : (f.value a).args = [.value w]) (htype : (f.value w).type = (f.value v).type) :
    Makes W f v env (env w) := by
  obtain ⟨hvc, hac⟩ := hop.isCast
  have hfold := Op.isFoldable_ne (Op.isFoldable_of_cast hvc)
  have hfold' := Op.isFoldable_ne (Op.isFoldable_of_cast hac)
  have hmem : .value a ∈ (f.value v).args := by simp [hargs]
  have hbefore := h.ssa.before hb hv hfold.1 hfold.2.1 hmem
  obtain ⟨d, hd, had⟩ := h.listed_arg hb hv hfold.1 hfold.2.1 hmem
  have hmem' : .value w ∈ (f.value a).args := by simp [hinner]
  have ha : f.Computed W a env := h.seen_arg hb hv hfold.1 hfold.2.1 hseen hmem
  have hw : f.Computed W w env := hseen w
    (.trans h.ssa.listing hb hd had hfold'.2.2.1 (h.ssa.before hd had hfold'.1 hfold'.2.1 hmem')
      hbefore) (h.tidy.noStore_arg hd had hmem' w rfl)
  obtain ⟨m, hthere, hback⟩ := hop.fold (htype ▸ hw.fits) (h.tidy.types d hd a had)
    (htype ▸ h.cast_arg hd had hac hinner) (h.cast_arg hb hv hvc hargs) fun hp => by
      have hvp : (f.value v).op = .inttoptr := by
        rw [hp] at hop
        generalize (f.value v).op = o at hop
        cases hop
        rfl
      rw [hptr d hd a had hp b hb v hv hvp (by simp [argTypes, hargs, operandType])]
      rfl
  have henv : env a = m := ha.fold (l := [w]) (Op.isFoldable_of_cast hac) hinner
    (by simpa only [List.map_cons, List.map_nil, htype] using hthere)
  refine makes_of_fold (l := [a]) (Op.isFoldable_of_cast hvc) hargs ?_
  simpa only [List.map_cons, List.map_nil, henv] using hback

/-- A value is what it is taken to be equal to. -/
theorem EqualTo.makes (hptr : f.PointersWhole) (heq : f.EqualTo (f.value v) w)
    (htype : (f.value w).type = (f.value v).type) (hseen : Seen W f b v env) :
    Makes W f v env (env w) := by
  by_cases hop : (f.value v).op.isBinary = true
  · exact heq.makes_binary h hb hv hop hseen
  cases heq with
  | neutral _ hn _ => cases hf : (f.value v).op <;> simp_all [neutral?, Op.isBinary]
  | absorbing _ hn _ => cases hf : (f.value v).op <;> simp_all [absorbing?, Op.isBinary]
  | same _ hand => rcases hand with hf | hf <;> simp [hf, Op.isBinary] at hop
  | copied hargs hf => exact makes_copied h hb hv hf hseen hargs htype
  | either hargs hf => exact makes_either h hb hv hf hseen hargs
  | chosen hargs hf hscalar hconst => exact makes_chosen h hb hv hf hseen hargs hscalar hconst
  | recast hargs hf => exact makes_recast h hb hv hf hseen hargs htype
  | undone hargs hinner hf => exact makes_undone h hb hv hptr hf hseen hargs hinner htype

/-- Folding constants gives what folding the operands gives when it runs. -/
theorem FoldsTo.makes {lanes : List UInt64} (hfold : f.FoldsTo v lanes)
    (hseen : Seen W f b v env) : Makes W f v env lanes := by
  obtain ⟨hphi, hparam, -⟩ := isPure_op hfold.pure
  obtain ⟨l, ls, hargs, hls, hfolds⟩ := hfold.fold
  have hlanes : l.map env = ls := by
    rw [← List.forall₂_eq_eq_eq, List.forall₂_map_left_iff]
    refine List.forall₂_iff_get.mpr ⟨hls.length_eq, fun i hi hi' => ?_⟩
    have hmem : .value (l.get ⟨i, hi⟩) ∈ (f.value v).args := by
      rw [hargs]
      exact List.mem_map_of_mem (List.get_mem l ⟨i, hi⟩)
    exact (h.seen_arg hb hv hphi hparam hseen hmem).const _ (hls.get hi hi')
  refine makes_of_fold (Op.isFoldable_of_pure hfold.pure hfold.intrinsic) hargs ?_
  rw [hlanes, ← hfolds, argTypes, hargs, List.map_map]
  rfl

omit h hb hv in
theorem splat_getElem? {t : Ty} {n z : UInt64} {i : Nat}
    (hz : ((splat t n).map t.elemKind.canon)[i]? = some z) :
    i < t.numLanes ∧ z = t.elemKind.canon n := by
  rw [splat, List.map_replicate, List.getElem?_replicate] at hz
  split at hz
  · next hi => exact ⟨hi, (Option.some.inj hz).symm⟩
  · cases hz

/-- A value that its two equal operands do not matter to. -/
theorem equalConst?_makes {lanes : List UInt64} (hl : equalConst? (f.value v) = some lanes)
    (hseen : Seen W f b v env) :
    Makes W f v env (lanes.map (f.value v).type.elemKind.canon) := by
  have hlen : ∀ n, ((splat (f.value v).type n).map (f.value v).type.elemKind.canon).length =
      (f.value v).type.numLanes := fun n => by rw [List.length_map, splat, List.length_replicate]
  rcases equalConst?_cases hl with ⟨o, hargs, hop, rfl⟩ | ⟨o, hargs, hop, rfl⟩
  · have hbin : (f.value v).op.isBinary = true := by rcases hop with hf | hf <;> rw [hf] <;> rfl
    obtain ⟨a, c, hargs', ha, -⟩ := h.binary_args hb hv hbin
    obtain ⟨rfl, hac⟩ : o = .value a ∧ o = .value c := by simpa [hargs] using hargs'
    have hfits := (hseen a ha.before ha.noStore).fits
    rw [ha.type] at hfits
    refine makes_binary hbin hargs (hlen 0) fun i z hz => ?_
    obtain ⟨hi, rfl⟩ := splat_getElem? hz
    obtain ⟨x, hx, -⟩ := hfits.getElem? hi
    refine ⟨x, x, hx, hx, ?_⟩
    rw [Kind.canon_zero]
    exact evalBinary_none hop
  · have hty := h.ssa.typed hb hv (by simp [hop])
    simp only [WellTyped, hop, Op.isBinary, Op.isCast, Bool.false_eq_true, if_false] at hty
    obtain ⟨s, hs, hmask, hint, -⟩ := hty
    obtain ⟨a, c, hargs', hat, -⟩ := args_two (h.argValues hb hv (by simp [hop]) (by simp [hop])) hs
    obtain ⟨rfl, hac⟩ : o = .value a ∧ o = .value c := by simpa [hargs] using hargs'
    have hmem : .value a ∈ (f.value v).args := by simp [hargs]
    obtain ⟨d, hd, had⟩ := h.listed_arg hb hv (by simp [hop]) (by simp [hop]) hmem
    have hlanes := (maskType_spec (hat ▸ h.tidy.types d hd a had) hmask).1
    have hfits := (h.seen_arg hb hv (by simp [hop]) (by simp [hop]) hseen hmem).fits
    refine makes_of_fold (l := [a, a]) (by rw [hop]; rfl) hargs ?_
    refine fold_compare_lanes (.inl hop) (hlen _) fun i z hz => ?_
    obtain ⟨hi, rfl⟩ := splat_getElem? hz
    rw [hlanes, ← hat] at hi
    obtain ⟨x, hx, -⟩ := hfits.getElem? hi
    refine ⟨x, x, hx, hx, ?_⟩
    have hsame : evalCompare (f.value v).predicate (f.value a).type.elemKind x x =
        (f.value v).predicate.holdsOfSame := by
      rw [evalCompare, hint]
      exact compareInt_same
    rw [hsame]
    cases (f.value v).predicate.holdsOfSame with
    | true => rfl
    | false => exact Kind.canon_zero _

end equal

end Func

end SsaJit

/-! ## Operands that change places

Which operands may change places. Integer operations that are called commutative are, on every kind
of lane. Float sums and products are as long as at most one operand is no number: of two such operands
the first one is the result, with its quiet bit set, so the order shows unless both are then the same. -/

namespace SsaJit

/-! ## Singles -/

namespace Single

variable {x y : Single}

/-- Both are no numbers, and an operation that keeps the first one tells them apart. -/
def Clash (x y : Single) : Prop := x.isNaN = true ∧ y.isNaN = true ∧ x.quiet ≠ y.quiet

instance : Decidable (Clash x y) := inferInstanceAs (Decidable (_ ∧ _ ∧ _))

theorem toWord_injective (h : x.toWord = y.toWord) : x = y := by
  have hbits := congrArg UInt64.toNat h
  rw [toWord, toWord, UInt32.toNat_toUInt64, UInt32.toNat_toUInt64] at hbits
  exact congrArg Single.mk (UInt32.toNat.inj hbits)

/-- A pattern is a sign and a magnitude. -/
theorem eq_of_parts (hmag : x.magnitude = y.magnitude) (hneg : x.isNegative = y.isNegative) :
    x = y := by
  have hx := x.bits.toNat_lt
  have hy := y.bits.toNat_lt
  rw [isNegative, isNegative, decide_eq_decide] at hneg
  rw [magnitude, magnitude] at hmag
  exact congrArg Single.mk (UInt32.toNat.inj (by omega))

theorem nanOf_eq_none : nanOf x y = none ↔ x.isNaN = false ∧ y.isNaN = false := by
  unfold nanOf
  cases x.isNaN <;> cases y.isNaN <;> simp

theorem nanOf_comm_iff : nanOf x y = nanOf y x ↔ ¬ Clash x y := by
  unfold nanOf Clash
  cases x.isNaN <;> cases y.isNaN <;> simp

/-- An operation that is commutative on numbers is so but for operands that clash. -/
theorem comm_iff_of {op : Single → Single → Single}
    (hnan : ∀ x y r, nanOf x y = some r → op x y = r)
    (hnum : ∀ x y, nanOf x y = none → op x y = op y x) : op x y = op y x ↔ ¬ Clash x y := by
  rw [← nanOf_comm_iff]
  cases hxy : nanOf x y with
  | none =>
    have hyx : nanOf y x = none := nanOf_eq_none.mpr (nanOf_eq_none.mp hxy).symm
    simp only [hnum x y hxy, hyx]
  | some r =>
    cases hyx : nanOf y x with
    | none =>
      have := nanOf_eq_none.mpr (nanOf_eq_none.mp hyx).symm
      rw [hxy] at this
      cases this
    | some s => rw [hnan x y r hxy, hnan y x s hyx, Option.some_inj]

theorem add_comm_iff : add x y = add y x ↔ ¬ Clash x y := by
  refine comm_iff_of (fun x y r h => by rw [add, h]) fun x y h => ?_
  have hyx : nanOf y x = none := nanOf_eq_none.mpr (nanOf_eq_none.mp h).symm
  simp only [add, h, hyx]
  by_cases hx : x.isInf = true <;> by_cases hy : y.isInf = true
  · -- two infinities of one sign are the same
    by_cases hsign : x.isNegative = y.isNegative
    · have hmag : x.magnitude = y.magnitude :=
        (beq_iff_eq.mp hx).trans (beq_iff_eq.mp hy).symm
      rw [eq_of_parts hmag hsign]
    · simp [hx, hy, hsign, Ne.symm hsign]
  · simp [hx, hy]
  · simp [hx, hy]
  · simp only [hx, hy, Bool.false_eq_true, ↓reduceIte]
    rw [Bool.and_comm, Int.add_comm]

theorem mul_comm_iff : mul x y = mul y x ↔ ¬ Clash x y := by
  refine comm_iff_of (fun x y r h => by rw [mul, h]) fun x y h => ?_
  have hyx : nanOf y x = none := nanOf_eq_none.mpr (nanOf_eq_none.mp h).symm
  have hsign : (y.isNegative != x.isNegative) = (x.isNegative != y.isNegative) := by
    cases x.isNegative <;> cases y.isNegative <;> rfl
  simp only [mul, h, hyx, hsign, or_comm (a := (y.isInf = true)), or_comm (a := (y.isZero = true)),
    Nat.mul_comm y.units]

end Single

/-! ## Lanes -/

variable {op : Op} {k : Kind} {a b : UInt64}

/-- The verifier's type rules let the operation work on lanes of the kind. -/
def Op.Admits (op : Op) (k : Kind) : Prop :=
  ∃ v ts home, Func.WellTyped v ts home ∧ v.op = op ∧ v.type.elemKind = k

theorem Op.admits_iff (hop : op.isBinary = true) :
    op.Admits k ↔ if op.isFloatBinary then k = .f32 else k.isInt = true := by
  constructor
  · rintro ⟨v, ts, home, hv, rfl, rfl⟩
    rw [Func.WellTyped, if_pos hop] at hv
    split at hv
    · next hf =>
      rw [if_pos hf]
      exact beq_iff_eq.mp hv.2
    · next hf =>
      rw [if_neg hf]
      exact hv.2
  · intro hk
    refine ⟨{ op := op, type := .scalar k }, [.scalar k, .scalar k], True, ?_, rfl, rfl⟩
    rw [Func.WellTyped, if_pos hop]
    split at hk
    · next hf => exact ⟨rfl, by rw [if_pos hf, hk]; rfl⟩
    · next hf => exact ⟨rfl, by rw [if_neg hf]; exact hk⟩

/-- A float operation on words is the one on the patterns they hold. -/
theorem evalBinary_float_comm_iff {f : Single → Single → Single}
    (hf : ∀ a b, evalBinary op .f32 a b =
      .ok (some (Kind.f32.canon (f (.ofWord a) (.ofWord b)).toWord))) :
    evalBinary op .f32 a b = evalBinary op .f32 b a ↔
      f (.ofWord a) (.ofWord b) = f (.ofWord b) (.ofWord a) := by
  rw [hf a b, hf b a, Kind.canon_of_cut (Single.toWord_fits _),
    Kind.canon_of_cut (Single.toWord_fits _)]
  constructor
  · intro h
    exact Single.toWord_injective (Option.some.inj (Except.ok.inj h))
  · intro h
    rw [h]

theorem evalBinary_exchange_iff (hop : op.isCommutative = true) (hk : op.Admits k) :
    evalBinary op k a b = evalBinary op k b a ↔
      ¬ (op.isFloatBinary = true ∧ Single.Clash (.ofWord a) (.ofWord b)) := by
  have hkind := (Op.admits_iff (Func.Op.isBinary_of_commutative hop)).mp hk
  by_cases hadd : op = .fadd
  · subst hadd
    obtain rfl : k = .f32 := hkind
    rw [evalBinary_float_comm_iff fun _ _ => rfl, Single.add_comm_iff]
    simp [Op.isFloatBinary]
  by_cases hmul : op = .fmul
  · subst hmul
    obtain rfl : k = .f32 := hkind
    rw [evalBinary_float_comm_iff fun _ _ => rfl, Single.mul_comm_iff]
    simp [Op.isFloatBinary]
  · have hint : op.isFloatBinary = false := by
      cases op <;> simp_all [Op.isCommutative, Op.isFloatBinary]
    simp [evalBinary_comm (k := k) (a := a) (b := b) hop hadd hmul, hint]

/-- A commutative operation has a value whatever its operands are, and has the same one with its operands
exchanged unless it is one of floats whose operands clash. -/
theorem evalBinary_comm_iff (hop : op.isCommutative = true) (hk : op.Admits k) (a b : UInt64) :
    (∃ r, evalBinary op k a b = .ok (some r)) ∧
      (evalBinary op k a b = evalBinary op k b a ↔
        ¬ (op.isFloatBinary = true ∧ Single.Clash (.ofWord a) (.ofWord b))) :=
  ⟨evalBinary_total hop, evalBinary_exchange_iff hop hk⟩

/-- With a number the operands may change places, with another NaN they may not. -/
theorem evalBinary_comm_iff_fadd :
    evalBinary .fadd .f32 0x7F800001 0x3F800000 = evalBinary .fadd .f32 0x3F800000 0x7F800001 ∧
      evalBinary .fadd .f32 0x7FC00001 0x7FC00002 ≠
        evalBinary .fadd .f32 0x7FC00002 0x7FC00001 := by
  have hk : Op.fadd.Admits .f32 := (Op.admits_iff rfl).mpr rfl
  exact ⟨(evalBinary_comm_iff rfl hk _ _).2.mpr (by decide),
    fun h => (evalBinary_comm_iff rfl hk _ _).2.mp h (by decide)⟩

end SsaJit
