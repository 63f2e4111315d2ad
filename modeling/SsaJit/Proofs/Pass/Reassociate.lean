import SsaJit.Pass.Reassociate
import SsaJit.Proofs.Pass.Combine

/-! Reassociation keeps functions in order. Only the operands of integer operations change: to an operand
of an operand, or to a new constant, whose lanes are right modulo the width of the type. -/

namespace SsaJit

/-! ## Operations that come out the same modulo a power of two -/

/-- One lane of the operations that cutting the operands makes no difference to. -/
def wrapped (op : Op) (a b : UInt64) : UInt64 :=
  match op with
  | .add => a + b
  | .sub => a - b
  | .mul => a * b
  | .and => a &&& b
  | .or => a ||| b
  | .xor => a ^^^ b
  | _ => 0

section wrapped

variable {k : Kind} {op : Op} {a b c : UInt64}

theorem evalBinary_wrapped (hop : Func.isAssociative op = true ∨ op = .sub) :
    evalBinary op k a b = .ok (some (k.canon (wrapped op a b))) := by
  rcases hop with hop | rfl
  · cases op <;> first | rfl | cases hop
  · rfl

/-- Cutting keeps the pattern modulo a power of two. -/
theorem Kind.exists_canon_mod (k : Kind) : ∃ n ≤ 64, ∀ w, (k.canon w).toNat = w.toNat % 2 ^ n := by
  have hmask : ∀ (n : Nat) (m : UInt64), m.toNat = 2 ^ n - 1 → ∀ w : UInt64,
      (w &&& m).toNat = w.toNat % 2 ^ n := fun n m hm w => by
    rw [UInt64.toNat_and, hm, Nat.and_two_pow_sub_one_eq_mod]
  have hwhole : ∀ w : UInt64, w.toNat = w.toNat % 2 ^ 64 := fun w =>
    (Nat.mod_eq_of_lt w.toNat_lt).symm
  cases k
  case i1 => exact ⟨1, by decide, hmask 1 1 rfl⟩
  case i8 => exact ⟨8, by decide, hmask 8 0xFF rfl⟩
  case i16 => exact ⟨16, by decide, hmask 16 0xFFFF rfl⟩
  case i32 | f32 => exact ⟨32, by decide, hmask 32 0xFFFFFFFF rfl⟩
  all_goals exact ⟨64, le_rfl, hwhole⟩

theorem Kind.canon_wrapped_left (hop : Func.isAssociative op = true) :
    k.canon (wrapped op (k.canon a) b) = k.canon (wrapped op a b) := by
  obtain ⟨n, hn, hmod⟩ := k.exists_canon_mod
  have hdvd : 2 ^ n ∣ 2 ^ 64 := Nat.pow_dvd_pow 2 hn
  refine UInt64.toNat_inj.mp ?_
  rw [hmod, hmod]
  cases op <;> simp only [Func.isAssociative, Bool.false_eq_true] at hop <;> simp only [wrapped]
  case add =>
    rw [UInt64.toNat_add, UInt64.toNat_add, hmod, Nat.mod_mod_of_dvd _ hdvd,
      Nat.mod_mod_of_dvd _ hdvd, Nat.mod_add_mod]
  case mul =>
    rw [UInt64.toNat_mul, UInt64.toNat_mul, hmod, Nat.mod_mod_of_dvd _ hdvd,
      Nat.mod_mod_of_dvd _ hdvd, Nat.mod_mul_mod]
  case and => rw [UInt64.toNat_and, UInt64.toNat_and, hmod, Nat.and_mod_two_pow, Nat.mod_mod,
    ← Nat.and_mod_two_pow]
  case or => rw [UInt64.toNat_or, UInt64.toNat_or, hmod, Nat.or_mod_two_pow, Nat.mod_mod,
    ← Nat.or_mod_two_pow]
  case xor => rw [UInt64.toNat_xor, UInt64.toNat_xor, hmod, Nat.xor_mod_two_pow, Nat.mod_mod,
    ← Nat.xor_mod_two_pow]

theorem wrapped_comm (hop : Func.isAssociative op = true) : wrapped op a b = wrapped op b a := by
  cases op <;> simp only [Func.isAssociative, Bool.false_eq_true] at hop <;> simp only [wrapped]
  case add => exact UInt64.add_comm a b
  case mul => exact UInt64.mul_comm a b
  case and => exact UInt64.and_comm a b
  case or => exact UInt64.or_comm a b
  case xor => exact UInt64.xor_comm a b

theorem wrapped_assoc (hop : Func.isAssociative op = true) :
    wrapped op (wrapped op a b) c = wrapped op a (wrapped op b c) := by
  cases op <;> simp only [Func.isAssociative, Bool.false_eq_true] at hop <;> simp only [wrapped]
  case add => exact UInt64.add_assoc a b c
  case mul => exact UInt64.mul_assoc a b c
  case and => exact UInt64.and_assoc a b c
  case or => exact UInt64.or_assoc a b c
  case xor => exact UInt64.xor_assoc a b c

theorem Kind.canon_wrapped_right (hop : Func.isAssociative op = true) :
    k.canon (wrapped op a (k.canon b)) = k.canon (wrapped op a b) := by
  rw [wrapped_comm hop, canon_wrapped_left hop, wrapped_comm hop]

theorem Kind.canon_joined (hop : Func.isAssociative op = true) :
    k.canon (wrapped op a (k.canon (k.canon (wrapped op b c)))) =
      k.canon (wrapped op (k.canon (wrapped op a b)) c) := by
  rw [canon_wrapped_right hop, canon_wrapped_right hop, canon_wrapped_left hop, wrapped_assoc hop]

theorem Kind.canon_negated :
    k.canon (wrapped .add a (k.canon (0 - b))) = k.canon (wrapped .sub a b) := by
  rw [canon_wrapped_right rfl]
  simp only [wrapped]
  rw [UInt64.zero_sub, UInt64.sub_eq_add_neg]

end wrapped

/-- What an operation makes of two lists of lanes. -/
def wrappedLanes (t : Ty) (op : Op) (p q : List UInt64) : List UInt64 :=
  List.zipWith (fun a b => t.elemKind.canon (wrapped op a b)) p q

section wrappedLanes

variable {t : Ty} {op : Op} {p q r : List UInt64}

theorem length_wrappedLanes (op : Op) (hp : p.length = t.numLanes) (hq : q.length = t.numLanes) :
    (wrappedLanes t op p q).length = t.numLanes := by
  rw [wrappedLanes, List.length_zipWith, hp, hq, Nat.min_self]

theorem wrappedLanes_comm (hop : Func.isAssociative op = true) :
    wrappedLanes t op p q = wrappedLanes t op q p := by
  unfold wrappedLanes
  rw [List.zipWith_comm]
  simp only [wrapped_comm hop]

/-- Two constants joined into one. -/
theorem wrappedLanes_joined (hop : Func.isAssociative op = true) :
    wrappedLanes t op p ((wrappedLanes t op q r).map t.elemKind.canon) =
      wrappedLanes t op (wrappedLanes t op p q) r := by
  unfold wrappedLanes
  induction p generalizing q r with
  | nil => simp
  | cons x p ih =>
    cases q with
    | nil => simp
    | cons y q =>
      cases r with
      | nil => simp
      | cons z r => simp only [List.zipWith_cons_cons, List.map_cons, ih, Kind.canon_joined hop]

/-- A constant that is taken away added as its negative. -/
theorem wrappedLanes_negated :
    wrappedLanes t .add p ((q.map (0 - ·)).map t.elemKind.canon) = wrappedLanes t .sub p q := by
  simp only [wrappedLanes, List.map_map, List.zipWith_map_right, Function.comp_apply,
    Kind.canon_negated]

end wrappedLanes

namespace Func

variable {f g : Func} {b c d : BlockId} {u v w x a e : ValueId} {o : Operand} {lanes : List UInt64}

/-! ## A new constant for the second operand -/

/-- The value as an operation on `a` and a new constant in front of it. -/
def rebuilt (f : Func) (b : BlockId) (v : ValueId) (op : Op) (a : ValueId) (lanes : List UInt64) :
    Func :=
  (f.withConst b v lanes).modifyValue v fun y =>
    { y with op := op, args := [.value a, .value f.numValues] }

/-- What the operation and its operands were before does not matter. -/
theorem rebuilt_modifyValue {op : Op} {k : Value → Value} (hv : v < f.numValues)
    (hk : ∀ y, ∃ op as, k y = { y with op := op, args := as }) :
    (f.modifyValue v k).rebuilt b v op a lanes = f.rebuilt b v op a lanes := by
  have htype : ((f.modifyValue v k).value v).type = (f.value v).type := by
    rw [value_modifyValue hv, if_pos rfl]
    obtain ⟨op', as, hk⟩ := hk (f.value v)
    rw [hk]
  rw [rebuilt, withConst, block_modifyValue, htype, inserted_modifyValue hv, modifyValue_modifyValue,
    numValues_modifyValue]
  refine congrArg _ (funext fun y => ?_)
  obtain ⟨op', as, hk⟩ := hk y
  rw [Function.comp, hk]

theorem setSecondConst_eq (hblock : (f.value v).block = some b) (hv : v ∈ (f.block b).values)
    (hargs : (f.value v).args = [.value a, o]) (hl : lanes.length = (f.value v).type.numLanes)
    (hne : v ≠ f.numValues) :
    f.setSecondConst v lanes = .ok (f.rebuilt b v (f.value v).op a lanes) := by
  have hins := insertConst_eq (f := f) (b := b) (t := (f.value v).type)
    (Nat.le_of_lt (List.idxOf_lt_length_of_mem hv)) hl
  have hval : (f.withConst b v lanes).value v = f.value v := by
    rw [withConst, value_inserted, if_neg hne]
  simp only [setSecondConst, hblock, Outcome.need, Outcome.ok_bind, indexIn_eq hv, hins]
  refine congrArg Except.ok (modifyValue_congr ?_)
  change _ = ({ (f.withConst b v lanes).value v with
    op := (f.value v).op, args := [.value a, .value f.numValues] } : Value)
  rw [show (f.inserted b ((f.block b).values.idxOf v) (constOf (f.value v).type lanes)).value v =
    f.value v from hval, hval, hargs]
  rfl

/-- The operands of a value can stand for it also after a constant was put before it. -/
theorem withConst_serves (lanes : List UInt64) (h : f.Ssa) (hb : b ∈ f.layout) (hv : v ∈ (f.block b).values)
    (hs : f.Serves w v b) : (f.withConst b v lanes).Serves w v b := by
  have hw := hs.before.ne_numValues
  obtain ⟨hval, _, _⟩ := withConst_old lanes h hb hv
  refine ⟨hs.before.stays (sameGraph_inserted (h.flow.lt b hb)).narrows
    (fun x hx => stays_inserted (Operand.value.inj hx ▸ hw))
    fun x _ _ hsub => ?_, ?_, ?_⟩
  · rw [withConst, block_inserted (h.flow.lt b hb), if_pos rfl]
    exact hsub.trans (List.sublist_insertIdx _ _ _)
  · rw [hval, withConst, value_inserted, if_neg hw]
    exact hs.type
  · rw [withConst, value_inserted, if_neg hw]
    exact hs.noStore

theorem withConst_serves_new (lanes : List UInt64) (h : f.Ssa) (hb : b ∈ f.layout)
    (hv : v ∈ (f.block b).values) :
    (f.withConst b v lanes).Serves f.numValues v b := by
  refine ⟨withConst_before h hb hv, ?_, ?_⟩
  · rw [(withConst_old lanes h hb hv).1, withConst, value_inserted, if_pos rfl]
    exact constOf_type
  · rw [withConst, value_inserted, if_pos rfl]
    simp

theorem withConst_plain (h : f.Plain) (hb : b ∈ f.layout) (hv : v ∈ (f.block b).values)
    (hphi : (f.value v).op ≠ .phi) (hparam : (f.value v).op ≠ .param)
    (hl : lanes.length = (f.value v).type.numLanes) : (f.withConst b v lanes).Plain := by
  refine ⟨withConst_ssa h.ssa hb hv hphi hparam hl, fun c hc u hu x hx hstore => ?_⟩
  have hval : ∀ y, y ≠ f.numValues → (f.withConst b v lanes).value y = f.value y := fun y hy => by
    rw [withConst, value_inserted, if_neg hy]
  have hnew : (f.withConst b v lanes).value f.numValues =
      { constOf (f.value v).type lanes with block := some b } := by
    rw [withConst, value_inserted, if_pos rfl]
  have hxn : x ≠ f.numValues := by
    rintro rfl
    rw [hnew] at hstore
    exact absurd (constOf_op.symm.trans hstore) (by decide)
  have hun : u ≠ f.numValues := by
    rintro rfl
    rw [hnew, constOf_args] at hx
    simp at hx
  have hcl : c ∈ f.layout := (sameGraph_inserted (h.ssa.flow.lt b hb)).layout ▸ hc
  have hcu : u ∈ (f.block c).values := by
    rw [withConst, block_inserted (h.ssa.flow.lt b hb)] at hu
    split at hu
    · next heq =>
      rcases List.eq_or_mem_of_mem_insertIdx hu with hnew | hmem
      · exact absurd hnew hun
      · exact heq ▸ hmem
    · exact hu
  rw [hval x hxn] at hstore ⊢
  rw [hval u hun] at hx
  exact h.stores c hcl u hcu x hx hstore

section rebuilt

variable {op : Op} (hb : b ∈ f.layout) (hv : v ∈ (f.block b).values)
  (hop : (f.value v).op.isBinary = true) (hop' : op.isBinary = true) (ha : f.Serves a v b)
  (hl : lanes.length = (f.value v).type.numLanes)
include hb hv hop hop' ha hl

theorem Plain.rebuilt (h : f.Plain) (hfloat : op.isFloatBinary = (f.value v).op.isFloatBinary) :
    (f.rebuilt b v op a lanes).Plain ∧ Keeps f (f.rebuilt b v op a lanes) := by
  obtain ⟨hphi, hparam, -⟩ := isBinary_ne hop
  obtain ⟨hval, hmem, -⟩ := withConst_old lanes h.ssa hb hv
  have hput : Keeps f (f.withConst b v lanes) := .inserted (h.ssa.flow.lt b hb)
  obtain ⟨hplain, hkeeps⟩ := (withConst_plain h hb hv hphi hparam hl).setBinary
    (k := fun y => { y with op := op, args := [.value a, .value f.numValues] })
    (hput.graph.layout ▸ hb) hmem (by rwa [hval]) hop' rfl (by rwa [hval])
    (withConst_serves lanes h.ssa hb hv ha) (withConst_serves_new lanes h.ssa hb hv)
  exact ⟨hplain, hput.trans hkeeps⟩

theorem Tidy.rebuilt {strict : Prop} (h : f.Tidy strict) (hf : f.Plain)
    (hint : (f.value v).type.isInt = true) : (f.rebuilt b v op a lanes).Tidy strict := by
  obtain ⟨hphi, hparam, -⟩ := isBinary_ne hop
  obtain ⟨hval, hmem, -⟩ := withConst_old lanes hf.ssa hb hv
  have hput : Keeps f (f.withConst b v lanes) := .inserted (hf.ssa.flow.lt b hb)
  have htidy := withConst_tidy hf.ssa h hb hv hl fun w _ =>
    Kind.cut_canon (Kind.size_ne_zero_of_isInt hint)
  exact htidy.setBinary (k := fun y => { y with op := op, args := [.value a, .value f.numValues] })
    (hput.graph.layout ▸ hb) hmem hop' rfl
    (withConst_ssa hf.ssa hb hv hphi hparam hl) (withConst_serves lanes hf.ssa hb hv ha)
    (withConst_serves_new lanes hf.ssa hb hv)

end rebuilt

/-! ## Constants -/

/-- The lanes of a constant. -/
def lanesOf (f : Func) (c : ValueId) : List UInt64 := (f.value c).constLanes.getD []

/-- A constant that can stand for `v`. -/
structure ConstLike (f : Func) (c v : ValueId) (b : BlockId) : Prop extends f.Serves c v b where
  const : (f.value c).isConst = true

theorem ConstLike.length (h : f.ConstLike c v b) (hs : f.Ssa) :
    (f.lanesOf c).length = (f.value v).type.numLanes := by
  obtain ⟨d, hd, hc⟩ := h.listed hs
  rw [← h.type]
  exact hs.length_const hd hc (by simpa [Value.isConst] using h.const)

theorem ConstLike.constLane (h : f.ConstLike c v b) {i : Nat} (hi : i < (f.value v).type.numLanes) :
    (f.value c).constLane i = .at? (f.lanesOf c) i := by
  rw [← h.type] at hi
  unfold Value.constLane lanesOf Value.constLanes
  simp only [h.const, Bool.not_true, Bool.false_eq_true, if_false]
  cases ht : (f.value c).type with
  | scalar k =>
    obtain rfl : i = 0 := by simpa [ht, Ty.numLanes] using hi
    rfl
  | vec k n => rfl

theorem ConstLike.lanesLike (h : f.ConstLike c v b) (hs : f.Ssa) :
    Func.lanesLike (f.value v).type (f.value c) = .ok (f.lanesOf c) := by
  refine Outcome.mapM_eq_ok.mpr (forall₂_range (h.length hs) fun i w hw => ?_)
  rw [h.constLane (by rw [← h.length hs]; exact (List.getElem?_eq_some_iff.mp hw).1)]
  exact Outcome.at?_eq_ok.mpr hw

theorem isAssociative_op {op : Op} (h : isAssociative op = true) :
    op.isBinary = true ∧ op.isFloatBinary = false ∧ op.isCommutative = true := by
  cases op <;> simp_all [isAssociative, Op.isBinary, Op.isFloatBinary, Op.isCommutative]

/-! ## What is done with one value -/

/-- What reassociating a value does: its operands are turned round, a constant that is taken away is added
as its negative, or the constant of an inner operation is joined with its own. -/
inductive Reassociated (f : Func) (b : BlockId) (v : ValueId) : Func → Prop
  | commuted {g : Func} (hop : isAssociative (f.value v).op = true) (h : Commuted f v g) :
      Reassociated f b v g
  | negated {a c : ValueId} (hop : (f.value v).op = .sub)
      (hargs : (f.value v).args = [.value a, .value c]) (hc : f.ConstLike c v b) :
      Reassociated f b v (f.rebuilt b v .add a ((f.lanesOf c).map (0 - ·)))
  | joined {w c x e : ValueId} (hop : isAssociative (f.value v).op = true)
      (hargs : (f.value v).args = [.value w, .value c]) (hinner : (f.value w).op = (f.value v).op)
      (hreads : (f.value w).args = [.value x, .value e] ∨
        (f.value w).args = [.value e, .value x])
      (hx : f.Serves x v b) (hc : f.ConstLike c v b) (he : f.ConstLike e v b) :
      Reassociated f b v (f.rebuilt b v (f.value v).op x
        (wrappedLanes (f.value v).type (f.value v).op (f.lanesOf e) (f.lanesOf c)))

namespace Reassociated

variable (hr : Reassociated f b v g) (hb : b ∈ f.layout) (hv : v ∈ (f.block b).values)
include hr hb hv

theorem plain (h : f.Plain) : g.Plain ∧ Keeps f g := by
  cases hr with
  | commuted _ hc =>
    obtain ⟨hplain, hkeeps, -⟩ := hc.plain h hb hv
    exact ⟨hplain, hkeeps⟩
  | negated hop hargs hc =>
    have hbin : (f.value v).op.isBinary = true := by rw [hop]; rfl
    obtain ⟨a, c, hargs', ha, -⟩ := h.binary_args hb hv hbin
    obtain ⟨rfl, rfl⟩ := by simpa [hargs] using hargs'
    exact h.rebuilt hb hv hbin rfl ha (by rw [List.length_map, hc.length h.ssa]) (by rw [hop]; rfl)
  | joined hop hargs hinner hreads hx hc he =>
    obtain ⟨hbin, -⟩ := isAssociative_op hop
    exact h.rebuilt hb hv hbin hbin hx
      (length_wrappedLanes _ (he.length h.ssa) (hc.length h.ssa)) rfl

theorem tidy {strict : Prop} (h : f.Tidy strict) (hf : f.Plain) : g.Tidy strict := by
  cases hr with
  | commuted _ hc => exact hc.tidy h hf hb hv
  | negated hop hargs hc =>
    have hbin : (f.value v).op.isBinary = true := by rw [hop]; rfl
    have hty := hf.ssa.typed hb hv (isBinary_ne hbin).1
    rw [WellTyped, if_pos hbin, hop] at hty
    obtain ⟨a, c, hargs', ha, -⟩ := hf.binary_args hb hv hbin
    obtain ⟨rfl, rfl⟩ := by simpa [hargs] using hargs'
    exact h.rebuilt hb hv hbin rfl ha (by rw [List.length_map, hc.length hf.ssa]) hf hty.2
  | joined hop hargs hinner hreads hx hc he =>
    obtain ⟨hbin, hfloat, -⟩ := isAssociative_op hop
    have hty := hf.ssa.typed hb hv (isBinary_ne hbin).1
    rw [WellTyped, if_pos hbin, hfloat] at hty
    exact h.rebuilt hb hv hbin hbin hx
      (length_wrappedLanes _ (he.length hf.ssa) (hc.length hf.ssa)) hf hty.2

end Reassociated

/-! ## Joining constants -/

/-- Join two constants of a value; `x` is the operand that stays. -/
def joinPicked (f : Func) (v : ValueId) (c₂ : Value) : Option (Operand × Value) → Optimized
  | none => return (f, false)
  | some (x, c₁) => do
    let joined ← Operation.perLane (fun i => do
      evalBinary (f.value v).op (f.value v).type.elemKind (← c₁.constLane i) (← c₂.constLane i))
      (List.range (f.value v).type.numLanes)
    match joined with
    | none => return (f, false)
    | some lanes =>
      let f := f.modifyValue v fun v => { v with args := v.args.set 0 x }
      return (← f.setSecondConst v lanes, true)

/-- Join the constants of a value whose constant operand is to the right. -/
def joinOriented (v : ValueId) (f : Func) : Optimized := do
  let inner ← f.argument (f.value v) 0
  if inner.op ≠ (f.value v).op then return (f, false)
  let c₂ ← f.argument (f.value v) 1
  if !c₂.isConst || inner.volatile then return (f, false)
  let x ← .at? inner.args 0
  let y ← .at? inner.args 1
  let yValue ← f.find y
  if yValue.isConst then f.joinPicked v c₂ (some (x, yValue)) else do
    let xValue ← f.find x
    f.joinPicked v c₂ (if xValue.isConst then some (y, xValue) else none)

theorem joinConstants_eq (hcomm : (f.value v).op.isCommutative = true) :
    f.joinConstants v = f.commuteConst v >>= joinOriented v := by
  unfold joinConstants commuteConst joinOriented joinPicked
  simp only [hcomm, Bool.not_true, Bool.false_eq_true, if_false]
  cases f.argument (f.value v) 0 with
  | error e => rfl
  | ok left =>
    cases hl : left.isConst with
    | false => simp only [hl, Outcome.ok_bind]; rfl
    | true =>
      cases f.argument (f.value v) 1 with
      | error e => simp only [hl, Outcome.ok_bind]; rfl
      | ok right =>
        cases hr : right.isConst <;> simp only [hl, hr, Outcome.ok_bind] <;> rfl

section spec

variable (h : f.Plain) (hb : b ∈ f.layout) (hv : v ∈ (f.block b).values)
include h hb hv

theorem setSecondConst_modifyValue {op : Op} {k : Value → Value}
    (hk : ∀ y, ∃ op as, k y = { y with op := op, args := as })
    (hval : k (f.value v) = { f.value v with op := op, args := [.value a, o] })
    (hl : lanes.length = (f.value v).type.numLanes) :
    (f.modifyValue v k).setSecondConst v lanes = .ok (f.rebuilt b v op a lanes) := by
  have hlt := h.ssa.listing.lt hb hv
  have hvalue : (f.modifyValue v k).value v =
      { f.value v with op := op, args := [.value a, o] } := by
    rw [value_modifyValue hlt, if_pos rfl, hval]
  rw [setSecondConst_eq (f := f.modifyValue v k) (a := a) (o := o) (b := b)
    (by rw [hvalue]; exact (h.ssa.listing.listed v b).mpr ⟨hb, hv⟩) hv (by rw [hvalue])
    (by rw [hvalue]; exact hl) (by simpa using Nat.ne_of_lt hlt), hvalue, rebuilt_modifyValue hlt hk]

theorem negateSubtrahend_spec (hargs : (f.value v).args = [.value a, .value c])
    (hc : f.ConstLike c v b) : f.negateSubtrahend v (f.value c) =
      .ok (f.rebuilt b v .add a ((f.lanesOf c).map (0 - ·))) := by
  rw [negateSubtrahend, hc.lanesLike h.ssa]
  exact setSecondConst_modifyValue (o := .value c) h hb hv (fun y => ⟨_, _, rfl⟩) (by rw [hargs])
    (by rw [List.length_map, hc.length h.ssa])

theorem joinPicked_spec (hop : isAssociative (f.value v).op = true)
    (hargs : (f.value v).args = [.value w, .value c]) (hc : f.ConstLike c v b)
    (he : f.ConstLike e v b) :
    f.joinPicked v (f.value c) (some (.value x, f.value e)) =
      .ok (f.rebuilt b v (f.value v).op x
        (wrappedLanes (f.value v).type (f.value v).op (f.lanesOf e) (f.lanesOf c)), true) := by
  have hlen : (wrappedLanes (f.value v).type (f.value v).op (f.lanesOf e) (f.lanesOf c)).length =
      (f.value v).type.numLanes := length_wrappedLanes _ (he.length h.ssa) (hc.length h.ssa)
  have hjoined : Operation.perLane (fun i => do
      evalBinary (f.value v).op (f.value v).type.elemKind (← (f.value e).constLane i)
        (← (f.value c).constLane i)) (List.range (f.value v).type.numLanes) =
      .ok (some (wrappedLanes (f.value v).type (f.value v).op (f.lanesOf e) (f.lanesOf c))) := by
    refine perLane_of_forall₂ (forall₂_range hlen fun i r hr => ?_)
    have hi : i < (f.value v).type.numLanes := hlen ▸ (List.getElem?_eq_some_iff.mp hr).1
    obtain ⟨p, q, hp, hq, rfl⟩ := List.getElem?_zipWith_eq_some.mp hr
    rw [he.constLane hi, hc.constLane hi, Outcome.at?_eq_ok.mpr hp, Outcome.at?_eq_ok.mpr hq]
    exact evalBinary_wrapped (.inl hop)
  have hset := setSecondConst_modifyValue (o := .value c) (a := x) h hb hv
    (k := fun y => { y with args := y.args.set 0 (.value x) }) (fun y => ⟨_, _, rfl⟩)
    (by rw [hargs]; rfl) hlen
  unfold joinPicked
  simp only [hjoined, Outcome.ok_bind]
  exact congrArg (· >>= fun g => pure (g, true)) hset

theorem joinOriented_spec (hop : isAssociative (f.value v).op = true) :
    ∃ g ch, joinOriented v f = .ok (g, ch) ∧ (g = f ∨ Reassociated f b v g) := by
  obtain ⟨hbin, -⟩ := isAssociative_op hop
  obtain ⟨w, c, hargs, hw, hc⟩ := h.binary_args hb hv hbin
  have h0 : f.argument (f.value v) 0 = .ok (f.value w) := argument_eq (by simp [hargs])
  have h1 : f.argument (f.value v) 1 = .ok (f.value c) := argument_eq (by simp [hargs])
  have hstop : ∃ g ch, (pure (f, false) : Optimized) = .ok (g, ch) ∧ (g = f ∨ Reassociated f b v g) :=
    ⟨f, false, rfl, .inl rfl⟩
  unfold joinOriented
  simp only [h0, h1, Outcome.ok_bind]
  split
  · exact hstop
  next hsame =>
  have hinner : (f.value w).op = (f.value v).op := not_not.mp hsame
  split
  · exact hstop
  next hconst =>
  simp only [Bool.or_eq_true, Bool.not_eq_true', not_or, Bool.not_eq_false] at hconst
  have hclike : f.ConstLike c v b := ⟨hc, hconst.1⟩
  obtain ⟨d, hd, hwd⟩ := hw.listed h.ssa
  have hwbin : (f.value w).op.isBinary = true := hinner ▸ hbin
  obtain ⟨p, q, hpq, hp, hq⟩ := h.binary_args hd hwd hwbin
  have hserve : ∀ {y}, f.Serves y w d → f.Serves y v b := fun hy =>
    ⟨.trans h.ssa.listing hb hd hwd (isBinary_ne hwbin).2.2 hy.before hw.before,
      hy.type.trans hw.type, hy.noStore⟩
  simp only [hpq, Outcome.at?, List.getElem?_cons_zero, List.getElem?_cons_succ, Outcome.ok_bind,
    find]
  split
  · next hk => exact ⟨_, _, joinPicked_spec h hb hv hop hargs hclike ⟨hserve hq, hk⟩,
      .inr (.joined hop hargs hinner (.inl hpq) (hserve hp) hclike ⟨hserve hq, hk⟩)⟩
  · split
    · next hk => exact ⟨_, _, joinPicked_spec h hb hv hop hargs hclike ⟨hserve hp, hk⟩,
        .inr (.joined hop hargs hinner (.inr hpq) (hserve hq) hclike ⟨hserve hp, hk⟩)⟩
    · exact hstop

end spec

/-! ## The whole function -/

/-- What is kept when one value is reassociated. -/
def KeptByReassociation (P : Func → Prop) : Prop :=
  ∀ k g b v, k.Plain → P k → k.Reached b → v ∈ (k.block b).values → Reassociated k b v g → P g

section keeps

variable {P : Func → Prop} (hP : KeptByReassociation P)
include hP

theorem reassociateValue_spec (h : f.Plain) (hPf : P f) (hb : b ∈ f.layout) (hr : f.Reached b)
    (hv : v ∈ (f.block b).values) :
    ∃ g ch, f.reassociateValue v = .ok (g, ch) ∧ (g.Plain ∧ P g) ∧ Keeps f g := by
  have hstep : ∀ {k g : Func}, k.Plain ∧ P k → Keeps f k → v ∈ (k.block b).values →
      Reassociated k b v g → (g.Plain ∧ P g) ∧ Keeps f g := fun {k g} hk hfk hvk hre => by
    obtain ⟨hplain, hkeeps⟩ := hre.plain (hfk.graph.layout ▸ hb) hvk hk.1
    exact ⟨⟨hplain, hP k g b v hk.1 hk.2 (hfk.graph.reached.mpr hr) hvk hre⟩, hfk.trans hkeeps⟩
  have hstop : ∃ g ch, (pure (f, false) : Optimized) = .ok (g, ch) ∧ (g.Plain ∧ P g) ∧ Keeps f g :=
    ⟨f, false, rfl, ⟨h, hPf⟩, .refl f⟩
  unfold reassociateValue
  dsimp only
  split
  · exact hstop
  split
  · next hsub =>
    have hbin : (f.value v).op.isBinary = true := by simp [hsub, Op.isBinary]
    obtain ⟨a, c, hargs, ha, hc⟩ := h.binary_args hb hv hbin
    have h1 : f.argument (f.value v) 1 = .ok (f.value c) := argument_eq (by simp [hargs])
    simp only [h1, Outcome.ok_bind]
    split
    · next hconst =>
      have hclike : f.ConstLike c v b := ⟨hc, hconst⟩
      refine ⟨_, true, by rw [negateSubtrahend_spec h hb hv hargs hclike]; rfl,
        hstep ⟨h, hPf⟩ (.refl f) hv (.negated hsub hargs hclike)⟩
    · simp only [hsub, isAssociative]
      exact hstop
  · split
    · next hop =>
      obtain ⟨k, hk, hcomm⟩ := commuteConst_spec h hb hv
      obtain ⟨hplain, hkeep, hvk⟩ := hcomm.plain h hb hv
      obtain ⟨hPk, hfk⟩ := hstep ⟨h, hPf⟩ (.refl f) hv (.commuted hop hcomm)
      obtain ⟨g, ch, hg, hor⟩ := joinOriented_spec hplain (hkeep.graph.layout ▸ hb) hvk
        (hcomm.op (h.ssa.listing.lt hb hv) ▸ hop)
      refine ⟨g, ch, ?_, ?_⟩
      · rw [joinConstants_eq (isAssociative_op hop).2.2, hk]
        exact hg
      · rcases hor with rfl | hre
        · exact ⟨hPk, hfk⟩
        · exact hstep hPk hfk hvk hre
    · exact hstop

/-- Reassociating keeps what is kept when one value is reassociated. -/
theorem reassociate_keeps (h : f.Plain) (hPf : P f) :
    ∃ g ch, f.reassociate = .ok (g, ch) ∧ g.Plain ∧ P g := by
  refine sweep_keeps (P := fun k => k.Plain ∧ P k)
    (fun y => y.block.isNone || !y.type.isInt || y.volatile) reassociateValue (fun y hy => ?_)
    (fun k hk => hk.1.ssa)
    (fun k b v hk hb hr hv _ => reassociateValue_spec hP hk.1 hk.2 hb hr hv) ⟨h, hPf⟩
  cases hn : y.block.isNone <;> simp_all

end keeps

theorem reassociate_good {strict : Prop} (h : f.Good strict) :
    ∃ g ch, f.reassociate = .ok (g, ch) ∧ g.Good strict := by
  obtain ⟨g, ch, hg, hplain, htidy⟩ := reassociate_keeps (P := fun k => k.Tidy strict)
    (fun k g b v hk htidy hr hv hre => hre.tidy (hk.ssa.flow.reached_mem hr) hv htidy hk)
    h.plain h.tidy
  exact ⟨g, ch, hg, hplain.ssa, htidy⟩

end Func
end SsaJit
