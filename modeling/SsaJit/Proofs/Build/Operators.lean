import SsaJit.Proofs.Build.Divisor

/-! What the builder makes of operations on integers: a few instructions each, which compute what the
operation means. Division computes its divisor first, so that it never stops the program. -/

namespace SsaJit.Build

open Func BuildM

variable {s : Session} {f g : Func} {b : BlockId} {v w a c d : ValueId} {t : SType} {k : Kind}

/-- The type is that of single integers or truth values of kind `k`. -/
structure SType.Word (t : SType) (k : Kind) : Prop where
  ty : t.ty = .scalar k
  isInt : k.isInt = true
  isFloat : t.isFloat = false
  numClass : t.numClass = .signed ∧ t.isSigned = true ∧ k ≠ .i1 ∨
    (t.numClass = .unsigned ∨ t.numClass = .bool) ∧ t.isSigned = false

theorem SType.word (h : t.isWord = true) : t.Word t.ty.elemKind := by
  cases t <;> first
    | exact ⟨rfl, rfl, rfl, by decide⟩
    | simp [isWord, isBitwise, isInteger, numClass, isVector, ty, Ty.isVector] at h

namespace SType.Word

theorem elemKind (h : t.Word k) : t.ty.elemKind = k := by rw [h.ty]; rfl

theorem size_ne_zero (h : t.Word k) : k.size ≠ 0 := Kind.size_ne_zero_of_isInt h.isInt

end SType.Word

/-- The instruction of an operation that is no division computes it. -/
theorem BinOp.pick_eval {op : BinOp} (h : t.Word k) (hdiv : op ≠ .div) (hrem : op ≠ .rem) :
    ∃ o, op.choice.pick t.numClass = .ok o ∧ o.isBinary = true ∧ o.isFloatBinary = false ∧
      ∀ p q, evalBinary o k p q = .ok (some (op.eval t p q)) := by
  have hkind := h.elemKind
  obtain ⟨hclass, hsigned, -⟩ | ⟨hclass | hclass, hsigned⟩ := h.numClass <;>
  cases op <;> first
    | contradiction
    | exact ⟨_, by rw [hclass]; rfl, rfl, rfl, fun p q => by
        simp [evalBinary, BinOp.eval, hkind, hsigned, BinOp.choice, Choice.add, Choice.sub, Choice.mul,
          Choice.and, Choice.or, Choice.xor, Choice.shl, Choice.shr]⟩

theorem computes_arith {o : BinOp} (hs : s.closed = false) (hf : Site f b) (ht : t.Word k)
    (hdiv : o ≠ .div) (hrem : o ≠ .rem) (ha : Offered f b a k) (hc : Offered f b c k) :
    ∃ g v, Computes s f b (arith o.choice (own s t a) (own s t c)) (own s t) k g v
      fun st r => ∃ p q, st.env a = .lanes [p] ∧ st.env c = .lanes [q] ∧ r = o.eval t p q := by
  obtain ⟨i, hpick, hbin, hfloat, heval⟩ := o.pick_eval ht hdiv hrem
  obtain ⟨g, v, h⟩ := computes_binary hs hf hbin hfloat ht.isInt ha hc
  refine ⟨g, v, .after gives_sessionOf_two ?_⟩
  rw [show (own s t a).type.numClass = t.numClass from rfl, hpick]
  refine .after gives_lift ((h.into ht.ty).weaken fun st r hst => ?_)
  obtain ⟨p, q, hp, hq, hr⟩ := hst
  exact ⟨p, q, hp, hq, by rw [hr, heval]⟩

/-! ## Division -/

/-- A signed division that does not stop the program. -/
theorem evalBinary_signed {o : Op} {φ : Int64 → Int64 → Int64} {p d : UInt64}
    (ho : o = .sdiv ∧ φ = (· / ·) ∨ o = .srem ∧ φ = (· % ·)) (hd : d ≠ 0)
    (hsigned : k.signExtend d ≠ 0) (hover : ¬ (p = k.minSigned ∧ k.canon d = k.canon (-1))) :
    evalBinary o k p d = .ok (some (k.canon (φ (k.signExtend p) (k.signExtend d)).toUInt64)) := by
  have hno : ¬ (d = 0 ∨ k = .i64 ∧ p = Kind.minSigned .i64 ∧ k.canon d = k.canon (-1)) := by
    rintro (h | ⟨rfl, hp, hones⟩)
    · exact hd h
    · exact hover ⟨hp, hones⟩
  obtain ⟨rfl, rfl⟩ | ⟨rfl, rfl⟩ := ho <;> simp only [evalBinary, if_neg hno, if_neg hsigned]

/-- The instruction of a division computes it on a divisor that is safe. -/
theorem BinOp.guarded_eval {op : BinOp} (h : t.Word k) (hop : op = .div ∨ op = .rem) :
    ∃ o, op.choice.pick t.numClass = .ok o ∧ o.isBinary = true ∧ o.isFloatBinary = false ∧
      ∀ p q, k.cut q = q →
        evalBinary o k p (safeWord t.isSigned k p q) = .ok (some (op.eval t p q)) := by
  have hkind := h.elemKind
  have hint := h.isInt
  obtain ⟨hclass, hsigned, hk⟩ | ⟨hclass, hsigned⟩ := h.numClass
  · have hone : k.signExtend 1 = 1 ∧ k.canon 1 ≠ k.canon (-1) ∧ k.canon (-1) ≠ 0 := by
      cases k <;> simp_all [Kind.isInt] <;> decide
    -- the least number by minus one is itself, as by one
    have hmin : ∀ φ : Int64 → Int64 → Int64, φ = (· / ·) ∨ φ = (· % ·) →
        k.canon (φ (k.signExtend k.minSigned) (k.signExtend (k.canon (-1)))).toUInt64 =
          k.canon (φ (k.signExtend k.minSigned) 1).toUInt64 := by
      rintro φ (rfl | rfl) <;> cases k <;> simp_all [Kind.isInt] <;> decide
    obtain ⟨o, φ, hpick, hdiv, heval⟩ : ∃ o φ, op.choice.pick t.numClass = .ok o ∧
        (o = Op.sdiv ∧ φ = ((· / ·) : Int64 → Int64 → Int64) ∨ o = .srem ∧ φ = (· % ·)) ∧
        ∀ p q, op.eval t p q = k.canon (if q = 0 then (φ (k.signExtend p) 1).toUInt64
          else (φ (k.signExtend p) (k.signExtend q)).toUInt64) := by
      rw [hclass]
      rcases hop with rfl | rfl
      · refine ⟨.sdiv, _, rfl, .inl ⟨rfl, rfl⟩, fun p q => ?_⟩
        by_cases hq : q = 0 <;>
          simp [BinOp.eval, hkind, hsigned, hq, Kind.canon_signExtend hint, Int64.div_one]
      · refine ⟨.srem, _, rfl, .inr ⟨rfl, rfl⟩, fun p q => ?_⟩
        have hnone : Int64.toUInt64 0 = 0 := rfl
        by_cases hq : q = 0 <;> simp [BinOp.eval, hkind, hsigned, hq, Int64.mod_one, hnone]
    have hφ : φ = (· / ·) ∨ φ = (· % ·) := hdiv.imp And.right And.right
    refine ⟨o, hpick, by rcases hdiv with ⟨rfl, -⟩ | ⟨rfl, -⟩ <;> rfl,
      by rcases hdiv with ⟨rfl, -⟩ | ⟨rfl, -⟩ <;> rfl, fun p q hq => ?_⟩
    rw [heval, safeWord, hsigned]
    have hby : evalBinary o k p 1 = .ok (some (k.canon (φ (k.signExtend p) 1).toUInt64)) := by
      rw [evalBinary_signed hdiv (by decide) (by rw [hone.1]; decide) (fun h => hone.2.1 h.2),
        hone.1]
    by_cases hzero : q = 0
    · rw [if_pos (.inl hzero), if_pos hzero, hby]
    by_cases hover : p = k.minSigned ∧ q = k.canon (-1)
    · rw [if_pos (.inr ⟨rfl, hover⟩), if_neg hzero, hby, hover.1, hover.2, hmin φ hφ]
    · rw [if_neg (by simp [hzero, hover]), if_neg hzero]
      refine evalBinary_signed hdiv hzero (fun h => hzero (Kind.eq_zero_of_signExtend hint hq h)) ?_
      rwa [Kind.canon_of_cut hq]
  · have hpick : op.choice.pick t.numClass = .ok op.choice.unsigned := by
      rcases hclass with hclass | hclass <;> rw [hclass] <;> rfl
    refine ⟨_, hpick, by rcases hop with rfl | rfl <;> rfl, by rcases hop with rfl | rfl <;> rfl,
      fun p q _ => ?_⟩
    by_cases hzero : q = 0 <;> rcases hop with rfl | rfl <;>
      simp [safeWord, hsigned, hzero, BinOp.eval, hkind, evalBinary, BinOp.choice, Choice.div,
        Choice.rem]

theorem computes_guarded {o : BinOp} (hs : s.closed = false) (hf : Site f b) (ht : t.Word k)
    (ho : o = .div ∨ o = .rem) (ha : Offered f b a k) (hc : Offered f b c k) :
    ∃ g v, Computes s f b (guardedDivision o.choice (own s t a) (own s t c)) (own s t) k g v
      fun st r => ∃ p q, st.env a = .lanes [p] ∧ st.env c = .lanes [q] ∧ k.cut q = q ∧
        r = o.eval t p q := by
  obtain ⟨i, hpick, hbin, hfloat, heval⟩ := o.guarded_eval ht ho
  obtain ⟨f₁, v₁, h₁⟩ := computes_safeDivisor (x := t.isSigned) hs hf ht.isInt ha hc
  obtain ⟨f₂, v₂, h₂⟩ := computes_binary hs h₁.grown.site hbin hfloat ht.isInt
    (ha.grow hf.draft h₁.grown) h₁.offered
  have hboth : Computes s f b (do
      let d ← safeDivisor t.ty (.value a) (.value c) (t.numClass == .signed)
      let op ← lift (o.choice.pick t.numClass)
      binary op (.value a) d) .value k f₂ v₂ fun st r => ∃ p q, st.env a = .lanes [p] ∧
        st.env c = .lanes [q] ∧ k.cut q = q ∧ r = o.eval t p q := by
    rw [hpick, ht.ty]
    refine (h₁.andThen (h₂.after gives_lift)).weaken fun st r hst => ?_
    obtain ⟨p, q, hp, hq, hcut, hr⟩ := hst
    exact ⟨_, ⟨p, q, hp, hq, rfl⟩, fun st₁ k₁ r₁ =>
      ⟨p, _, (k₁.env a (ha.lt hf.draft)).trans hp, r₁, by rw [heval p q hcut, hr]⟩⟩
  exact ⟨f₂, v₂, (hboth.into ht.ty).after gives_sessionOf_two⟩

/-- The operations on two numbers. -/
theorem computes_operate (o : BinOp) (hs : s.closed = false) (hf : Site f b) (ht : t.Word k)
    (ha : Offered f b a k) (hc : Offered f b c k) :
    ∃ g v, Computes s f b (operate o (own s t a) (own s t c)) (own s t) k g v
      fun st r => ∃ p q, st.env a = .lanes [p] ∧ st.env c = .lanes [q] ∧ k.cut q = q ∧
        r = o.eval t p q := by
  by_cases ho : o = .div ∨ o = .rem
  · have hdivide : operate o (own s t a) (own s t c) =
        guardedDivision o.choice (own s t a) (own s t c) := by
      rcases ho with rfl | rfl
      · rw [operate, divide, show (own s t a).type = t from rfl, ht.isFloat]
        rfl
      · rfl
    rw [hdivide]
    exact computes_guarded hs hf ht ho ha hc
  · have harith : operate o (own s t a) (own s t c) = arith o.choice (own s t a) (own s t c) := by
      cases o <;> first | rfl | simp at ho
    obtain ⟨g, v, h⟩ := computes_arith hs hf ht (fun h => ho (.inl h)) (fun h => ho (.inr h)) ha hc
    rw [harith]
    exact ⟨g, v, h.weaken fun st r ⟨p, q, hp, hq, _, hr⟩ => ⟨p, q, hp, hq, hr⟩⟩

/-! ## The other operators -/

theorem computes_neg (hs : s.closed = false) (hf : Site f b) (ht : t.Word k)
    (ha : Offered f b a k) :
    ∃ g v, Computes s f b (BuildM.neg (own s t a)) (own s t) k g v
      fun st r => ∃ p, st.env a = .lanes [p] ∧ r = k.canon (0 - p) := by
  obtain ⟨f₁, v₁, h₁⟩ := computes_constInt (k := k) hs hf 0
  obtain ⟨f₂, v₂, h₂⟩ := computes_binary (o := .sub) hs h₁.grown.site rfl rfl ht.isInt
    h₁.offered (ha.grow hf.draft h₁.grown)
  have hnegate : Computes s f b (negate (.value a)) .value k f₂ v₂
      fun st r => ∃ p, st.env a = .lanes [p] ∧ r = k.canon (0 - p) := by
    refine .after gives_typeOf ?_
    rw [ha.type]
    refine (h₁.andThen h₂).weaken fun st r ⟨p, hp, hr⟩ => ⟨_, rfl, fun st₁ k₁ r₁ => ?_⟩
    exact ⟨_, p, r₁, (k₁.env a (ha.lt hf.draft)).trans hp, by rw [hr, Kind.canon_zero]; rfl⟩
  refine ⟨f₂, v₂, .after gives_sessionOf_one ?_⟩
  rw [show (own s t a).type = t from rfl, ht.isFloat]
  exact hnegate.into ht.ty

theorem computes_bitNot (hs : s.closed = false) (hf : Site f b) (ht : t.Word k)
    (ha : Offered f b a k) :
    ∃ g v, Computes s f b (bitNot (own s t a)) (own s t) k g v
      fun st r => ∃ p, st.env a = .lanes [p] ∧ r = k.canon (~~~ p) := by
  obtain ⟨f₁, v₁, h₁⟩ := computes_constInt (k := k) hs hf 0xFFFFFFFFFFFFFFFF
  obtain ⟨f₂, v₂, h₂⟩ := computes_binary (o := .xor) hs h₁.grown.site rfl rfl ht.isInt
    (ha.grow hf.draft h₁.grown) h₁.offered
  have hflip : ∀ p, k.canon (p ^^^ k.canon 0xFFFFFFFFFFFFFFFF) = k.canon (~~~ p) := fun p => by
    have hmask : ∀ m : UInt64, (p ^^^ m) &&& m = ~~~ p &&& m := fun m => by
      apply UInt64.toBitVec_inj.mp
      ext i hi
      simp
      cases m.toBitVec[i] <;> simp
    cases k with
    | i1 => exact hmask 1
    | i8 => exact hmask 0xFF
    | i16 => exact hmask 0xFFFF
    | i32 | f32 => exact hmask 0xFFFFFFFF
    | i64 | ptr | void | vector | other => exact UInt64.xor_neg_one
  have hcomplement : Computes s f b (complement (.value a)) .value k f₂ v₂
      fun st r => ∃ p, st.env a = .lanes [p] ∧ r = k.canon (~~~ p) := by
    refine .after gives_typeOf ?_
    rw [ha.type]
    refine (h₁.andThen h₂).weaken fun st r ⟨p, hp, hr⟩ => ⟨_, rfl, fun st₁ k₁ r₁ => ?_⟩
    exact ⟨p, _, (k₁.env a (ha.lt hf.draft)).trans hp, r₁, by rw [hr, ← hflip]; rfl⟩
  exact ⟨f₂, v₂, .after gives_sessionOf_one (hcomplement.into ht.ty)⟩

/-- The predicate of a relation between integers holds where the relation does. -/
theorem Relation.predicate_holds (ht : t.Word k) (r : Relation) :
    Comparing (r.predicate t.numClass) ∧
      ∀ p q, evalCompare (r.predicate t.numClass) k p q = r.holds t p q := by
  have hcomparing : Comparing (r.predicate t.numClass) := by
    obtain ⟨hclass, -⟩ | ⟨hclass | hclass, -⟩ := ht.numClass <;> rw [hclass] <;>
      cases r <;> exact ⟨rfl, rfl⟩
  refine ⟨hcomparing, fun p q => ?_⟩
  rw [evalCompare, hcomparing.isFloat, if_neg (by decide)]
  obtain ⟨hclass, hsigned, -⟩ | ⟨hclass | hclass, hsigned⟩ := ht.numClass <;> rw [hclass] <;>
    cases r <;> simp [Relation.predicate, compareInt, Relation.holds, hsigned, ht.elemKind,
      ← decide_not, Int64.not_lt, UInt64.not_lt]

theorem computes_compare {r : Relation} (hs : s.closed = false) (hf : Site f b) (ht : t.Word k)
    (ha : Offered f b a k) (hc : Offered f b c k) :
    ∃ g v, Computes s f b (BuildM.compare r (own s t a) (own s t c)) (own s .bool) .i1 g v
      fun st w => ∃ p q, st.env a = .lanes [p] ∧ st.env c = .lanes [q] ∧
        w = if r.holds t p q then 1 else 0 := by
  obtain ⟨hcomparing, hholds⟩ := r.predicate_holds ht
  obtain ⟨g, v, h⟩ := computes_icmp hs hf hcomparing ht.isInt ha hc
  refine ⟨g, v, .after gives_sessionOf_two ?_⟩
  rw [show (own s t a).type = t from rfl, ht.isFloat]
  exact ((h.into (t := .bool) rfl)).weaken fun st w ⟨p, q, hp, hq, hw⟩ =>
    ⟨p, q, hp, hq, by rw [hw, hholds]⟩

theorem computes_choose (hs : s.closed = false) (hf : Site f b) (ht : t.Word k)
    (ha : Offered f b a .i1) (hc : Offered f b c k) (hd : Offered f b d k) :
    ∃ g v, Computes s f b (choose (own s .bool a) (own s t c) (own s t d)) (own s t) k g v
      fun st r => ∃ p q q', st.env a = .lanes [p] ∧ st.env c = .lanes [q] ∧
        st.env d = .lanes [q'] ∧ r = if p = 0 then q' else q := by
  obtain ⟨g, v, h⟩ := computes_select hs hf ha hc hd
  exact ⟨g, v, .after gives_sessionOf_three (h.into ht.ty)⟩

/-! ## Conversion -/

/-- The handle under another type. -/
theorem computes_rewrap {u : SType} (hf : Site f b) (hty : t.ty = u.ty)
    (ha : Offered f b a k) :
    Computes s f b (rewrap u (own s t a)) (own s u) k f a fun st r => st.env a = .lanes [r] :=
  computes_there hf (gives_unless (not_not.mpr hty) (gives_pure _)) ha

theorem SType.Word.eq_bool (ht : t.Word .i1) : t = .bool := by
  have hty := ht.ty
  cases t <;> first | rfl | simp [SType.ty] at hty

theorem SType.Word.bool_iff (ht : t.Word k) : t.numClass = .bool ↔ t = .bool := by
  have hint := ht.isInt
  have hty := ht.ty
  cases t <;> first | decide | (obtain rfl := Ty.scalar.inj hty; simp [Kind.isInt] at hint)

/-- The only kinds of one size are those of truth values and of bytes. -/
theorem SType.Word.size_ne {u : SType} {j : Kind} (ht : t.Word k) (hu : u.Word j)
    (hconv : t.converts u = true) (hty : t.ty ≠ u.ty) (hbool : u ≠ .bool) : k.size ≠ j.size := by
  intro h
  have hkj : k ≠ j := fun h => hty (by rw [ht.ty, hu.ty, h])
  have hk := ht.isInt
  have hj := hu.isInt
  have hone : k = .i1 ∨ j = .i1 := by cases k <;> cases j <;> simp_all [Kind.isInt, Kind.size]
  rcases hone with rfl | rfl
  · have hbyte : u.ty.size = 1 := by rw [hu.ty]; exact (Nat.one_mul _).trans h.symm
    simp [SType.converts, ht.eq_bool, hbool, hbyte] at hconv
  · exact hbool hu.eq_bool

/-- The instruction that converts between integers of different sizes. -/
def castFor (t : SType) (k j : Kind) : Op :=
  if j.size < k.size then .trunc else if t.isSigned then .sext else .zext

/-- What is built to convert an integer. -/
theorem convert_word {u : SType} {j : Kind} (ht : t.Word k) (hu : u.Word j)
    (hconv : t.converts u = true) :
    BuildM.convert u (own s t a) = (do
      let c ← sessionOf [own s t a]
      if t.ty = u.ty then rewrap u (own s t a)
      else if u = .bool then into c u do
        let zero ← constNull t.ty
        icmp .ne (.value a) zero
      else into c u (cast (castFor t k j) (.value a) u.ty)) := by
  have hfloat : ∀ {t : SType} {k : Kind}, t.Word k → t.numClass ≠ .float ∧ t.numClass ≠ .pointer :=
    fun h => by obtain ⟨h, -⟩ | ⟨h | h, -⟩ := h.numClass <;> rw [h] <;> decide
  obtain ⟨htf, htp⟩ := hfloat ht
  obtain ⟨huf, hup⟩ := hfloat hu
  have hlanes : ¬ t.ty.numLanes ≠ u.ty.numLanes := by rw [ht.ty, hu.ty]; simp [Ty.numLanes]
  have hown : (own s t a).type = t := rfl
  have hoperand : (own s t a).operand = .value a := rfl
  unfold BuildM.convert
  refine bind_congr fun c => ?_
  rw [hown, hoperand]
  simp only [if_neg hlanes, htf, htp, huf, hup, hu.bool_iff, ne_eq, not_false_eq_true, and_true,
    and_false, if_false, or_self, false_and]
  by_cases hty : t.ty = u.ty
  · simp only [if_pos hty]
  by_cases hbool : u = .bool
  · simp only [if_pos hbool]
  rw [if_neg hty, if_neg hbool, if_neg hty, if_neg hbool, ht.elemKind, hu.elemKind]
  have hsize := SType.Word.size_ne ht hu hconv hty hbool
  have hsigned : t.numClass = .signed ↔ t.isSigned = true := by simp [SType.isSigned]
  simp only [castFor, if_neg hsize, hsigned]
  split
  · rfl
  · split <;> rfl

theorem bits_lt_bits {j : Kind} (hk : k.isInt = true) (hj : j.isInt = true) (h : k.size < j.size) :
    k.bits < j.bits := by
  cases k <;> cases j <;>
    first | decide | exact absurd h (by decide) | (cases hk; done) | cases hj

theorem castRule_castFor {j : Kind} (hk : k.isInt = true) (hj : j.isInt = true)
    (hsize : k.size ≠ j.size) : castRule? (castFor t k j) (.scalar k) (.scalar j) = none := by
  unfold castFor
  split
  case isTrue h => simp [castRule?, Ty.numLanes, Ty.elemKind, hk, hj, bits_lt_bits hj hk h]
  case isFalse h =>
    have hlt := bits_lt_bits hk hj (Nat.lt_of_le_of_ne (Nat.le_of_not_lt h) hsize)
    split <;> simp [castRule?, Ty.numLanes, Ty.elemKind, hk, hj, hlt]

theorem convertWord_same {u : SType} {p : UInt64} (ht : t.Word k) (hu : u.Word k)
    (hp : k.cut p = p) : convertWord t u p = p := by
  have hcanon := Kind.canon_of_cut hp
  unfold convertWord
  split
  case isTrue h =>
    obtain rfl : Kind.i1 = k := by rw [h] at hu; exact Ty.scalar.inj hu.ty
    have hlt : p.toNat < 2 := Kind.and_mask_toNat (n := 1) (m := 1) rfl hcanon
    split
    case isTrue hzero => exact hzero.symm
    case isFalse hzero =>
      have hpos : 0 < p.toNat := Nat.pos_of_ne_zero fun h => hzero (UInt64.toNat.inj h)
      exact UInt64.toNat.inj (Nat.le_antisymm hpos (Nat.lt_succ_iff.mp hlt))
  case isFalse =>
    rw [hu.elemKind, ht.elemKind]
    split
    · rw [Kind.canon_signExtend ht.isInt, hcanon]
    · exact hcanon

theorem convertWord_cast {u : SType} {j : Kind} {p : UInt64} (ht : t.Word k) (hu : u.Word j)
    (hbool : u ≠ .bool) : evalCast (castFor t k j) k j p = some (convertWord t u p) := by
  rw [convertWord, if_neg hbool, hu.elemKind, ht.elemKind, castFor]
  split
  case isTrue hsize =>
    split
    · rw [Kind.canon_narrow ht.isInt hu.isInt (Nat.le_of_lt (bits_lt_bits hu.isInt ht.isInt hsize))]
      rfl
    · rfl
  case isFalse => split <;> rfl

theorem comparing_ne : Comparing .ne := ⟨rfl, rfl⟩

theorem computes_convert {u : SType} {j : Kind} (hs : s.closed = false) (hf : Site f b)
    (ht : t.Word k) (hu : u.Word j) (hconv : t.converts u = true) (ha : Offered f b a k) :
    ∃ g v, Computes s f b (BuildM.convert u (own s t a)) (own s u) j g v
      fun st r => ∃ p, st.env a = .lanes [p] ∧ k.cut p = p ∧ r = convertWord t u p := by
  rw [convert_word ht hu hconv]
  split
  case isTrue hty =>
    obtain rfl : k = j := by rw [ht.ty, hu.ty] at hty; exact Ty.scalar.inj hty
    refine ⟨f, a, .after gives_sessionOf_one ((computes_rewrap hf hty ha).weaken
      fun st r hst => ?_)⟩
    obtain ⟨p, hp, hcut, hr⟩ := hst
    rw [hp, hr, convertWord_same ht hu hcut]
  case isFalse hty =>
    split
    case isTrue hbool =>
      obtain rfl : Kind.i1 = j := by rw [hbool] at hu; exact Ty.scalar.inj hu.ty
      obtain ⟨f₁, v₁, h₁⟩ := computes_constInt (k := k) hs hf 0
      obtain ⟨f₂, v₂, h₂⟩ := computes_icmp hs h₁.grown.site comparing_ne ht.isInt
        (ha.grow hf.draft h₁.grown) h₁.offered
      have hboth := (h₁.andThen h₂).into hu.ty
      rw [ht.ty]
      refine ⟨f₂, v₂, .after gives_sessionOf_one (hboth.weaken fun st r hst => ?_)⟩
      obtain ⟨p, hp, _, hr⟩ := hst
      refine ⟨_, rfl, fun st₁ k₁ r₁ => ⟨p, _, (k₁.env a (ha.lt hf.draft)).trans hp, r₁, ?_⟩⟩
      rw [hr, convertWord, if_pos hbool, Kind.canon_zero,
        show evalCompare .ne k p 0 = (p != 0) from rfl]
      by_cases hzero : p = 0 <;> simp [hzero]
    case isFalse hbool =>
      have hop : castFor t k j ∈ [Op.trunc, .zext, .sext] := by
        unfold castFor
        split
        · decide
        · split <;> decide
      have hrule := castRule_castFor (t := t) ht.isInt hu.isInt (ht.size_ne hu hconv hty hbool)
      obtain ⟨g, v, h⟩ := computes_cast hs hf hop ha hrule
      rw [hu.ty]
      refine ⟨g, v, .after gives_sessionOf_one ((h.into hu.ty).weaken
        fun st r ⟨p, hp, _, hr⟩ => ⟨p, hp, ?_⟩)⟩
      rw [hr, convertWord_cast ht hu hbool]

end SsaJit.Build
