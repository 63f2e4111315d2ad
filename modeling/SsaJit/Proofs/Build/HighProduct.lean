import Mathlib.Tactic.Linarith
import SsaJit.Proofs.Build.Saturation

/-! The upper halves of products. Lanes are multiplied at twice their width; a vector that has no room for
that is done in two halves, which are put behind one another again. -/

namespace SsaJit

namespace Kind

variable {k j : Kind} {signed : Bool} {p q w : UInt64} {x y n : Int}

/-! ## Upper halves -/

/-- The lower half of the bits tells the upper half of a product up to as many bits again. -/
theorem shifted_modEq {m : Int} {w : Nat} (h : m ≡ n [ZMOD 2 ^ (2 * w)]) :
    m / 2 ^ w ≡ n / 2 ^ w [ZMOD 2 ^ w] := by
  obtain ⟨c, hc⟩ := h.dvd
  have hn : n = m + 2 ^ w * (2 ^ w * c) := by
    rw [← mul_assoc, ← pow_add, ← two_mul, ← hc]
    omega
  have hpos : (0 : Int) < 2 ^ w := Int.pow_pos (by decide)
  rw [hn, Int.add_mul_ediv_left _ _ hpos.ne']
  exact Int.modEq_iff_dvd.mpr ⟨c, by omega⟩

/-- The upper half of a product of numbers of a kind is a number of the kind. -/
theorem high_range (hk : k.isInt = true) (hx : k.least signed ≤ x ∧ x ≤ k.greatest signed)
    (hy : k.least signed ≤ y ∧ y ≤ k.greatest signed) :
    k.least signed ≤ x * y / 2 ^ k.bits ∧ x * y / 2 ^ k.bits ≤ k.greatest signed := by
  have hpos : (0 : Int) < 2 ^ k.bits := Int.pow_pos (by decide)
  have hbounds : k.least signed * 2 ^ k.bits ≤ x * y ∧ x * y < (k.greatest signed + 1) * 2 ^ k.bits := by
    cases signed with
    | false =>
      simp only [least, greatest, Bool.false_eq_true, if_false] at hx hy ⊢
      constructor <;> nlinarith
    | true =>
      have hwidth : (2 : Int) ^ k.bits = 2 * 2 ^ (k.bits - 1) := by
        cases k <;> first | rfl | cases hk
      have hhalf : (0 : Int) < 2 ^ (k.bits - 1) := Int.pow_pos (by decide)
      simp only [least, greatest, if_true] at hx hy ⊢
      rw [hwidth]
      constructor <;> nlinarith
  exact ⟨(Int.le_ediv_iff_mul_le hpos).mpr hbounds.1,
    Int.lt_add_one_iff.mp ((Int.ediv_lt_iff_lt_mul hpos).mpr hbounds.2)⟩

/-- A word that agrees with a product in twice the bits, shifted down by the bits of the kind. -/
theorem number_high (hk : k.isInt = true) (hbits : k.bits < 64)
    (hx : k.least signed ≤ x ∧ x ≤ k.greatest signed) (hy : k.least signed ≤ y ∧ y ≤ k.greatest signed)
    (hw : w.toNat ≡ x * y [ZMOD 2 ^ (2 * k.bits)]) :
    k.number signed (k.canon (w >>> UInt64.ofNat k.bits)) = x * y / 2 ^ k.bits := by
  refine number_canon hk (high_range hk hx hy) ?_
  have hshift : (w >>> UInt64.ofNat k.bits).toNat = w.toNat / 2 ^ k.bits := by
    rw [UInt64.toNat_shiftRight, UInt64.toNat_ofNat_of_lt' (by rw [UInt64.size]; omega),
      Nat.mod_eq_of_lt hbits, Nat.shiftRight_eq_div_pow]
  rw [hshift]
  exact_mod_cast shifted_modEq hw

/-- A word that agrees with a number in every bit, with its sign. -/
def extended (k : Kind) (signed : Bool) (p : UInt64) : UInt64 :=
  if signed then (k.signExtend p).toUInt64 else p

theorem extended_modEq (hj : j.isInt = true) :
    ((k.extended signed p).toNat : Int) ≡ k.number signed p [ZMOD 2 ^ j.bits] := by
  cases signed with
  | true => exact toNat_toUInt64_emod hj _
  | false => rfl

/-- The integers of twice the width. -/
def wide : Kind → Kind
  | .i8 => .i16
  | .i16 => .i32
  | _ => .i64

/-- Integers that have products: those of less than eight bytes, which truth values are not. -/
def Multiplied (k : Kind) : Prop := k = .i8 ∨ k = .i16 ∨ k = .i32

namespace Multiplied

variable (h : k.Multiplied)

include h

theorem isInt : k.isInt = true := by rcases h with rfl | rfl | rfl <;> rfl

theorem bits_wide : k.wide.bits = 2 * k.bits := by rcases h with rfl | rfl | rfl <;> rfl

theorem size_wide : k.wide.size = 2 * k.size := by rcases h with rfl | rfl | rfl <;> rfl

theorem bits_lt : k.bits < k.wide.bits ∧ k.bits < 64 := by rcases h with rfl | rfl | rfl <;> decide

theorem intKindOfSize : Ty.intKindOfSize (2 * k.size) = .ok k.wide := by
  rcases h with rfl | rfl | rfl <;> rfl

end Multiplied

theorem isInt_wide (k : Kind) : k.wide.isInt = true := by cases k <;> rfl

/-- The product at twice the width, shifted down and cut. -/
def highWord (k : Kind) (signed : Bool) (p q : UInt64) : UInt64 :=
  k.canon (k.wide.canon (k.wide.canon (k.wide.canon (k.extended signed p) *
    k.wide.canon (k.extended signed q)) >>> UInt64.ofNat k.bits))

theorem canon_modEq (hj : j.isInt = true) (w : UInt64) :
    ((j.canon w).toNat : Int) ≡ w.toNat [ZMOD 2 ^ j.bits] := by
  rw [toNat_canon hj, Int.natCast_mod, Int.natCast_pow]
  exact Int.mod_modEq _ _

theorem mul_modEq (hj : j.isInt = true) (hp : (p.toNat : Int) ≡ x [ZMOD 2 ^ j.bits])
    (hq : (q.toNat : Int) ≡ y [ZMOD 2 ^ j.bits]) : ((p * q).toNat : Int) ≡ x * y [ZMOD 2 ^ j.bits] := by
  have hprod : ((p * q).toNat : Int) ≡ p.toNat * q.toNat [ZMOD 2 ^ 64] := by
    rw [UInt64.toNat_mul, Int.natCast_mod, Int.natCast_mul]
    exact Int.mod_modEq _ _
  exact (hprod.of_dvd (two_pow_dvd hj)).trans (hp.mul hq)

/-- A shift by the bits of the kind, as it is given to the wider kind. -/
theorem Multiplied.shift (h : k.Multiplied) :
    k.wide.canon (UInt64.ofNat (8 * k.size)) &&& 63 = UInt64.ofNat k.bits := by
  rcases h with rfl | rfl | rfl <;> decide

theorem number_highWord (h : k.Multiplied) (hp : k.canon p = p) (hq : k.canon q = q) :
    k.number signed (k.highWord signed p q) = k.number signed p * k.number signed q / 2 ^ k.bits := by
  have hk := h.isInt
  have hj := k.isInt_wide
  have hext : ∀ r, ((k.wide.canon (k.extended signed r)).toNat : Int) ≡ k.number signed r
      [ZMOD 2 ^ k.wide.bits] := fun r => (canon_modEq hj _).trans (extended_modEq hj)
  have hprod := (canon_modEq hj _).trans (mul_modEq hj (hext p) (hext q))
  have hcut : ∀ w, k.canon (k.wide.canon w) = k.canon w := fun w => by
    rw [← UInt64.toNat_inj, toNat_canon hk, toNat_canon hk, toNat_canon hj,
      Nat.mod_mod_of_dvd _ (pow_dvd_pow 2 h.bits_lt.1.le)]
  rw [highWord, hcut]
  rw [h.bits_wide] at hprod
  exact number_high hk h.bits_lt.2 (number_range hk signed hp) (number_range hk signed hq) hprod

end Kind

/-! ## Lanes of twice the width -/

namespace Ty

variable {t : Ty}

/-- Room for lanes of twice the width in a register. A single lane always has it. -/
def Roomy (t : Ty) : Prop := t.isVector = true → 2 * t.size ≤ maxVectorBytes

theorem withLanes_valid {u : Ty} {n : Int} (ht : t.Valid) (h : t.withLanes n = .ok u) : u.Valid := by
  unfold withLanes at h
  split at h
  · obtain rfl := Except.ok.inj h
    cases t with
    | scalar k => cases k <;> simp_all [Valid, elemType, elemKind, ofKind]
    | vec k m => cases k <;> simp_all [Valid, elemType, elemKind, ofKind, laneKind]
  · exact (vector?_eq_ok h).1

theorem valid_of_intKindOfSize {n : Int} {j : Kind} (h : intKindOfSize n = .ok j) : (ofKind j).Valid := by
  unfold intKindOfSize at h
  split_ifs at h <;> cases h <;> decide

/-- The type with lanes of twice the width. -/
theorem wide_eq (ht : t.Valid) (hk : t.elemKind.Multiplied) (hroom : t.Roomy) :
    ∃ wide, (do (ofKind (← intKindOfSize (2 * t.elemKind.size))).withLanes t.numLanes) = .ok wide ∧
      wide.numLanes = t.numLanes ∧ wide.elemKind = t.elemKind.wide := by
  have hscalar : ofKind t.elemKind.wide = .scalar t.elemKind.wide := by cases t.elemKind <;> rfl
  rw [hk.intKindOfSize, Outcome.ok_bind, hscalar]
  cases t with
  | scalar k =>
    refine ⟨.scalar k.wide, ?_, rfl, rfl⟩
    rw [withLanes, if_pos (show ((scalar k).numLanes : Int) = 1 from rfl)]
    exact congrArg Except.ok hscalar
  | vec k n =>
    have hlane : laneKind k.wide = true := by cases k <;> rfl
    have hfits : n.toNat * k.wide.size ≤ maxVectorBytes := by
      rw [show k.wide.size = 2 * k.size from hk.size_wide, Nat.mul_left_comm]
      exact hroom rfl
    exact ⟨.vec k.wide n, withLanes_eq ⟨hlane, ht.2.1, hfits⟩ rfl, rfl, rfl⟩

end Ty

end SsaJit

namespace SsaJit.Build

open Func BuildM

variable {s : Session} {f g : Func} {b : BlockId} {a c d o : ValueId} {t : Ty} {k : Kind}
  {P : regionInterp.State → Prop} {Γ : List Meaning} {x y r z : regionInterp.State → Nat → UInt64}

/-! ## What is built -/

/-- The products at twice the width, cut to their upper halves. -/
theorem Ledger.wideProduct (signed : Bool) (hs : s.closed = false) (h : Ledger f b P g Γ) (ht : t.Valid)
    (hk : t.elemKind.Multiplied) (hroom : t.Roomy) (ha : ⟨a, t, x⟩ ∈ Γ) (hc : ⟨c, t, y⟩ ∈ Γ) :
    Adds s f b P g Γ (BuildM.wideProduct t (.value a) (.value c) signed) .value t fun st i =>
      t.elemKind.highWord signed (x st i) (y st i) := by
  obtain ⟨wide, hwide, hlanes, hkind⟩ := Ty.wide_eq ht hk hroom
  have hint : wide.elemKind.isInt = true := hkind ▸ Kind.isInt_wide _
  have hlt : t.elemKind.bits < wide.elemKind.bits := hkind ▸ hk.bits_lt.1
  have hextend : castRule? (if signed then .sext else .zext) t wide = none := by
    cases signed <;> simp [castRule?, hlanes, hk.isInt, hint, hlt]
  have htrunc : castRule? .trunc wide t = none := by simp [castRule?, hlanes, hk.isInt, hint, hlt]
  obtain ⟨g₁, v₁, hgives₁, h₁⟩ := h.cast
    (z := fun st i => wide.elemKind.canon (t.elemKind.extended signed (x st i))) hs
    (by cases signed <;> decide) hextend ha fun st _ i _ => by cases signed <;> rfl
  obtain ⟨g₂, v₂, hgives₂, h₂⟩ := h₁.cast
    (z := fun st i => wide.elemKind.canon (t.elemKind.extended signed (y st i))) hs
    (by cases signed <;> decide) hextend (.tail _ hc) fun st _ i _ => by cases signed <;> rfl
  obtain ⟨g₃, v₃, hgives₃, h₃⟩ := h₂.total (o := .mul) hs rfl rfl hint (fun _ _ => rfl) (.tail _ (.head _))
    (.head _)
  obtain ⟨g₄, v₄, hgives₄, h₄⟩ := h₃.constSplat hs wide (UInt64.ofNat (8 * t.elemKind.size))
  obtain ⟨g₅, v₅, hgives₅, h₅⟩ := h₄.total (o := .lshr) hs rfl rfl hint (fun _ _ => rfl) (.tail _ (.head _))
    (.head _)
  obtain ⟨g₆, v₆, hgives₆, h₆⟩ := h₅.cast hs (.head _) htrunc (.head _) fun st _ i _ => rfl
  rw [BuildM.wideProduct, hwide]
  refine ⟨g₆, v₆, gives_lift.bind (hgives₁.bind (hgives₂.bind (hgives₃.bind (hgives₄.bind
    (hgives₅.bind hgives₆))))), h₆.settle (fun e he => ?_) fun st _ i _ => ?_⟩
  · exact .tail _ (.tail _ (.tail _ (.tail _ (.tail _ he))))
  · rw [hkind, hk.shift]
    rfl

/-- Where there is room nothing is split. -/
theorem highProduct_of_roomy (signed : Bool) (n : Nat) (hroom : t.Roomy) :
    highProduct signed n t = fun p q => BuildM.wideProduct t p q signed := by
  cases n with
  | zero => rfl
  | succ n =>
    funext p q
    rw [highProduct, if_neg fun h => absurd (hroom h.1) (Nat.not_le.mpr h.2)]

/-- Half of a vector has room. -/
theorem roomy_half (ht : t.Valid) (htvec : t.isVector = true) {half : Ty}
    (h : t.withLanes (t.numLanes / 2 : Nat) = .ok half) : half.Roomy := by
  intro hvec
  obtain ⟨k, n, rfl⟩ : ∃ k n, t = .vec k n := by
    cases t with
    | scalar k => cases htvec
    | vec k n => exact ⟨k, n, rfl⟩
  obtain ⟨hlane, -, hfits⟩ := ht
  unfold Ty.withLanes at h
  split at h
  · obtain rfl := Except.ok.inj h
    cases k <;> simp_all [Ty.elemType, Ty.elemKind, Ty.ofKind, Ty.isVector, Ty.laneKind]
  obtain ⟨-, hkind, hlanes⟩ := Ty.vector?_eq_ok h
  have hlanes : half.numLanes = n.toNat / 2 := Int.ofNat_inj.mp hlanes
  rw [Ty.size, hkind, hlanes, ← Nat.mul_assoc]
  exact (Nat.mul_le_mul_right _ (Nat.mul_div_le _ _)).trans hfits

/-- However often splitting is allowed, it is done at most once. -/
theorem highProduct_depth (signed : Bool) (n : Nat) (ht : t.Valid) :
    highProduct signed (n + 1) t = highProduct signed 1 t := by
  funext p q
  rw [highProduct, highProduct]
  by_cases hsplit : t.isVector = true ∧ Ty.maxVectorBytes < 2 * t.size
  · rw [if_pos hsplit, if_pos hsplit]
    dsimp only
    cases hhalf : t.withLanes (t.numLanes / 2 : Nat) with
    | error e => rfl
    | ok half =>
      have hroom := roomy_half ht hsplit.1 hhalf
      rw [lift_ok_bind, lift_ok_bind, highProduct_of_roomy signed n hroom,
        highProduct_of_roomy signed 0 hroom]
  · rw [if_neg hsplit, if_neg hsplit]

/-- A vector of an even number of lanes is done by halves, which are put behind one another again. -/
theorem Ledger.halves {m n : UInt8} (signed : Bool) (hs : s.closed = false) (h : Ledger f b P g Γ)
    (hhalf : (Ty.vec k n).Valid) (hwhole : (Ty.vec k m).Valid) (hm : m.toNat = 2 * n.toNat)
    (hk : k.Multiplied) (hroom : ¬ (Ty.vec k m).Roomy) (ha : ⟨a, .vec k m, x⟩ ∈ Γ)
    (hc : ⟨c, .vec k m, y⟩ ∈ Γ) :
    Adds s f b P g Γ (highProduct signed 1 (.vec k m) (.value a) (.value c)) .value (.vec k m) fun st i =>
      k.highWord signed (x st i) (y st i) := by
  have hsplit : (Ty.vec k m).isVector = true ∧ Ty.maxVectorBytes < 2 * (Ty.vec k m).size :=
    ⟨rfl, Nat.lt_of_not_le fun h => hroom fun _ => h⟩
  have hn : (Ty.vec k m).numLanes / 2 = n.toNat := by
    change m.toNat / 2 = n.toNat
    omega
  have hwith : (Ty.vec k m).withLanes (n.toNat : Nat) = .ok (.vec k n) := Ty.withLanes_eq hhalf rfl
  have hroom' : (Ty.vec k n).Roomy := roomy_half hwhole rfl (by rw [hn]; exact hwith)
  -- the lanes from `off` on, as far as there are as many as in a half
  have hpart : ∀ {g : Func} {Γ : List Meaning} {a : ValueId} {x : regionInterp.State → Nat → UInt64}
      (off : Nat),
      Ledger f b P g Γ → off + n.toNat ≤ m.toNat → ⟨a, .vec k m, x⟩ ∈ Γ →
      Adds s f b P g Γ (shuffleLanes (.value a) (.value a) (selectorsFrom off n.toNat)) .value (.vec k n)
        fun st i => x st (off + i) := by
    intro g Γ a x off h hoff ha
    obtain ⟨g', v, hgives, h'⟩ := h.shuffle (t := .vec k m) (u := .vec k n) off hs rfl rfl hhalf rfl
      (by simp only [Ty.numLanes]; omega) ha ha
    refine ⟨g', v, hgives, h'.settle (fun e he => he) fun st _ i hi => ?_⟩
    have hi : i < n.toNat := hi
    exact if_pos (show off + i < m.toNat by omega)
  obtain ⟨g₁, v₁, hgives₁, h₁⟩ := hpart 0 h (by omega) ha
  obtain ⟨g₂, v₂, hgives₂, h₂⟩ := hpart 0 h₁ (by omega) (.tail _ hc)
  obtain ⟨g₃, v₃, hgives₃, h₃⟩ := h₂.wideProduct signed hs hhalf hk hroom' (.tail _ (.head _)) (.head _)
  obtain ⟨g₄, v₄, hgives₄, h₄⟩ := hpart n.toNat h₃ (by omega) (.tail _ (.tail _ (.tail _ ha)))
  obtain ⟨g₅, v₅, hgives₅, h₅⟩ := hpart n.toNat h₄ (by omega) (.tail _ (.tail _ (.tail _ (.tail _ hc))))
  obtain ⟨g₆, v₆, hgives₆, h₆⟩ := h₅.wideProduct signed hs hhalf hk hroom' (.tail _ (.head _)) (.head _)
  obtain ⟨g₇, v₇, hgives₇, h₇⟩ := h₆.shuffle (t := .vec k n) (u := .vec k m) 0 hs rfl rfl hwhole rfl
    (by simp [Ty.numLanes, hm]) (.tail _ (.tail _ (.tail _ (.head _)))) (.head _)
  rw [highProduct, if_pos hsplit]
  dsimp only
  rw [hn, hwith, lift_ok_bind, highProduct_of_roomy signed 0 hroom', ← hm]
  simp only [bind_assoc]
  refine ⟨g₇, v₇, hgives₁.bind (hgives₂.bind (hgives₃.bind (hgives₄.bind (hgives₅.bind
    (hgives₆.bind hgives₇))))), h₇.settle (fun e he => ?_) fun st _ i _ => ?_⟩
  · exact .tail _ (.tail _ (.tail _ (.tail _ (.tail _ (.tail _ he)))))
  · simp only [Nat.zero_add, Ty.numLanes]
    by_cases hi : i < n.toNat
    · rw [if_pos hi]
      rfl
    · rw [if_neg hi, Nat.add_sub_cancel' (Nat.le_of_not_lt hi)]
      rfl

/-! ## The types in between -/

/-- Whatever an operand names is of a type that can be built. -/
def OperandsValid (f : Func) : Prop := ∀ o v, f.find o = .ok v → v.type.Valid

/-- The action adds no value of a type that cannot be built. -/
def Shapely {α : Type} (act : BuildM α) : Prop :=
  ∀ s : Session, (∀ f, s.func = some f → OperandsValid f) →
    ∀ f, (act.run.run s).2.func = some f → OperandsValid f

namespace Shapely

variable {α β : Type} {act : BuildM α} {e : α → BuildM β} {p q : Operand} {u : Ty}

theorem bind (h : Shapely act) (he : ∀ r, Shapely (e r)) : Shapely (act >>= e) := by
  intro s hs f hf
  have hact := h s hs
  rw [ExceptT.run_bind, StateT.run_bind] at hf
  revert hf hact
  cases act.run.run s with
  | mk r s' =>
    cases r with
    | error err => exact fun hf hact => hact f hf
    | ok r => exact fun hf hact => he r s' hact f hf

theorem lift_bind {r : Outcome α} (he : ∀ a, r = .ok a → Shapely (e a)) : Shapely (lift r >>= e) := by
  cases r with
  | error err => exact fun s hs => hs
  | ok a => exact he a rfl

theorem typeOf_bind {e : Ty → BuildM β} (he : ∀ u : Ty, u.Valid → Shapely (e u)) :
    Shapely (typeOf p >>= e) := by
  intro s hs
  have hvalid : OperandsValid (s.func.getD default) := by
    cases hf : s.func with
    | none =>
      intro o v hv
      cases o <;> cases hv <;> exact nofun
    | some f => exact hs f hf
  have hrun : (typeOf p >>= e).run.run s =
      (lift ((s.func.getD default).find p) >>= fun v => e v.type).run.run s := by
    rw [typeOf, bind_assoc, gives_get.run_bind, bind_assoc]
    rfl
  rw [hrun]
  exact lift_bind (fun v hv => he v.type (hvalid p v hv)) s hs

theorem function_bind {e : Func → BuildM β} (he : ∀ f, OperandsValid f → Shapely (e f)) :
    Shapely (function >>= e) := by
  intro s hs
  cases hclosed : s.closed with
  | true =>
    have hrun : (function >>= e).run.run s = (.error (.raised .sessionClosed), s) := by
      rw [function, live, bind_assoc, bind_assoc, gives_get.run_bind, hclosed]
      rfl
    rw [hrun]
    exact hs
  | false =>
    cases hf : s.func with
    | none =>
      have hrun : (function >>= e).run.run s = (.error (.raised .noFunction), s) := by
        rw [function, bind_assoc, (gives_live hclosed).run_bind, bind_assoc, gives_get.run_bind, hf]
        rfl
      rw [hrun]
      exact hs
    | some f =>
      have hrun : (function >>= e).run.run s = (e f).run.run s := by
        rw [function, bind_assoc, (gives_live hclosed).run_bind, bind_assoc, gives_get.run_bind, hf]
        rfl
      rw [hrun]
      exact he f (hs f hf) s hs

theorem insertBlock_bind {e : BlockId → BuildM β} (he : ∀ b, Shapely (e b)) :
    Shapely (insertBlock >>= e) := by
  refine bind (fun s hs => ?_) he
  have hrun : (insertBlock.run.run s).2 = s := by
    rw [insertBlock, gives_get.run_bind]
    cases s.cursor <;> rfl
  rwa [hrun]

theorem emit {v : Value} (hv : v.type.Valid) : Shapely (BuildM.emit v) := by
  refine function_bind fun f hf => insertBlock_bind fun b => ?_
  by_cases hend : (f.block b).isTerminated = true
  · rw [if_pos hend]
    exact fun s hs => hs
  rw [if_neg hend]
  have happended : OperandsValid (f.appendValue b v).1 := by
    intro o a ha
    cases o with
    | missing => cases ha
    | value w =>
      obtain rfl := Except.ok.inj ha
      change ((f.appended b v).value w).type.Valid
      rw [value_appended]
      split
      · exact hv
      · exact hf (.value w) _ rfl
    | foreign k => exact hf (.foreign k) a ha
  intro s _ g hg
  obtain rfl := Option.some.inj hg
  exact happended

theorem cast {o : Op} (hu : u.Valid) : Shapely (BuildM.cast o p u) := emit hu

theorem binary {o : Op} : Shapely (BuildM.binary o p q) := typeOf_bind fun _ hu => emit hu

theorem constSplat {w : UInt64} (hu : u.Valid) : Shapely (BuildM.constSplat u w) := by
  unfold BuildM.constSplat
  split
  · refine bind (emit hu) fun v => ?_
    split <;> exact fun s hs => hs
  · exact emit hu

theorem shuffleLanes {l : List Int} : Shapely (BuildM.shuffleLanes p q l) :=
  typeOf_bind fun _ hu => lift_bind fun _ ht => emit (Ty.withLanes_valid hu ht)

/-- Products at twice the width are computed on types that can be built. -/
theorem wideProduct {signed : Bool} (ht : t.Valid) : Shapely (BuildM.wideProduct t p q signed) := by
  refine lift_bind fun wide hwide => ?_
  have hvalid : wide.Valid := by
    cases hj : Ty.intKindOfSize (2 * t.elemKind.size) with
    | error err => rw [hj] at hwide; cases hwide
    | ok j =>
      rw [hj] at hwide
      exact Ty.withLanes_valid (Ty.valid_of_intKindOfSize hj) hwide
  exact bind (cast hvalid) fun _ => bind (cast hvalid) fun _ => bind binary fun _ =>
    bind (constSplat hvalid) fun _ => bind binary fun _ => cast ht

/-- Splitting comes by no other types either. -/
theorem highProduct {signed : Bool} (n : Nat) (ht : t.Valid) :
    Shapely (BuildM.highProduct signed n t p q) := by
  induction n generalizing t p q with
  | zero => exact wideProduct ht
  | succ n ih =>
    rw [BuildM.highProduct]
    split
    · refine lift_bind fun half hhalf => ?_
      have hpart : ∀ off, Shapely (do
          let x ← BuildM.shuffleLanes p p (selectorsFrom off (t.numLanes / 2))
          let y ← BuildM.shuffleLanes q q (selectorsFrom off (t.numLanes / 2))
          BuildM.highProduct signed n half x y) := fun off =>
        bind shuffleLanes fun _ => bind shuffleLanes fun _ => ih (Ty.withLanes_valid ht hhalf)
      exact bind (hpart _) fun _ => bind (hpart _) fun _ => shuffleLanes
    · exact wideProduct ht

end Shapely

/-! ## Upper halves on every type -/

namespace SType

variable {t : SType}

theorem multiplied (ht : t.isInteger = true) (hsize : t.ty.elemKind.size < 8) :
    t.ty.elemKind.Multiplied := by
  cases t <;> first
    | exact .inl rfl
    | exact .inr (.inl rfl)
    | exact .inr (.inr rfl)
    | exact absurd hsize (by decide)
    | simp [isInteger, numClass] at ht

/-- The vectors that have no room for lanes of twice the width can be halved. -/
theorem roomy_or_halved (t : SType) : t.ty.Roomy ∨ ∃ k m, t.ty = .vec k m ∧ (Ty.vec k (m / 2)).Valid ∧
    m.toNat = 2 * (m / 2).toNat ∧ ¬ t.ty.Roomy := by
  unfold Ty.Roomy
  cases t <;> first
    | exact .inl (by decide)
    | exact .inr ⟨_, _, rfl, by decide, by decide, by decide⟩
    | exact .inl fun h => Bool.noConfusion h

end SType

/-- What the builder makes of the upper halves, with or without splitting. -/
theorem Ledger.highProduct {t : SType} (n : Nat) (hs : s.closed = false) (h : Ledger f b P g Γ)
    (hk : t.ty.elemKind.Multiplied) (ha : ⟨a, t.ty, x⟩ ∈ Γ) (hc : ⟨c, t.ty, y⟩ ∈ Γ) :
    Adds s f b P g Γ (BuildM.highProduct t.isSigned (n + 1) t.ty (.value a) (.value c)) .value t.ty
      fun st i => t.ty.elemKind.highWord t.isSigned (x st i) (y st i) := by
  obtain hroom | ⟨k, m, hty, hhalf, hm, hroom⟩ := t.roomy_or_halved
  · rw [highProduct_of_roomy t.isSigned (n + 1) hroom]
    exact h.wideProduct t.isSigned hs t.valid hk hroom ha hc
  · have hvalid := t.valid
    rw [highProduct_depth t.isSigned n hvalid]
    rw [hty] at hvalid hk hroom ha hc ⊢
    exact h.halves t.isSigned hs hhalf hvalid hm hk hroom ha hc

section

variable {t : SType} (ht : t.isInteger = true) (hsize : t.ty.elemKind.size < 8) (hs : s.closed = false)
  (hf : Site f b) (hes : Given f b [(a, t), (c, t)])

include ht hsize hs hf hes

theorem yields_highProduct (n : Nat) : Yields s f b [(a, t), (c, t)] t
    (into s.id t (BuildM.highProduct t.isSigned (n + 1) t.ty (.value a) (.value c))) fun env =>
      List.zipWith (fun x y => x * y / 2 ^ t.ty.elemKind.bits) (t.numbers (env a)) (t.numbers (env c)) := by
  have hk := SType.multiplied ht hsize
  have hadds := (ledger_givens hf hes).highProduct n hs hk (.head _) (.tail _ (.head _))
  exact yields_pointwise (Kind.size_ne_zero_of_isInt hk.isInt) hadds.into (fun _ _ => Kind.canon_canon _ _)
    fun _ _ hp hq => Kind.number_highWord hk hp hq

omit ht hsize in
/-- The instruction computes the upper halves of products of sixteen bits. -/
theorem yields_pmulh (hid : s.cpu.supports (if t.isSigned then .mulHighS else .mulHighU) t.ty = true) :
    Yields s f b [(a, t), (c, t)] t (into s.id t
      (intrinsic (if t.isSigned then .mulHighS else .mulHighU) t.ty [.value a, .value c])) fun env =>
        List.zipWith (fun x y => x * y / 2 ^ t.ty.elemKind.bits) (t.numbers (env a)) (t.numbers (env c)) := by
  have hmeaning : Lower.laneMeaning t.ty.elemKind (if t.isSigned then .mulHighS else .mulHighU) =
      some fun p q => (Kind.extended .i16 t.isSigned p * Kind.extended .i16 t.isSigned q) >>> 16 := by
    cases t.isSigned <;> rfl
  obtain ⟨i, -, hshape, -⟩ := Lower.Features.intrinsic?_of_supports hid
  have hkind := Lower.intrinsicOp_high hshape
  refine yields_lanes hs hf hes hid hmeaning fun _ p q hp hq => ?_
  rw [hkind] at hp hq
  rw [SType.number, SType.number, SType.number, hkind]
  exact Kind.number_high (k := .i16) rfl (by decide) (Kind.number_range rfl _ hp) (Kind.number_range rfl _ hq)
    (Kind.mul_modEq (j := .i32) rfl (Kind.extended_modEq rfl) (Kind.extended_modEq rfl))

/-- The upper halves of the products of lanes, in the order of the lanes, for every type of lanes of less
than eight bytes: with the instruction for it or out of ordinary instructions, of which vectors without
room for lanes of twice the width take those for two halves. The vectors are split once at most, and all
that is computed on the way is of types that can be built. -/
theorem mulHigh_exact :
    (∀ act ∈ [mulHigh (own s t a) (own s t c),
        into s.id t (BuildM.highProduct t.isSigned t.ty.numLanes t.ty (.value a) (.value c))],
      Yields s f b [(a, t), (c, t)] t act fun env =>
        List.zipWith (fun x y => x * y / 2 ^ t.ty.elemKind.bits) (t.numbers (env a)) (t.numbers (env c))) ∧
    (t.ty = .v8i16 → Yields s f b [(a, t), (c, t)] t (into s.id t
      (intrinsic (if t.isSigned then .mulHighS else .mulHighU) t.ty [.value a, .value c])) fun env =>
        List.zipWith (fun x y => x * y / 2 ^ t.ty.elemKind.bits) (t.numbers (env a)) (t.numbers (env c))) ∧
    ∀ n, BuildM.highProduct t.isSigned (n + 1) t.ty = BuildM.highProduct t.isSigned t.ty.numLanes t.ty ∧
      ∀ p q, Shapely (BuildM.highProduct t.isSigned n t.ty p q) := by
  obtain ⟨m, hm⟩ : ∃ m, t.ty.numLanes = m + 1 := Nat.exists_eq_succ_of_ne_zero (by cases t <;> exact nofun)
  have hportable := yields_highProduct ht hsize hs hf hes m
  rw [← hm] at hportable
  refine ⟨fun act hact => ?_, fun hty => ?_, fun n => ⟨?_, fun p q => .highProduct n t.valid⟩⟩
  · simp only [List.mem_cons, List.not_mem_nil, or_false] at hact
    rcases hact with rfl | rfl
    · by_cases hid : s.cpu.supports (if t.isSigned then .mulHighS else .mulHighU) t.ty = true
      · refine (yields_pmulh hs hf hes hid).congr ?_
        rw [mulHigh, gives_sessionOf_two.run_bind, gives_get.run_bind]
        exact congrArg (fun act : BuildM Handle => act.run.run (s.on f b)) (if_pos hid)
      · refine hportable.congr ?_
        rw [mulHigh, gives_sessionOf_two.run_bind, gives_get.run_bind]
        refine (congrArg (fun act : BuildM Handle => act.run.run (s.on f b)) (if_neg hid)).trans ?_
        exact congrArg (fun act : BuildM Handle => act.run.run (s.on f b)) (if_neg (Nat.not_le.mpr hsize))
    · exact hportable
  · refine yields_pmulh hs hf hes ?_
    rw [hty]
    cases t.isSigned <;> rfl
  · rw [hm, highProduct_depth _ n t.valid, highProduct_depth _ m t.valid]

end

/-- The upper halves of products with signs and without, of vectors that are split. -/
theorem mulHigh_exact_pairs :
    Leaves modern pairs 0 .uint4 (mulHigh (own modern .uint4 0) (own modern .uint4 1))
        (pairsState.onto modern.cpu) [2147483647, 0, 1, 4] ∧
      Leaves modern pairs 0 .int4 (mulHigh (own modern .int4 0) (own modern .int4 1))
        (pairsState.onto modern.cpu) [0, 0, -1, -1] := by
  have hbegun : Begun .v4i32 [.v4i32, .v4i32] pairs := begun_empty _ _ _
  obtain ⟨hunsigned, -⟩ := mulHigh_exact (t := .uint4) (s := modern) rfl (by decide) rfl hbegun.site (a := 0)
    (c := 1) (hbegun.given (by decide))
  obtain ⟨hsigned, -⟩ := mulHigh_exact (t := .int4) (s := modern) rfl (by decide) rfl hbegun.site (a := 0)
    (c := 1) (hbegun.given (by decide))
  exact ⟨(hunsigned _ (.head _)).leaves _ (by decide) (by decide),
    (hsigned _ (.head _)).leaves _ (by decide) (by decide)⟩

end SsaJit.Build
