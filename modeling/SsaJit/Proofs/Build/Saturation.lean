import SsaJit.Build.Accelerated
import SsaJit.Proofs.Bounds
import SsaJit.Proofs.Build.Division
import SsaJit.Proofs.Build.Exact
import SsaJit.Proofs.Build.Reshape

/-! Arithmetic that stays within the range of a type, means, and packing into half the width. There are
two ways to build each: with an instruction that some processors have, and out of ordinary instructions.
Both compute the same numbers. -/

namespace SsaJit.Build

open Func BuildM

variable {s : Session} {f g : Func} {b : BlockId} {a c d o : ValueId} {t : Ty} {k : Kind}
  {P : regionInterp.State → Prop} {Γ : List Meaning} {x y r z : regionInterp.State → Nat → UInt64}

/-! ## Ordinary instructions -/

/-- Which lanes are negative? -/
theorem Ledger.negative (hs : s.closed = false) (h : Ledger f b P g Γ) (ht : t.isInt = true)
    (hzero : ⟨d, t, fun _ _ => t.elemKind.canon 0⟩ ∈ Γ) (ha : ⟨a, t, x⟩ ∈ Γ) :
    Adds s f b P g Γ (BuildM.icmp .slt (.value a) (.value d)) .value t.flag fun st i =>
      flagWord t.flag.elemKind (t.elemKind.number true (x st i) < 0) := by
  obtain ⟨g', v, hgives, hledger⟩ := h.flag hs ⟨rfl, rfl⟩ ht (Kind.evalCompare_less t.elemKind true) ha hzero
  refine ⟨g', v, hgives, hledger.settle (fun e he => he) fun st _ i _ => ?_⟩
  simp only [Kind.canon_zero, Kind.number_zero ht]

/-- The bound on the side of the operand where the sign bit of the overflow is set. -/
theorem Ledger.saturateWhere (hs : s.closed = false) (h : Ledger f b P g Γ) (ht : t.isInt = true)
    (ha : ⟨a, t, x⟩ ∈ Γ) (hc : ⟨c, t, y⟩ ∈ Γ) (hd : ⟨d, t, z⟩ ∈ Γ) :
    Adds s f b P g Γ (BuildM.saturateWhere t (.value a) (.value c) (.value d)) .value t fun st i =>
      t.elemKind.bounded (x st i) (y st i) (z st i) := by
  set half := 1 <<< UInt64.ofNat (t.elemKind.bits - 1)
  obtain ⟨g₁, v₁, hgives₁, h₁⟩ := h.constSplat hs t 0
  obtain ⟨g₂, v₂, hgives₂, h₂⟩ := h₁.constSplat hs t half
  obtain ⟨g₃, v₃, hgives₃, h₃⟩ := h₂.constSplat hs t (half - 1)
  obtain ⟨g₄, v₄, hgives₄, h₄⟩ := h₃.negative hs ht (.tail _ (.tail _ (.head _)))
    (.tail _ (.tail _ (.tail _ ha)))
  obtain ⟨g₅, v₅, hgives₅, h₅⟩ := h₄.chosen hs ht (.head _) (.tail _ (.tail _ (.head _)))
    (.tail _ (.head _))
  obtain ⟨g₆, v₆, hgives₆, h₆⟩ := h₅.negative hs ht (.tail _ (.tail _ (.tail _ (.tail _ (.head _)))))
    (.tail _ (.tail _ (.tail _ (.tail _ (.tail _ hd)))))
  obtain ⟨g₇, v₇, hgives₇, h₇⟩ := h₆.chosen hs ht (.head _) (.tail _ (.head _))
    (.tail _ (.tail _ (.tail _ (.tail _ (.tail _ (.tail _ hc))))))
  refine ⟨g₇, v₇, hgives₁.bind (hgives₂.bind (hgives₃.bind (hgives₄.bind (hgives₅.bind
    (hgives₆.bind hgives₇))))), h₇.settle (fun e he => ?_) fun st _ i _ => ?_⟩
  · exact .tail _ (.tail _ (.tail _ (.tail _ (.tail _ (.tail _ he)))))
  · simp only [half, canon_signBit ht, Kind.bounded, Kind.maxSigned]

/-- An instruction on two lanes that cannot fail. -/
theorem Ledger.total {o : Op} {w : UInt64 → UInt64 → UInt64} (hs : s.closed = false)
    (h : Ledger f b P g Γ) (ho : o.isBinary = true) (hfloat : o.isFloatBinary = false) (ht : t.isInt = true)
    (hw : ∀ p q, evalBinary o t.elemKind p q = .ok (some (w p q))) (ha : ⟨a, t, x⟩ ∈ Γ)
    (hc : ⟨c, t, y⟩ ∈ Γ) :
    Adds s f b P g Γ (BuildM.binary o (.value a) (.value c)) .value t fun st i => w (x st i) (y st i) :=
  h.binary hs ho hfloat ht ha hc fun _ _ _ _ => hw _ _

theorem Ledger.sumWithin (signed : Bool) (hs : s.closed = false) (h : Ledger f b P g Γ)
    (ht : t.isInt = true) (ha : ⟨a, t, x⟩ ∈ Γ) (hc : ⟨c, t, y⟩ ∈ Γ) :
    Adds s f b P g Γ (BuildM.sumWithin t signed (.value a) (.value c)) .value t fun st i =>
      t.elemKind.sumWord signed (x st i) (y st i) := by
  obtain ⟨g₁, v₁, hgives₁, h₁⟩ := h.total (o := .add) hs rfl rfl ht (fun _ _ => rfl) ha hc
  cases signed with
  | true =>
    obtain ⟨g₂, v₂, hgives₂, h₂⟩ := h₁.total (o := .xor) hs rfl rfl ht (fun _ _ => rfl) (.tail _ ha)
      (.head _)
    obtain ⟨g₃, v₃, hgives₃, h₃⟩ := h₂.total (o := .xor) hs rfl rfl ht (fun _ _ => rfl)
      (.tail _ (.tail _ hc)) (.tail _ (.head _))
    obtain ⟨g₄, v₄, hgives₄, h₄⟩ := h₃.total (o := .and) hs rfl rfl ht (fun _ _ => rfl)
      (.tail _ (.head _)) (.head _)
    obtain ⟨g₅, v₅, hgives₅, h₅⟩ := h₄.saturateWhere hs ht (.tail _ (.tail _ (.tail _ (.tail _ ha))))
      (.tail _ (.tail _ (.tail _ (.head _)))) (.head _)
    exact ⟨g₅, v₅, hgives₁.bind (hgives₂.bind (hgives₃.bind (hgives₄.bind hgives₅))),
      h₅.settle (fun e he => .tail _ (.tail _ (.tail _ (.tail _ he)))) fun _ _ _ _ => rfl⟩
  | false =>
    obtain ⟨g₂, v₂, hgives₂, h₂⟩ := h₁.flag hs ⟨rfl, rfl⟩ ht (Kind.evalCompare_less t.elemKind false)
      (.head _) (.tail _ ha)
    obtain ⟨g₃, v₃, hgives₃, h₃⟩ := h₂.constSplat hs t 0xFFFFFFFFFFFFFFFF
    obtain ⟨g₄, v₄, hgives₄, h₄⟩ := h₃.chosen hs ht (.tail _ (.head _)) (.head _)
      (.tail _ (.tail _ (.head _)))
    exact ⟨g₄, v₄, hgives₁.bind (hgives₂.bind (hgives₃.bind hgives₄)),
      h₄.settle (fun e he => .tail _ (.tail _ (.tail _ he))) fun _ _ _ _ => rfl⟩

theorem Ledger.differenceWithin (signed : Bool) (hs : s.closed = false) (h : Ledger f b P g Γ)
    (ht : t.isInt = true) (ha : ⟨a, t, x⟩ ∈ Γ) (hc : ⟨c, t, y⟩ ∈ Γ) :
    Adds s f b P g Γ (BuildM.differenceWithin t signed (.value a) (.value c)) .value t fun st i =>
      t.elemKind.differenceWord signed (x st i) (y st i) := by
  obtain ⟨g₁, v₁, hgives₁, h₁⟩ := h.total (o := .sub) hs rfl rfl ht (fun _ _ => rfl) ha hc
  cases signed with
  | true =>
    obtain ⟨g₂, v₂, hgives₂, h₂⟩ := h₁.total (o := .xor) hs rfl rfl ht (fun _ _ => rfl) (.tail _ ha)
      (.tail _ hc)
    obtain ⟨g₃, v₃, hgives₃, h₃⟩ := h₂.total (o := .xor) hs rfl rfl ht (fun _ _ => rfl)
      (.tail _ (.tail _ ha)) (.tail _ (.head _))
    obtain ⟨g₄, v₄, hgives₄, h₄⟩ := h₃.total (o := .and) hs rfl rfl ht (fun _ _ => rfl)
      (.tail _ (.head _)) (.head _)
    obtain ⟨g₅, v₅, hgives₅, h₅⟩ := h₄.saturateWhere hs ht (.tail _ (.tail _ (.tail _ (.tail _ ha))))
      (.tail _ (.tail _ (.tail _ (.head _)))) (.head _)
    exact ⟨g₅, v₅, hgives₁.bind (hgives₂.bind (hgives₃.bind (hgives₄.bind hgives₅))),
      h₅.settle (fun e he => .tail _ (.tail _ (.tail _ (.tail _ he)))) fun _ _ _ _ => rfl⟩
  | false =>
    obtain ⟨g₂, v₂, hgives₂, h₂⟩ := h₁.flag hs ⟨rfl, rfl⟩ ht (Kind.evalCompare_less t.elemKind false)
      (.tail _ ha) (.tail _ hc)
    obtain ⟨g₃, v₃, hgives₃, h₃⟩ := h₂.constSplat hs t 0
    obtain ⟨g₄, v₄, hgives₄, h₄⟩ := h₃.chosen hs ht (.tail _ (.head _)) (.head _)
      (.tail _ (.tail _ (.head _)))
    refine ⟨g₄, v₄, hgives₁.bind (hgives₂.bind (hgives₃.bind hgives₄)),
      h₄.settle (fun e he => .tail _ (.tail _ (.tail _ he))) fun st _ i _ => ?_⟩
    simp only [Kind.canon_zero, Kind.differenceWord, Bool.false_eq_true, if_false]

theorem Ledger.roundedMean (signed : Bool) (hs : s.closed = false) (h : Ledger f b P g Γ)
    (ht : t.isInt = true) (ha : ⟨a, t, x⟩ ∈ Γ) (hc : ⟨c, t, y⟩ ∈ Γ) :
    Adds s f b P g Γ (BuildM.roundedMean t signed (.value a) (.value c)) .value t fun st i =>
      t.elemKind.meanWord signed (x st i) (y st i) := by
  have hone : t.elemKind.canon 1 = 1 := by cases t.elemKind <;> rfl
  obtain ⟨g₁, v₁, hgives₁, h₁⟩ := h.constSplat hs t 1
  obtain ⟨g₂, v₂, hgives₂, h₂⟩ := h₁.total (o := .xor) hs rfl rfl ht (fun _ _ => rfl) (.tail _ ha)
    (.tail _ hc)
  obtain ⟨g₃, v₃, hgives₃, h₃⟩ := h₂.total (o := if signed then .ashr else .lshr)
    (w := fun p q => t.elemKind.canon
      (if signed then (t.elemKind.signExtend p >>> (q &&& 63).toInt64).toUInt64 else p >>> (q &&& 63)))
    hs (by cases signed <;> rfl) (by cases signed <;> rfl) ht (by cases signed <;> exact fun _ _ => rfl)
    (.head _) (.tail _ (.head _))
  obtain ⟨g₄, v₄, hgives₄, h₄⟩ := h₃.total (o := .or) hs rfl rfl ht (fun _ _ => rfl)
    (.tail _ (.tail _ (.tail _ ha))) (.tail _ (.tail _ (.tail _ hc)))
  obtain ⟨g₅, v₅, hgives₅, h₅⟩ := h₄.total (o := .sub) hs rfl rfl ht (fun _ _ => rfl) (.head _)
    (.tail _ (.head _))
  refine ⟨g₅, v₅, hgives₁.bind (hgives₂.bind (hgives₃.bind (hgives₄.bind hgives₅))),
    h₅.settle (fun e he => .tail _ (.tail _ (.tail _ (.tail _ he)))) fun st _ i _ => ?_⟩
  rw [hone]
  rfl

/-- Each lane brought into the range of a kind with fewer bits. -/
theorem Ledger.clampTo (source dest : Bool) (k : Kind) (hs : s.closed = false) (h : Ledger f b P g Γ)
    (ht : t.isInt = true) (ha : ⟨a, t, x⟩ ∈ Γ) :
    Adds s f b P g Γ (BuildM.clampTo t (.value a) source k dest) .value t fun st i =>
      t.elemKind.clampWord k source dest (x st i) := by
  have hrange : rangeOf k dest = (k.least dest, k.greatest dest) := by
    cases dest <;> simp [rangeOf, Kind.least, Kind.greatest, Nat.shiftLeft_eq]
  obtain ⟨g₁, v₁, hgives₁, h₁⟩ := h.constSplat hs t (Int64.ofInt (k.greatest dest)).toUInt64
  unfold BuildM.clampTo
  rw [hrange]
  cases source with
  | true =>
    obtain ⟨g₂, v₂, hgives₂, h₂⟩ := h₁.constSplat hs t (Int64.ofInt (k.least dest)).toUInt64
    obtain ⟨g₃, v₃, hgives₃, h₃⟩ := h₂.flag hs ⟨rfl, rfl⟩ ht (Kind.evalCompare_greater t.elemKind true)
      (.tail _ (.tail _ ha)) (.tail _ (.head _))
    obtain ⟨g₄, v₄, hgives₄, h₄⟩ := h₃.chosen hs ht (.head _) (.tail _ (.tail _ (.head _)))
      (.tail _ (.tail _ (.tail _ ha)))
    obtain ⟨g₅, v₅, hgives₅, h₅⟩ := h₄.flag hs ⟨rfl, rfl⟩ ht (Kind.evalCompare_less t.elemKind true)
      (.head _) (.tail _ (.tail _ (.head _)))
    obtain ⟨g₆, v₆, hgives₆, h₆⟩ := h₅.chosen hs ht (.head _)
      (.tail _ (.tail _ (.tail _ (.head _)))) (.tail _ (.head _))
    exact ⟨g₆, v₆, hgives₁.bind (hgives₂.bind (hgives₃.bind (hgives₄.bind (hgives₅.bind hgives₆)))),
      h₆.settle (fun e he => .tail _ (.tail _ (.tail _ (.tail _ (.tail _ he))))) fun _ _ _ _ => rfl⟩
  | false =>
    obtain ⟨g₂, v₂, hgives₂, h₂⟩ := h₁.flag hs ⟨rfl, rfl⟩ ht (Kind.evalCompare_greater t.elemKind false)
      (.tail _ ha) (.head _)
    obtain ⟨g₃, v₃, hgives₃, h₃⟩ := h₂.chosen hs ht (.head _) (.tail _ (.head _)) (.tail _ (.tail _ ha))
    exact ⟨g₃, v₃, hgives₁.bind (hgives₂.bind hgives₃),
      h₃.settle (fun e he => .tail _ (.tail _ he)) fun _ _ _ _ => rfl⟩

/-- The lanes of two vectors of `n` lanes each, those of the first below, in the bits of `k`. -/
theorem Ledger.packed {j : Kind} {n m : UInt8} (hs : s.closed = false)
    (h : Ledger f b P g Γ) (hj : j.isInt = true) (hk : k.isInt = true) (hbits : k.bits < j.bits)
    (hhalf : (Ty.vec k n).Valid) (hwhole : (Ty.vec k m).Valid) (hm : m.toNat = 2 * n.toNat)
    (ha : ⟨a, .vec j n, x⟩ ∈ Γ) (hc : ⟨c, .vec j n, y⟩ ∈ Γ) :
    Adds s f b P g Γ (do
      let half ← lift (Ty.vector? k n.toNat)
      let lo ← BuildM.cast .trunc (.value a) half
      let hi ← BuildM.cast .trunc (.value c) half
      shuffleLanes lo hi (selectorsFrom 0 m.toNat)) .value (.vec k m) fun st i =>
        if i < n.toNat then k.canon (x st i) else k.canon (y st (i - n.toNat)) := by
  have hrule : castRule? .trunc (.vec j n) (.vec k n) = none := by
    simp [castRule?, Ty.elemKind, Ty.numLanes, hj, hk, hbits]
  obtain ⟨g₁, v₁, hgives₁, h₁⟩ := h.cast (z := fun st i => k.canon (x st i)) hs (.head _) hrule ha
    fun st _ i _ => rfl
  obtain ⟨g₂, v₂, hgives₂, h₂⟩ := h₁.cast (z := fun st i => k.canon (y st i)) hs (.head _) hrule
    (.tail _ hc) fun st _ i _ => rfl
  obtain ⟨g₃, v₃, hgives₃, h₃⟩ := h₂.shuffle (t := .vec k n) (u := .vec k m) 0 hs rfl rfl hwhole rfl
    (by simp [Ty.numLanes, hm]) (.tail _ (.head _)) (.head _)
  rw [Ty.vector?_eq hhalf]
  refine ⟨g₃, v₃, gives_lift.bind (hgives₁.bind (hgives₂.bind hgives₃)),
    h₃.settle (fun e he => .tail _ (.tail _ he)) fun st _ i _ => ?_⟩
  simp only [Nat.zero_add, Ty.numLanes]

/-! ## Both ways -/

namespace SType

/-- The number of the type that is nearest to `n`. -/
def clamp (t : SType) (n : Int) : Int := t.ty.elemKind.clamp t.isSigned n

theorem valid (t : SType) : t.ty.Valid := by cases t <;> first | decide | exact Kind.noConfusion

/-- A type with twice the lanes of another at half the width. -/
theorem narrower {t u : SType} (ht : t.isInteger = true) (hu : u.isInteger = true)
    (hlanes : u.ty.numLanes = 2 * t.ty.numLanes) (hsize : 2 * u.ty.elemKind.size = t.ty.elemKind.size) :
    ∃ j k n m, t.ty = .vec j n ∧ u.ty = .vec k m ∧ j.isInt = true ∧ k.isInt = true ∧ k ≠ .i1 ∧
      k.bits < j.bits ∧ (Ty.vec k n).Valid ∧ m.toNat = 2 * n.toNat := by
  obtain ⟨hword, -⟩ := lane_word ht
  obtain ⟨hword', -⟩ := lane_word hu
  have hne : u.ty.elemKind ≠ .i1 := by
    cases u <;> first | decide | simp [isInteger, numClass] at hu
  have htwo : u.ty.numLanes ≠ 2 := by cases u <;> first | decide | exact (by decide : 1 ≠ 2)
  have hbits := Kind.bits_lt (j := u.ty.elemKind) hword.isInt
    (by have := Kind.size_ne_zero_of_isInt hword'.isInt; omega)
  have hvalid := u.valid
  have hvalid' := t.valid
  cases hut : u.ty with
  | scalar k =>
    rw [hut] at hlanes
    simp only [Ty.numLanes] at hlanes
    omega
  | vec k m =>
    cases htt : t.ty with
    | scalar j =>
      rw [htt] at hlanes
      exact absurd hlanes htwo
    | vec j n =>
      rw [hut, htt] at hlanes hbits hsize
      rw [hut] at hvalid hne hword'
      rw [htt] at hvalid' hword
      obtain ⟨hlane, -, hfits⟩ := hvalid
      simp only [Ty.numLanes] at hlanes
      refine ⟨j, k, n, m, rfl, rfl, hword.isInt, hword'.isInt, hne, hbits, ⟨hlane, hvalid'.2.1, ?_⟩, hlanes⟩
      rw [hlanes] at hfits
      exact (Nat.mul_le_mul_right _ (Nat.le_mul_of_pos_left _ Nat.two_pos)).trans hfits

end SType

/-- The lane of half the width, brought into range there. -/
def narrowedWord (t u : SType) (w : UInt64) : UInt64 :=
  u.ty.elemKind.canon (t.ty.elemKind.clampWord u.ty.elemKind t.isSigned u.isSigned w)

/-- The lanes of two vectors at half the width, brought into range there. -/
theorem Ledger.narrowed {t u : SType} (hs : s.closed = false) (h : Ledger f b P g Γ)
    (ht : t.isInteger = true) (hu : u.isInteger = true) (hlanes : u.ty.numLanes = 2 * t.ty.numLanes)
    (hsize : 2 * u.ty.elemKind.size = t.ty.elemKind.size) (ha : ⟨a, t.ty, x⟩ ∈ Γ) (hc : ⟨c, t.ty, y⟩ ∈ Γ) :
    Adds s f b P g Γ (narrowLanes t.ty t.isSigned u true (.value a) (.value c)) .value u.ty fun st i =>
      narrowedWord t u (if i < t.ty.numLanes then x st i else y st (i - t.ty.numLanes)) := by
  obtain ⟨j, k, n, m, htt, hut, hj, hk, -, hbits, hhalf, hm⟩ := SType.narrower ht hu hlanes hsize
  rw [htt] at ha hc
  rw [narrowLanes, htt, hut]
  have hwhole : (Ty.vec k m).Valid := hut ▸ u.valid
  obtain ⟨g₁, v₁, hgives₁, h₁⟩ := h.clampTo (t := .vec j n) t.isSigned u.isSigned k hs hj ha
  obtain ⟨g₂, v₂, hgives₂, h₂⟩ := h₁.clampTo (t := .vec j n) t.isSigned u.isSigned k hs hj (.tail _ hc)
  obtain ⟨g₃, v₃, hgives₃, h₃⟩ := h₂.packed hs hj hk hbits hhalf hwhole hm (.tail _ (.head _)) (.head _)
  refine ⟨g₃, v₃, hgives₁.bind (hgives₂.bind hgives₃),
    h₃.settle (fun e he => .tail _ (.tail _ he)) fun st _ i _ => ?_⟩
  rw [apply_ite (narrowedWord t u), narrowedWord, narrowedWord, htt, hut]
  rfl

section

variable {t u : SType}

/-! ### Lane by lane -/

/-- An operation on lanes, with the instruction for it or without. -/
theorem yields_both (id : Intrinsic) (ready : Session → Bool) {portable : BuildM Operand}
    {w z : UInt64 → UInt64 → UInt64} {ψ : Int → Int → Int} (ht : t.isInteger = true) (hs : s.closed = false)
    (hf : Site f b) (hes : Given f b [(a, t), (c, t)])
    (hadds : Adds s f b (Filled [(a, t), (c, t)]) f (givens [(a, t), (c, t)]) portable .value t.ty
      fun st i => w (laneIn st a i) (laneIn st c i))
    (hcanon : ∀ p q, t.ty.elemKind.canon (w p q) = w p q)
    (hw : ∀ p q, t.ty.elemKind.canon p = p → t.ty.elemKind.canon q = q →
      t.number (w p q) = ψ (t.number p) (t.number q))
    (hready : ready (s.on f b) = true → s.cpu.supports id t.ty = true ∧
      Lower.laneMeaning t.ty.elemKind id = some z ∧ (t.ty.elemKind = .i8 ∨ t.ty.elemKind = .i16 →
        ∀ p q, t.ty.elemKind.canon p = p → t.ty.elemKind.canon q = q →
          t.number (t.ty.elemKind.canon (z p q)) = ψ (t.number p) (t.number q))) :
    ∀ act ∈ [sessionOf [own s t a, own s t c] >>= fun σ => into σ t (get >>= fun σ =>
        if ready σ then intrinsic id t.ty [.value a, .value c] else portable), into s.id t portable],
      Yields s f b [(a, t), (c, t)] t act
        fun env => List.zipWith ψ (t.numbers (env a)) (t.numbers (env c)) := by
  have hk := Kind.size_ne_zero_of_isInt (SType.lane_word ht).1.isInt
  have hportable := yields_pointwise hk hadds.into hcanon hw
  have heither := Yields.either (x := intrinsic id t.ty [.value a, .value c]) (p := ready) (fun h => by
    obtain ⟨hid, hmeaning, hψ⟩ := hready h
    exact yields_lanes hs hf hes hid hmeaning hψ) hportable
  intro act hact
  simp only [List.mem_cons, List.not_mem_nil, or_false] at hact
  rcases hact with rfl | rfl
  · exact heither.congr gives_sessionOf_two.run_bind
  · exact hportable

/-- What the instructions for saturation make of two lanes. -/
def saturated (k : Kind) (signed : Bool) (φ : Int → Int → Int) : UInt64 → UInt64 → UInt64 :=
  if signed then X86.SseOp.signedSat k φ else X86.SseOp.unsignedSat k φ

theorem number_saturated (hk : k.isInt = true) {signed : Bool} {φ : Int → Int → Int} {p q : UInt64} :
    k.number signed (k.canon (saturated k signed φ p q)) =
      k.clamp signed (φ (k.number signed p) (k.number signed q)) := by
  cases signed with
  | true => exact Kind.number_clampSigned hk _
  | false => exact Kind.number_clampUnsigned hk _

theorem addSat_exact (ht : t.isInteger = true) (hs : s.closed = false) (hf : Site f b)
    (hes : Given f b [(a, t), (c, t)]) :
    ∀ act ∈ [addSat (own s t a) (own s t c), into s.id t (sumWithin t.ty t.isSigned (.value a) (.value c))],
      Yields s f b [(a, t), (c, t)] t act
        fun env => List.zipWith (fun x y => t.clamp (x + y)) (t.numbers (env a)) (t.numbers (env c)) := by
  have hk := (SType.lane_word ht).1.isInt
  have hmeaning : Lower.laneMeaning t.ty.elemKind (if t.isSigned then .addSatS else .addSatU) =
      some (saturated t.ty.elemKind t.isSigned (· + ·)) := by cases t.isSigned <;> rfl
  exact yields_both (if t.isSigned then .addSatS else .addSatU)
    (fun σ => σ.cpu.supports (if t.isSigned then .addSatS else .addSatU) t.ty) ht hs hf hes
    ((ledger_givens hf hes).sumWithin t.isSigned hs hk (.head _) (.tail _ (.head _)))
    (Kind.canon_sumWord _ _) (fun _ _ hp hq => Kind.number_sumWord hk hp hq)
    fun h => ⟨h, hmeaning, fun _ _ _ _ _ => number_saturated hk⟩

theorem subSat_exact (ht : t.isInteger = true) (hs : s.closed = false) (hf : Site f b)
    (hes : Given f b [(a, t), (c, t)]) :
    ∀ act ∈ [subSat (own s t a) (own s t c),
        into s.id t (differenceWithin t.ty t.isSigned (.value a) (.value c))],
      Yields s f b [(a, t), (c, t)] t act
        fun env => List.zipWith (fun x y => t.clamp (x - y)) (t.numbers (env a)) (t.numbers (env c)) := by
  have hk := (SType.lane_word ht).1.isInt
  have hmeaning : Lower.laneMeaning t.ty.elemKind (if t.isSigned then .subSatS else .subSatU) =
      some (saturated t.ty.elemKind t.isSigned (· - ·)) := by cases t.isSigned <;> rfl
  exact yields_both (if t.isSigned then .subSatS else .subSatU)
    (fun σ => σ.cpu.supports (if t.isSigned then .subSatS else .subSatU) t.ty) ht hs hf hes
    ((ledger_givens hf hes).differenceWithin t.isSigned hs hk (.head _) (.tail _ (.head _)))
    (Kind.canon_differenceWord _ _) (fun _ _ hp hq => Kind.number_differenceWord hk hp hq)
    fun h => ⟨h, hmeaning, fun _ _ _ _ _ => number_saturated hk⟩

theorem average_exact (ht : t.isInteger = true) (hs : s.closed = false) (hf : Site f b)
    (hes : Given f b [(a, t), (c, t)]) :
    ∀ act ∈ [average (own s t a) (own s t c),
        into s.id t (roundedMean t.ty t.isSigned (.value a) (.value c))],
      Yields s f b [(a, t), (c, t)] t act
        fun env => List.zipWith (fun x y => (x + y + 1) / 2) (t.numbers (env a)) (t.numbers (env c)) := by
  have hk := (SType.lane_word ht).1.isInt
  refine yields_both .avgU (fun σ => !t.isSigned && σ.cpu.supports .avgU t.ty)
    (z := fun p q => (p + q + 1) >>> 1) ht hs hf hes
    ((ledger_givens hf hes).roundedMean t.isSigned hs hk (.head _) (.tail _ (.head _)))
    (Kind.canon_meanWord _ _) (fun _ _ hp hq => Kind.number_meanWord hk hp hq)
    fun h => ?_
  obtain ⟨hsign, hid⟩ := Bool.and_eq_true_iff.mp h
  have hunsigned : t.isSigned = false := Bool.not_eq_true' _ ▸ hsign
  refine ⟨hid, rfl, fun hkind p q hp hq => ?_⟩
  have hsize : t.ty.elemKind.size < 8 := by rcases hkind with h | h <;> rw [h] <;> decide
  rw [SType.number, SType.number, SType.number, hunsigned]
  exact Kind.number_average hk hsize hp hq

/-! ### In half the width -/

theorem number_packClamp (hk : k.isInt = true) (signed : Bool) (n : Int) :
    k.number signed (k.canon (Lower.packClamp signed k n)) = k.clamp signed n := by
  cases signed with
  | true => exact Kind.number_clampSigned hk n
  | false => exact Kind.number_clampUnsigned hk n

section half

variable (ht : t.isInteger = true) (hu : u.isInteger = true) (hlanes : u.ty.numLanes = 2 * t.ty.numLanes)
  (hsize : 2 * u.ty.elemKind.size = t.ty.elemKind.size) (hs : s.closed = false) (hf : Site f b)
  (hes : Given f b [(a, t), (c, t)])

include ht hu hlanes hsize hs hf hes

theorem yields_narrowed : Yields s f b [(a, t), (c, t)] u
    (into s.id u (narrowLanes t.ty t.isSigned u true (.value a) (.value c)))
    fun env => (t.numbers (env a) ++ t.numbers (env c)).map u.clamp := by
  obtain ⟨j, k, n, m, htt, hut, hj, hk, -, hbits, -, -⟩ := SType.narrower ht hu hlanes hsize
  have hkind : u.ty.elemKind = k := by rw [hut]; rfl
  have hkind' : t.ty.elemKind = j := by rw [htt]; rfl
  have ha : (a, t) ∈ [(a, t), (c, t)] := List.mem_cons_self
  have hc : (c, t) ∈ [(a, t), (c, t)] := .tail _ List.mem_cons_self
  have hadds := (ledger_givens hf hes).narrowed hs ht hu hlanes hsize (.head _) (.tail _ (.head _))
  refine yields_of_adds hadds.into (fun st _ i _ => ?_) fun st hst => ?_
  · exact Kind.cut_canon (hkind ▸ Kind.size_ne_zero_of_isInt hk)
  have hrow : ∀ z, row u.ty.numLanes (fun i => narrowedWord t u (z i)) =
      (row u.ty.numLanes z).map (narrowedWord t u) := fun z => by rw [row, row, List.map_map]; rfl
  rw [hst.numbers ha, hst.numbers hc, hrow, hlanes, row_append, List.map_map, ← List.map_append,
    List.map_map]
  refine List.map_congr_left fun w hw => ?_
  have hcanon : j.canon w = w := by
    rcases List.mem_append.mp hw with hw | hw <;> obtain ⟨i, hi, rfl⟩ := List.mem_map.mp hw
    · exact hkind' ▸ hst.canon ha (List.mem_range.mp hi)
    · exact hkind' ▸ hst.canon hc (List.mem_range.mp hi)
  simp only [Function.comp_apply, SType.number, SType.clamp, narrowedWord, hkind, hkind']
  exact Kind.number_narrowed hk hj hbits hcanon

/-- Packing two vectors in half the width brings the numbers of their lanes into the range there, those of
the first below, with the instruction for it or without. -/
theorem narrow_exact : ∀ act ∈ [narrow u (own s t a) (own s t c) true,
      into s.id u (narrowLanes t.ty t.isSigned u true (.value a) (.value c))],
    Yields s f b [(a, t), (c, t)] u act
      fun env => (t.numbers (env a) ++ t.numbers (env c)).map u.clamp := by
  obtain ⟨j, k, n, m, htt, hut, hj, hk, hne, -, -, -⟩ := SType.narrower ht hu hlanes hsize
  have hkind : u.ty.elemKind = k := by rw [hut]; rfl
  have hportable := yields_narrowed ht hu hlanes hsize hs hf hes
  intro act hact
  simp only [List.mem_cons, List.not_mem_nil, or_false] at hact
  rcases hact with rfl | rfl
  · have hdefined : (t.isFloat || u.isFloat || u.ty.numLanes != 2 * t.ty.numLanes ||
        2 * u.ty.elemKind.size != t.ty.elemKind.size) = false := by
      simp [hlanes, hsize, SType.isFloat_of_isInteger ht, SType.isFloat_of_isInteger hu]
    have hpack : Yields s f b [(a, t), (c, t)] u (into s.id u do
        if true && t.isSigned && (← get).cpu.supports (if u.isSigned then .packSS else .packUS) t.ty then
          intrinsic (if u.isSigned then .packSS else .packUS) u.ty [.value a, .value c]
        else narrowLanes t.ty t.isSigned u true (.value a) (.value c))
        fun env => (t.numbers (env a) ++ t.numbers (env c)).map u.clamp := by
      refine .either (fun hpacks => ?_) hportable
      have hfits := Bool.and_eq_true_iff.mp hpacks
      have hsigned : t.isSigned = true := (Bool.and_eq_true_iff.mp hfits.1).2
      refine yields_packed hs hf hes hfits.2 (hkind ▸ hk) (hkind ▸ hne) hsize hlanes fun p => ?_
      rw [SType.number, SType.number, SType.clamp, hkind, hsigned]
      exact number_packClamp hk u.isSigned _
    refine hpack.congr ?_
    have hfinds : (sessionOf [own s t a, own s t c]).Gives (s.on f b) s.id (s.on f b) := gives_sessionOf_two
    rw [narrow, hfinds.run_bind]
    change (if (t.isFloat || u.isFloat || u.ty.numLanes != 2 * t.ty.numLanes ||
        2 * u.ty.elemKind.size != t.ty.elemKind.size) = true then _ else _ : BuildM Handle).run.run _ = _
    rw [hdefined]
    rfl
  · exact hportable

end half

/-- Sums, differences, means and packed lanes are those of exact arithmetic, brought into range where they
leave it. This is so for every integer type, for what is built of ordinary instructions, and for what is
built for the processor of the session, whatever it is. -/
theorem saturation_exact (ht : t.isInteger = true) (hs : s.closed = false) (hf : Site f b)
    (hes : Given f b [(a, t), (c, t)]) :
    (∀ act ∈ [addSat (own s t a) (own s t c), into s.id t (sumWithin t.ty t.isSigned (.value a) (.value c))],
      Yields s f b [(a, t), (c, t)] t act fun env =>
        List.zipWith (fun x y => t.clamp (x + y)) (t.numbers (env a)) (t.numbers (env c))) ∧
    (∀ act ∈ [subSat (own s t a) (own s t c),
        into s.id t (differenceWithin t.ty t.isSigned (.value a) (.value c))],
      Yields s f b [(a, t), (c, t)] t act fun env =>
        List.zipWith (fun x y => t.clamp (x - y)) (t.numbers (env a)) (t.numbers (env c))) ∧
    (∀ act ∈ [average (own s t a) (own s t c),
        into s.id t (roundedMean t.ty t.isSigned (.value a) (.value c))],
      Yields s f b [(a, t), (c, t)] t act fun env =>
        List.zipWith (fun x y => (x + y + 1) / 2) (t.numbers (env a)) (t.numbers (env c))) ∧
    ∀ u : SType, u.isInteger = true → u.ty.numLanes = 2 * t.ty.numLanes →
      2 * u.ty.elemKind.size = t.ty.elemKind.size →
      ∀ act ∈ [narrow u (own s t a) (own s t c) true,
          into s.id u (narrowLanes t.ty t.isSigned u true (.value a) (.value c))],
        Yields s f b [(a, t), (c, t)] u act fun env =>
          (t.numbers (env a) ++ t.numbers (env c)).map u.clamp :=
  ⟨addSat_exact ht hs hf hes, subSat_exact ht hs hf hes, average_exact ht hs hf hes,
    fun _ hu hlanes hsize => narrow_exact ht hu hlanes hsize hs hf hes⟩

end

/-- A function of two vectors of eight numbers and two of four, as it begins. -/
def eights : Func := Func.empty "eights" .v8i16 [.v8i16, .v8i16, .v4i32, .v4i32]

/-- A processor that can pack into every range. -/
def modern : Session := { cpu := { sse41 := true } }

/-- Numbers at the ends of their ranges. -/
def eightsState (cpu : Lower.Features) : (processorInterp cpu).State where
  env v := .lanes <| match v with
    | 0 => [0x7FFF, 0x8000, 0x8000, 5, 0, 1, 2, 3]
    | 1 => [1, 0x8000, 0xFFFF, 7, 0x8000, 0, 0, 0]
    | 2 => [0, 0xFFFF, 0x10000, 0x7FFFFFFF]
    | _ => [0xFFFFFFFF, 0x80000000, 1, 2]
  mem := { args := [], bytes := fun _ => [] }

theorem saturation_exact_eights :
    Leaves modern eights 0 .short8 (addSat (own modern .short8 0) (own modern .short8 1))
        (eightsState modern.cpu) [32767, -32768, -32768, 12, -32768, 1, 2, 3] ∧
      Leaves modern eights 0 .short8
        (into modern.id .short8 (differenceWithin .v8i16 true (.value 0) (.value 1)))
        (eightsState modern.cpu) [32766, 0, -32767, -2, 32767, 1, 2, 3] ∧
      Leaves modern eights 0 .ushort8 (narrow .ushort8 (own modern .int4 2) (own modern .int4 3) true)
        (eightsState modern.cpu) [0, 65535, 65535, 65535, 0, 0, 1, 2] ∧
      Leaves {} eights 0 .ushort8 (narrow .ushort8 (own {} .int4 2) (own {} .int4 3) true)
        (eightsState {}) [0, 65535, 65535, 65535, 0, 0, 1, 2] := by
  have hbegun : Begun .v8i16 [.v8i16, .v8i16, .v4i32, .v4i32] eights := begun_empty _ _ _
  obtain ⟨hadd, hsub, -, -⟩ := saturation_exact (t := .short8) (s := modern) rfl rfl hbegun.site (a := 0)
    (c := 1) (hbegun.given (by decide))
  obtain ⟨-, -, -, hnarrow⟩ := saturation_exact (t := .int4) (s := modern) rfl rfl hbegun.site (a := 2)
    (c := 3) (hbegun.given (by decide))
  obtain ⟨-, -, -, hplain⟩ := saturation_exact (t := .int4) (s := {}) rfl rfl hbegun.site (a := 2)
    (c := 3) (hbegun.given (by decide))
  have hwords : ∀ e ∈ [(0, SType.short8), (1, .short8)], ((eightsState modern.cpu).env e.1).Fits e.2.ty := by
    decide
  have hlong : ∀ e ∈ [(2, SType.int4), (3, .int4)], ((eightsState modern.cpu).env e.1).Fits e.2.ty := by
    decide
  refine ⟨(hadd _ (.head _)).leaves _ hwords (by decide),
    (hsub _ (.tail _ (.head _))).leaves _ hwords (by decide),
    (hnarrow .ushort8 rfl rfl rfl _ (.head _)).leaves _ hlong (by decide),
    (hplain .ushort8 rfl rfl rfl _ (.head _)).leaves _ hlong (by decide)⟩

end SsaJit.Build
