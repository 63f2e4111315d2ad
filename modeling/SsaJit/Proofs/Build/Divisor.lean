import SsaJit.Proofs.Build.LaneWise

/-! The divisor of a division that never stops the program: where dividing by what is given would stop it,
the divisor is one. It is computed in every lane from flags. -/

namespace SsaJit.Build

open Func BuildM

variable {s : Session} {f g : Func} {b : BlockId} {v a c d : ValueId} {t : Ty} {k : Kind}
  {P : regionInterp.State → Prop} {Γ : List Meaning} {x y : regionInterp.State → Nat → UInt64}

/-! ## Flags -/

/-- A flag in a lane: all its bits, or none. -/
def flagWord (k : Kind) (p : Prop) [Decidable p] : UInt64 := if p then k.canon (-1) else 0

section flags

variable {p q : Prop} [Decidable p] [Decidable q]

theorem flagWord_eq_zero (hk : k.isInt = true) : flagWord k p = 0 ↔ ¬ p := by
  have hones : k.canon (-1) ≠ 0 := by cases k <;> simp_all [Kind.isInt] <;> decide
  by_cases hp : p <;> simp [flagWord, hp, hones]

theorem canon_flagWord (k : Kind) : k.canon (flagWord k p) = flagWord k p := by
  by_cases hp : p <;> simp [flagWord, hp, Kind.canon_canon]

theorem evalBinary_and_flag (k : Kind) :
    evalBinary .and k (flagWord k p) (flagWord k q) = .ok (some (flagWord k (p ∧ q))) := by
  rw [← canon_flagWord (p := p ∧ q)]
  by_cases hp : p <;> by_cases hq : q <;> simp [evalBinary, flagWord, hp, hq]

theorem evalBinary_or_flag (k : Kind) :
    evalBinary .or k (flagWord k p) (flagWord k q) = .ok (some (flagWord k (p ∨ q))) := by
  rw [← canon_flagWord (p := p ∨ q)]
  by_cases hp : p <;> by_cases hq : q <;> simp [evalBinary, flagWord, hp, hq]

end flags

/-- Comparing lanes by a relation. -/
theorem Ledger.flag {p : Predicate} {R : UInt64 → UInt64 → Prop} [DecidableRel R] (hs : s.closed = false)
    (h : Ledger f b P g Γ) (hp : Comparing p) (ht : t.isInt = true)
    (hR : ∀ q r, evalCompare p t.elemKind q r = decide (R q r)) (ha : ⟨a, t, x⟩ ∈ Γ) (hc : ⟨c, t, y⟩ ∈ Γ) :
    Adds s f b P g Γ (BuildM.icmp p (.value a) (.value c)) .value t.flag fun st i =>
      flagWord t.flag.elemKind (R (x st i) (y st i)) := by
  obtain ⟨g', v, hgives, hledger⟩ := h.icmp hs hp ht ha hc
  refine ⟨g', v, hgives, hledger.settle (fun e he => he) fun st _ i _ => ?_⟩
  simp only [hR, decide_eq_true_iff, flagWord]

/-- Comparing lanes for equality. -/
theorem Ledger.equal (hs : s.closed = false) (h : Ledger f b P g Γ) (ht : t.isInt = true)
    (ha : ⟨a, t, x⟩ ∈ Γ) (hc : ⟨c, t, y⟩ ∈ Γ) :
    Adds s f b P g Γ (BuildM.icmp .eq (.value a) (.value c)) .value t.flag fun st i =>
      flagWord t.flag.elemKind (x st i = y st i) :=
  h.flag hs ⟨rfl, rfl⟩ ht (fun q r => beq_eq_decide q r) ha hc

/-- Choosing lanes by flags. -/
theorem Ledger.chosen {R : regionInterp.State → Nat → Prop} [∀ st i, Decidable (R st i)]
    (hs : s.closed = false) (h : Ledger f b P g Γ) (ht : t.isInt = true)
    (hd : ⟨d, t.flag, fun st i => flagWord t.flag.elemKind (R st i)⟩ ∈ Γ) (ha : ⟨a, t, x⟩ ∈ Γ)
    (hc : ⟨c, t, y⟩ ∈ Γ) :
    Adds s f b P g Γ (BuildM.select (.value d) (.value a) (.value c)) .value t fun st i =>
      if R st i then x st i else y st i := by
  obtain ⟨g', v, hgives, hledger⟩ := h.select hs (Ty.flag_isInt ht) hd ha hc
  refine ⟨g', v, hgives, hledger.settle (fun e he => he) fun st _ i _ => ?_⟩
  simp only [flagWord_eq_zero (Ty.flag_isInt ht), ite_not]

/-! ## The divisor -/

theorem canon_signBit (hk : k.isInt = true) :
    k.canon (1 <<< UInt64.ofNat (k.bits - 1)) = k.minSigned := by
  rw [Kind.minSigned, if_neg]
  cases k <;> first | decide | cases hk

/-- The flags of the divisors that a signed division cannot take. -/
theorem Ledger.overflow {p : regionInterp.State → Nat → Prop} [∀ st i, Decidable (p st i)]
    (hs : s.closed = false) (h : Ledger f b P g Γ) (ht : t.isInt = true)
    (ha : ⟨a, t, x⟩ ∈ Γ) (hc : ⟨c, t, y⟩ ∈ Γ)
    (hd : ⟨d, t.flag, fun st i => flagWord t.flag.elemKind (p st i)⟩ ∈ Γ) :
    Adds s f b P g Γ (do
      let least ← BuildM.constSplat t (1 <<< UInt64.ofNat (t.elemKind.bits - 1))
      let isLeast ← BuildM.icmp .eq (.value a) least
      let ones ← constAllOnes t
      let isMinusOne ← BuildM.icmp .eq (.value c) ones
      let overflow ← BuildM.binary .and isLeast isMinusOne
      BuildM.binary .or (.value d) overflow) .value t.flag fun st i =>
        flagWord t.flag.elemKind
          (p st i ∨ x st i = t.elemKind.minSigned ∧ y st i = t.elemKind.canon (-1)) := by
  have hflag := Ty.flag_isInt ht
  obtain ⟨g₁, v₁, hgives₁, h₁⟩ := h.constSplat hs t (1 <<< UInt64.ofNat (t.elemKind.bits - 1))
  obtain ⟨g₂, v₂, hgives₂, h₂⟩ := h₁.equal hs ht (.tail _ ha) (.head _)
  obtain ⟨g₃, v₃, hgives₃, h₃⟩ := h₂.constSplat hs t 0xFFFFFFFFFFFFFFFF
  obtain ⟨g₄, v₄, hgives₄, h₄⟩ := h₃.equal hs ht (.tail _ (.tail _ (.tail _ hc))) (.head _)
  obtain ⟨g₅, v₅, hgives₅, h₅⟩ := h₄.binary hs rfl rfl hflag (.tail _ (.tail _ (.head _))) (.head _)
    fun st _ i _ => evalBinary_and_flag _
  obtain ⟨g₆, v₆, hgives₆, h₆⟩ := h₅.binary hs rfl rfl hflag
    (.tail _ (.tail _ (.tail _ (.tail _ (.tail _ hd))))) (.head _) fun st _ i _ => evalBinary_or_flag _
  refine ⟨g₆, v₆, hgives₁.bind (hgives₂.bind (hgives₃.bind (hgives₄.bind (hgives₅.bind hgives₆)))),
    h₆.settle (fun e he => ?_) fun st _ i _ => ?_⟩
  · exact .tail _ (.tail _ (.tail _ (.tail _ (.tail _ he))))
  · rw [canon_signBit ht]
    rfl

/-- The divisor that is divided by: one where the division would stop the program. -/
def safeWord (signed : Bool) (k : Kind) (p q : UInt64) : UInt64 :=
  if q = 0 ∨ signed = true ∧ p = k.minSigned ∧ q = k.canon (-1) then 1 else q

/-- The divisor is one where the division would stop the program. -/
theorem Ledger.safeDivisor (signed : Bool) (hs : s.closed = false) (h : Ledger f b P g Γ)
    (ht : t.isInt = true) (ha : ⟨a, t, x⟩ ∈ Γ) (hc : ⟨c, t, y⟩ ∈ Γ) :
    Adds s f b P g Γ (BuildM.safeDivisor t (.value a) (.value c) signed) .value t fun st i =>
      safeWord signed t.elemKind (x st i) (y st i) := by
  have hone : t.elemKind.canon 1 = 1 := by cases t.elemKind <;> rfl
  obtain ⟨g₁, v₁, hgives₁, h₁⟩ := h.constSplat hs t 0
  obtain ⟨g₂, v₂, hgives₂, h₂⟩ := h₁.equal hs ht (.tail _ hc) (.head _)
  cases signed with
  | false =>
    obtain ⟨g₃, v₃, hgives₃, h₃⟩ := h₂.constSplat hs t 1
    obtain ⟨g₄, v₄, hgives₄, h₄⟩ := h₃.chosen hs ht (.tail _ (.head _)) (.head _)
      (.tail _ (.tail _ (.tail _ hc)))
    refine ⟨g₄, v₄, hgives₁.bind (hgives₂.bind ((gives_pure _).bind (hgives₃.bind hgives₄))),
      h₄.settle (fun e he => ?_) fun st _ i _ => ?_⟩
    · exact .tail _ (.tail _ (.tail _ he))
    · simp [Kind.canon_zero, hone, safeWord]
  | true =>
    obtain ⟨g₃, v₃, hgives₃, h₃⟩ := h₂.overflow hs ht (.tail _ (.tail _ ha)) (.tail _ (.tail _ hc))
      (.head _)
    obtain ⟨g₄, v₄, hgives₄, h₄⟩ := h₃.constSplat hs t 1
    obtain ⟨g₅, v₅, hgives₅, h₅⟩ := h₄.chosen hs ht (.tail _ (.head _)) (.head _)
      (.tail _ (.tail _ (.tail _ (.tail _ hc))))
    have hrest := hgives₃.bind (k := fun bad => do
      let one ← BuildM.constSplat t 1
      BuildM.select bad one (.value c)) (hgives₄.bind hgives₅)
    simp only [bind_assoc] at hrest
    refine ⟨g₅, v₅, hgives₁.bind (hgives₂.bind hrest), h₅.settle (fun e he => ?_) fun st _ i _ => ?_⟩
    · exact .tail _ (.tail _ (.tail _ (.tail _ he)))
    · simp [Kind.canon_zero, hone, safeWord]

theorem computes_safeDivisor {x : Bool} (hs : s.closed = false) (hf : Site f b)
    (hk : k.isInt = true) (ha : Offered f b a k) (hc : Offered f b c k) :
    ∃ g v, Computes s f b (safeDivisor (.scalar k) (.value a) (.value c) x) .value k g v
      fun st r => ∃ p q, st.env a = .lanes [p] ∧ st.env c = .lanes [q] ∧
        r = safeWord x k p q := by
  refine computes_of_adds [(a, k), (c, k)] hf (by simp [ha, hc]) ?_
    (fun h => h.safeDivisor x hs hk (.head _) (.tail _ (.head _))) ?_
  · rintro st r ⟨p, q, hp, hq, -⟩
    simp [hp, hq]
  · rintro st r ⟨p, q, hp, hq, hr⟩
    rw [laneIn_zero hp, laneIn_zero hq]
    exact hr

end SsaJit.Build
