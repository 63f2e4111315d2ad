import SsaJit.Build.Lanes
import SsaJit.Proofs.Build.LaneWise

/-! Values whose lanes come from values of another type: at another width, or out of two vectors one
behind the other. -/

namespace SsaJit

/-- Two rows one behind the other are a row. -/
theorem row_append (n : Nat) (x y : Nat → UInt64) :
    row (2 * n) (fun i => if i < n then x i else y (i - n)) = row n x ++ row n y := by
  rw [Nat.two_mul, row, List.range_add, List.map_append, List.map_map]
  refine congrArg₂ _ (row_congr fun i hi => if_pos hi) (row_congr fun i _ => ?_)
  simp

namespace Ty

variable {t : Ty} {k : Kind} {n : UInt8}

theorem vector?_eq (h : (Ty.vec k n).Valid) : Ty.vector? k n.toNat = .ok (.vec k n) := by
  obtain ⟨hk, hn, hsize⟩ := h
  have hshape : ¬ ((n.toNat : Int) < 2 ∨ (maxVectorBytes : Int) < n.toNat * k.size) := by
    rw [not_or, not_lt, not_lt]
    exact ⟨by exact_mod_cast hn, by exact_mod_cast hsize⟩
  rw [vector?, if_neg (by simp [hk]), if_neg hshape, Int.toNat_natCast, UInt8.ofNat_toNat]

/-- A vector type that can be built is one of those that there are, with the lanes asked for. -/
theorem vector?_eq_ok {u : Ty} {m : Int} (h : vector? k m = .ok u) :
    u.Valid ∧ u.elemKind = k ∧ (u.numLanes : Int) = m := by
  unfold vector? at h
  split at h
  · cases h
  rename_i hkind
  split at h
  · cases h
  rename_i hshape
  obtain rfl := Except.ok.inj h
  rw [not_or, not_lt, not_lt] at hshape
  obtain ⟨n, rfl⟩ := Int.eq_ofNat_of_zero_le ((by decide : (0 : Int) ≤ 2).trans hshape.1)
  have hlane : laneKind k = true := by simpa using hkind
  have hpos : 0 < k.size := by cases k <;> first | decide | cases hlane
  have hfits : n * k.size ≤ maxVectorBytes := by exact_mod_cast hshape.2
  have hlanes : (UInt8.ofNat n).toNat = n := by
    have hle := (Nat.le_mul_of_pos_right n hpos).trans hfits
    exact UInt8.toNat_ofNat_of_lt' (lt_of_le_of_lt hle (by decide))
  have htwo : 2 ≤ n := by exact_mod_cast hshape.1
  rw [Int.toNat_natCast]
  refine ⟨⟨hlane, ?_, ?_⟩, rfl, congrArg Nat.cast hlanes⟩ <;> rwa [hlanes]

theorem withLanes_eq (h : (Ty.vec k n).Valid) (hk : t.elemKind = k) :
    t.withLanes n.toNat = .ok (.vec k n) := by
  have hone : ¬ ((n.toNat : Int) = 1) := by
    have := h.2.1
    omega
  rw [withLanes, if_neg hone, hk, vector?_eq h]

end Ty

end SsaJit

namespace SsaJit.Func

open Operation Build.BuildM

variable {x : Value} {t : Ty} {n off : Nat} {y z w : Nat → UInt64}

theorem fold_cast_row (hop : x.op.isCast = true) (hb : x.op ≠ .bitcast)
    (h : ∀ i < x.type.numLanes, evalCast x.op t.elemKind x.type.elemKind (y i) = some (z i)) :
    (operationOf x [t]).fold [row x.type.numLanes y] = .ok (some (row x.type.numLanes z)) := by
  rw [fold_cast_eq hop hb]
  refine perLane_row fun i hi => ?_
  rw [at_row hi, Outcome.ok_bind, h i hi]
  rfl

/-- The lane in a place of two rows one behind the other. -/
theorem shuffleLane_rows {m i : Nat} (hi : i < 2 * m) :
    shuffleLane m [row m y, row m z] i = .ok (if i < m then y i else z (i - m)) := by
  have hneg : ¬ ((i : Int) < 0) := by omega
  rw [shuffleLane, if_neg hneg]
  by_cases him : i < m
  · rw [if_pos (Int.ofNat_lt.mpr him), if_pos him]
    exact at_row him
  · have hsub : ((i : Int) - m).toNat = i - m := by omega
    rw [if_neg (mt Int.ofNat_lt.mp him), if_neg him, hsub]
    exact at_row (by omega)

/-- Lanes taken in order out of two rows. -/
theorem fold_shuffle_row (hop : x.op = .shuffle) (hmask : x.mask = some (selectorsFrom off x.type.numLanes))
    (hoff : off + x.type.numLanes ≤ 2 * t.numLanes) :
    (operationOf x [t, t]).fold [row t.numLanes y, row t.numLanes z] =
      .ok (some (row x.type.numLanes fun i =>
        if off + i < t.numLanes then y (off + i) else z (off + i - t.numLanes))) := by
  set w : Nat → UInt64 := fun i =>
    if off + i < t.numLanes then y (off + i) else z (off + i - t.numLanes)
  have hlanes : (selectorsFrom off x.type.numLanes).mapM
      (shuffleLane t.numLanes [row t.numLanes y, row t.numLanes z]) = .ok (row x.type.numLanes w) := by
    rw [selectorsFrom, List.mapM_map]
    refine mapM_row fun i hi => ?_
    exact shuffleLane_rows (by omega)
  have hlength : (selectorsFrom off x.type.numLanes).length = x.type.numLanes := by simp [selectorsFrom]
  have hrow : (row x.type.numLanes w).length = x.type.numLanes := by simp [row]
  simp only [Operation.fold, operationOf, hop, hmask, Op.isBinary, Outcome.at?]
  simp [hlength, hlanes, Operation.fit_of_length hrow]

end SsaJit.Func

namespace SsaJit.Build.Ledger

open Func BuildM

variable {s : Session} {f g : Func} {b : BlockId} {a c : ValueId} {t u : Ty} {n off : Nat}
  {P : regionInterp.State → Prop} {Γ : List Meaning} {x y z : regionInterp.State → Nat → UInt64}

/-- Lanes of another width. -/
theorem cast {o : Op} (hs : s.closed = false) (h : Ledger f b P g Γ) (ho : o ∈ [Op.trunc, .zext, .sext])
    (hrule : castRule? o t u = none) (ha : ⟨a, t, x⟩ ∈ Γ)
    (hval : ∀ st, P st → ∀ i < u.numLanes, evalCast o t.elemKind u.elemKind (x st i) = some (z st i)) :
    Adds s f b P g Γ (BuildM.cast o (.value a) u) .value u z := by
  have hop : o.isCast = true ∧ o ≠ .bitcast ∧ o ≠ .intrinsic ∧ o ≠ .const ∧ o.isBinary = false := by
    simp only [List.mem_cons, List.not_mem_nil, or_false] at ho
    rcases ho with rfl | rfl | rfl <;> decide
  obtain ⟨hcast, hbit, hint, hconst, hbin⟩ := hop
  have hpure : Value.isPure { op := o, type := u, args := [.value a] } = true := by
    simp only [List.mem_cons, List.not_mem_nil, or_false] at ho
    rcases ho with rfl | rfl | rfl <;> rfl
  refine h.compute [⟨a, t, x⟩] hs hpure hint hconst rfl (by simp [ha])
    (by simp [WellTyped, hbin, hcast, hrule]) fun st hst => ?_
  have hlanes : t.numLanes = u.numLanes := castRule?_numLanes hbit hrule
  dsimp only [List.map]
  rw [hlanes]
  exact fold_cast_row hcast hbit (hval st hst)

/-- Lanes taken in order out of two vectors. -/
theorem shuffle (off : Nat) (hs : s.closed = false) (h : Ledger f b P g Γ) (ht : t.isVector = true)
    (hvec : u.isVector = true) (hvalid : u.Valid) (hkind : u.elemKind = t.elemKind)
    (hoff : off + u.numLanes ≤ 2 * t.numLanes) (ha : ⟨a, t, x⟩ ∈ Γ) (hc : ⟨c, t, y⟩ ∈ Γ) :
    Adds s f b P g Γ (shuffleLanes (.value a) (.value c) (selectorsFrom off u.numLanes)) .value u
      fun st i => if off + i < t.numLanes then x st (off + i) else y st (off + i - t.numLanes) := by
  have hlength : (selectorsFrom off u.numLanes).length = u.numLanes := by simp [selectorsFrom]
  have hty : t.withLanes u.numLanes = .ok u := by
    cases u with
    | scalar k => cases hvec
    | vec k n => exact Ty.withLanes_eq hvalid hkind.symm
  have hsel : ∀ m ∈ selectorsFrom off u.numLanes, m < 2 * (t.numLanes : Int) := by
    simp only [selectorsFrom, List.mem_map, List.mem_range, forall_exists_index, and_imp]
    rintro m i hi rfl
    omega
  set i : Value := { op := .shuffle, type := u, args := [.value a, .value c],
                     mask := some (selectorsFrom off u.numLanes) } with hi
  obtain ⟨g', v, hgives, hledger⟩ := h.compute (i := i) [⟨a, t, x⟩, ⟨c, t, y⟩]
    (x := fun st i => if off + i < t.numLanes then x st (off + i) else y st (off + i - t.numLanes))
    hs rfl (by simp [hi]) (by simp [hi]) rfl (by simp [ha, hc]) ⟨t, rfl, ht, hvec, hkind, hlength, hsel⟩
    fun st _ => fold_shuffle_row rfl rfl hoff
  refine ⟨g', v, gives_typeOf.bind ?_, hledger⟩
  rw [h.typed _ ha, hlength, hty]
  exact gives_lift.bind hgives

end SsaJit.Build.Ledger
