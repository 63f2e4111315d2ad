import SsaJit.Proofs.Exec.Regions
import SsaJit.Proofs.Lower.Pieces

/-! The meaning of instructions on one processor: an intrinsic is the vector instruction that the
processor has for it, all else is as on every processor. -/

/-! ## Lanes in registers

What was put in is read back, as far as it fits, and instructions on lanes compute on what was put in. -/

namespace SsaJit.X86

open Lower

variable {k j : Kind} {n : Nat} {ls xs ys : List UInt64}

theorem piece_flatMap {w i : Nat} (hi : i < ls.length) :
    piece w (ls.flatMap (leBytes w)) i = leBytes w (ls.getD i 0) := by
  induction ls generalizing i with
  | nil => exact absurd hi (Nat.not_lt_zero i)
  | cons a ls ih =>
    rw [List.flatMap_cons, piece]
    cases i with
    | zero => simp
    | succ i =>
      have hdrop : (leBytes w a ++ ls.flatMap (leBytes w)).drop ((i + 1) * w) =
          (ls.flatMap (leBytes w)).drop (i * w) := by
        rw [Nat.succ_mul, Nat.add_comm, ← List.drop_drop, List.drop_left' (length_leBytes w a)]
      rw [hdrop]
      exact ih (Nat.lt_of_succ_lt_succ hi)

/-- The lanes of a register are those that were put in. -/
theorem lanes_ofLanes (hk : k.size ≠ 0) (h1 : k ≠ .i1) (hlen : ls.length = 16 / k.size) :
    (Xmm.ofLanes k ls).lanes k = ls.map k.canon := by
  have hwide := wide_of_size hk
  have hbytes : (ls.flatMap (leBytes k.size)).length = 16 := by
    rw [length_bytes, hlen, hwide.fills]
  rw [Xmm.ofLanes, Xmm.lanes, bytes_ofBytes hbytes, ← hlen]
  refine List.ext_getElem (by simp) fun i hi hi' => ?_
  have hlt : i < ls.length := by simpa using hi
  have hlane : piece k.size (ls.flatMap (leBytes k.size)) i = leBytes k.size ls[i] := by
    rw [piece_flatMap hlt, List.getD_eq_getElem _ _ hlt]
  rw [List.getElem_map, List.getElem_map, List.getElem_range]
  exact (congrArg ofLeBytes hlane).trans (ofLeBytes_lane hk h1 _)

/-- Lanes that fit are the same in a register. -/
theorem lanes_ofLanes_of_canon (hk : k.size ≠ 0) (h1 : k ≠ .i1) (hlen : ls.length = 16 / k.size)
    (h : ∀ w ∈ ls, k.canon w = w) : (Xmm.ofLanes k ls).lanes k = ls := by
  rw [lanes_ofLanes hk h1 hlen]
  exact (List.map_congr_left h).trans (List.map_id _)

/-- An instruction on the lanes of two registers. -/
theorem lanes_zip (hk : k.size ≠ 0) (h1 : k ≠ .i1) (g : UInt64 → UInt64 → UInt64)
    (hx : xs.length = 16 / k.size) (hy : ys.length = 16 / k.size) (hxs : ∀ w ∈ xs, k.canon w = w)
    (hys : ∀ w ∈ ys, k.canon w = w) :
    (Xmm.zip k g (.ofLanes k xs) (.ofLanes k ys)).lanes k = (List.zipWith g xs ys).map k.canon := by
  rw [Xmm.zip, lanes_ofLanes_of_canon hk h1 hx hxs, lanes_ofLanes_of_canon hk h1 hy hys]
  exact lanes_ofLanes hk h1 (by rw [List.length_zipWith, hx, hy, Nat.min_self])

/-- An instruction that packs the lanes of two registers in half the width. -/
theorem lanes_pack (hk : k.size ≠ 0) (h1 : k ≠ .i1) (hj : j.size ≠ 0) (h1' : j ≠ .i1)
    (hsize : 2 * j.size = k.size) (clamp : Kind → Int → UInt64) (hx : xs.length = 16 / k.size)
    (hy : ys.length = 16 / k.size) (hxs : ∀ w ∈ xs, k.canon w = w) (hys : ∀ w ∈ ys, k.canon w = w) :
    (SseOp.pack k j clamp (.ofLanes k xs) (.ofLanes k ys)).lanes j =
      (xs ++ ys).map fun w => j.canon (clamp j (k.signExtend w).toInt) := by
  have hlen : 16 / k.size + 16 / k.size = 16 / j.size := by
    rcases wide_of_size hj with h | h | h | h <;> rw [← hsize, h]
  rw [SseOp.pack, lanes_ofLanes_of_canon hk h1 hx hxs, lanes_ofLanes_of_canon hk h1 hy hys,
    lanes_ofLanes hj h1' (by rw [List.length_map, List.length_append, hx, hy, hlen]), List.map_map]
  rfl

end SsaJit.X86

/-! ## Intrinsics -/

namespace SsaJit

namespace Lower.Features

open X86

/-- What the instruction for an intrinsic makes of lanes, if the processor has one. The registers begin
with the lanes of the operands; an only operand is in both. -/
def compute? (cpu : Features) (id : Intrinsic) (t u : Ty) (xs : List (List UInt64)) :
    Option (List UInt64) := do
  let (op, imm) ← cpu.intrinsic? id t
  let x ← xs.head?
  let z ← op.apply (imm.getD 0) (.ofLanes t.elemKind x) (.ofLanes t.elemKind (xs.getD 1 x))
  return (z.lanes u.elemKind).take u.numLanes

variable {cpu : Features} {id : Intrinsic} {t u : Ty} {xs ys : List UInt64} {op : SseOp}

theorem compute?_eq_some {imm : Option UInt8} {z : Xmm} (hop : cpu.intrinsic? id t = some (op, imm))
    (hz : op.apply (imm.getD 0) (.ofLanes t.elemKind xs) (.ofLanes t.elemKind ys) = some z) :
    cpu.compute? id t u [xs, ys] = some ((z.lanes u.elemKind).take u.numLanes) := by
  simp [compute?, hop, hz]

theorem Fits.register (ht : t.size = 16) (hx : t.Fits xs) :
    xs.length = 16 / t.elemKind.size ∧ ∀ w ∈ xs, t.elemKind.canon w = w := by
  refine ⟨?_, fun w hw => Kind.canon_of_cut (hx.2 w hw)⟩
  have hpos : 0 < t.elemKind.size := Nat.pos_of_ne_zero fun h => by simp [Ty.size, h] at ht
  rw [hx.1, ← ht, Ty.size, Nat.mul_div_cancel _ hpos]

/-- An intrinsic that computes lane by lane. -/
theorem compute?_zip {g : UInt64 → UInt64 → UInt64} (hop : cpu.intrinsic? id t = some (op, none))
    (hg : ∀ x y, op.apply 0 x y = some (Xmm.zip t.elemKind g x y)) (hsize : t.size = 16)
    (ht : t.elemKind ≠ .i1) (hx : t.Fits xs) (hy : t.Fits ys) :
    cpu.compute? id t t [xs, ys] = some ((List.zipWith g xs ys).map t.elemKind.canon) := by
  obtain ⟨hxlen, hxs⟩ := Fits.register hsize hx
  obtain ⟨hylen, hys⟩ := Fits.register hsize hy
  have hk : t.elemKind.size ≠ 0 := fun h => by simp [Ty.size, h] at hsize
  have hlen : ((List.zipWith g xs ys).map t.elemKind.canon).length ≤ t.numLanes := by
    rw [List.length_map, List.length_zipWith, hx.1, hy.1, Nat.min_self]
  rw [compute?_eq_some hop (hg _ _), lanes_zip hk ht g hxlen hylen hxs hys, List.take_of_length_le hlen]

/-- An intrinsic that packs lanes into half their width. -/
theorem compute?_pack {clamp : Kind → Int → UInt64} (hop : cpu.intrinsic? id t = some (op, none))
    (hg : ∀ x y, op.apply 0 x y = some (SseOp.pack t.elemKind u.elemKind clamp x y)) (hsize : t.size = 16)
    (ht : t.elemKind ≠ .i1) (hu : u.elemKind.size ≠ 0) (hu1 : u.elemKind ≠ .i1)
    (hwidth : 2 * u.elemKind.size = t.elemKind.size) (hlanes : u.numLanes = 2 * t.numLanes)
    (hx : t.Fits xs) (hy : t.Fits ys) : cpu.compute? id t u [xs, ys] =
      some ((xs ++ ys).map fun w => u.elemKind.canon (clamp u.elemKind (t.elemKind.signExtend w).toInt)) := by
  obtain ⟨hxlen, hxs⟩ := Fits.register hsize hx
  obtain ⟨hylen, hys⟩ := Fits.register hsize hy
  have hk : t.elemKind.size ≠ 0 := fun h => by simp [Ty.size, h] at hsize
  set zs := (xs ++ ys).map fun w => u.elemKind.canon (clamp u.elemKind (t.elemKind.signExtend w).toInt)
  have hlen : zs.length ≤ u.numLanes := by
    rw [List.length_map, List.length_append, hx.1, hy.1, hlanes, Nat.two_mul]
  rw [compute?_eq_some hop (hg _ _), lanes_pack hk ht hu hu1 hwidth clamp hxlen hylen hxs hys,
    List.take_of_length_le hlen]

end Lower.Features

namespace Lower

open X86

/-- What the instructions of an intrinsic make of two lanes, if they go by lanes. -/
def laneMeaning (k : Kind) : Intrinsic → Option (UInt64 → UInt64 → UInt64)
  | .addSatS => some (SseOp.signedSat k (· + ·))
  | .addSatU => some (SseOp.unsignedSat k (· + ·))
  | .subSatS => some (SseOp.signedSat k (· - ·))
  | .subSatU => some (SseOp.unsignedSat k (· - ·))
  | .mulHighS => some fun p q => (Kind.signExtend .i16 p * Kind.signExtend .i16 q).toUInt64 >>> 16
  | .mulHighU => some fun p q => (p * q) >>> 16
  | .avgU => some fun p q => (p + q + 1) >>> 1
  | _ => none

variable {cpu : Features} {id : Intrinsic} {t : Ty} {k j : Kind} {vector : Bool}
  {i : SseOp × Option UInt8}

theorem intrinsicOp_lanes {g : UInt64 → UInt64 → UInt64} (h : intrinsicOp id k vector = some i)
    (hg : laneMeaning k id = some g) : vector = true ∧ i.2 = none ∧ (k = .i8 ∨ k = .i16) ∧
      ∀ x y, i.1.apply 0 x y = some (Xmm.zip k g x y) := by
  unfold intrinsicOp at h
  split at h <;> first
    | cases h
      first
        | cases hg
          exact ⟨rfl, rfl, by decide, fun _ _ => rfl⟩
        | simp [laneMeaning] at hg
    | cases h

/-- Only products of sixteen bits have an instruction. -/
theorem intrinsicOp_high {signed : Bool}
    (h : intrinsicOp (if signed then .mulHighS else .mulHighU) k vector = some i) : k = .i16 := by
  cases signed <;> cases k <;> cases vector <;> simp [intrinsicOp] at h <;> rfl

/-- The saturated patterns of the instructions that pack lanes. -/
def packClamp (signed : Bool) : Kind → Int → UInt64 := if signed then clampSigned else clampUnsigned

theorem intrinsicOp_packs {signed : Bool}
    (h : intrinsicOp (if signed then .packSS else .packUS) k vector = some i) (hj : j.isInt = true)
    (hne : j ≠ .i1) (hsize : 2 * j.size = k.size) : vector = true ∧ i.2 = none ∧ k ≠ .i1 ∧
      ∀ x y, i.1.apply 0 x y = some (SseOp.pack k j (packClamp signed) x y) := by
  cases signed <;> cases k <;> cases vector <;> simp [intrinsicOp] at h <;>
    cases j <;> simp_all [Kind.isInt, Kind.size] <;> (subst h; simp [SseOp.apply, packClamp])

/-- A processor that has an intrinsic has an instruction for it, on whole registers if on vectors. -/
theorem Features.intrinsic?_of_supports (h : cpu.supports id t = true) : ∃ i,
    cpu.intrinsic? id t = some i ∧ intrinsicOp id t.elemKind t.isVector = some i ∧
      (t.isVector = true → t.size = 16) := by
  obtain ⟨i, hi⟩ := Option.isSome_iff_exists.mp h
  refine ⟨i, hi, ?_⟩
  unfold Features.intrinsic? at hi
  split at hi
  case h_1 => cases hi
  case h_2 i' hop =>
    rw [Option.ite_none_left_eq_some] at hi
    obtain ⟨hallowed, hsome⟩ := hi
    obtain rfl := Option.some.inj hsome
    refine ⟨hop, fun hvec => ?_⟩
    simp only [hvec, Bool.true_and, Bool.or_eq_true, bne_iff_ne, not_or, not_not] at hallowed
    exact hallowed.1

end Lower

/-- The meaning of instructions on lanes and regions, where intrinsics are instructions of `cpu`. -/
abbrev processorInterp (cpu : Lower.Features) : Interp :=
  { regionInterp with
    exec := fun v y ts xs m =>
      if y.op = .intrinsic then
        match (xs.mapM Datum.lanes?).bind (cpu.compute? y.intrinsic (ts.headD .void) y.type) with
        | some r => .ok (.lanes r, m)
        | none => .error y.op
      else regionInterp.exec v y ts xs m }

variable {cpu : Lower.Features} {st st' : regionInterp.State} {F : Func} {v : ValueId} {y : Value}

/-- The same values and memory, on a processor. -/
def Interp.State.onto (cpu : Lower.Features) (st : regionInterp.State) : (processorInterp cpu).State :=
  ⟨st.env, st.mem⟩

namespace Regions

/-- What has a meaning on every processor is no intrinsic. -/
theorem ne_intrinsic {ts : List Ty} {xs : List Datum} {m : Regions} {r : Datum × Regions}
    (h : m.exec? v y ts xs = some r) : y.op ≠ .intrinsic := by
  rintro hop
  have hfold : ∀ ls, y.fold? ts ls = none := fun ls => by simp [Value.fold?, hop]
  unfold exec? at h
  rw [hop] at h
  cases hls : xs.mapM Datum.lanes? with
  | none => simp [hls] at h
  | some ls => simp [hls, hfold] at h

end Regions

namespace Interp

/-- An instruction that has a meaning on every processor does the same on one. -/
theorem perform_onto {ts : List Ty} {xs : List Datum} (h : perform v y ts xs st = .ok st') :
    perform v y ts xs (st.onto cpu) = .ok (st'.onto cpu) := by
  unfold perform at h ⊢
  by_cases hconst : y.op = .const
  · rw [if_pos hconst] at h ⊢
    obtain rfl := Except.ok.inj h
    rfl
  · rw [if_neg hconst] at h ⊢
    dsimp only at h
    cases hx : st.mem.exec? v y ts xs with
    | none => simp [hx] at h
    | some r =>
      simp only [hx] at h
      obtain rfl := Except.ok.inj h
      have hop := Regions.ne_intrinsic hx
      simp only [if_neg hop, State.onto, hx]
      rfl

end Interp

namespace Func

/-- A value that is computed on every processor is computed in the same way on one. -/
theorem exec_onto (h : F.exec st v = .ok st') : F.exec (st.onto cpu) v = .ok (st'.onto cpu) := by
  unfold exec at h ⊢
  by_cases hphi : (F.value v).op = .phi
  · rw [if_pos hphi] at h ⊢
    obtain rfl := Except.ok.inj h
    rfl
  · rw [if_neg hphi] at h ⊢
    exact Interp.perform_onto h

/-- What runs on every processor runs in the same way on one. -/
theorem foldlM_onto {l : List ValueId} (h : l.foldlM F.exec st = .ok st') :
    l.foldlM F.exec (st.onto cpu) = .ok (st'.onto cpu) := by
  induction l generalizing st with
  | nil =>
    obtain rfl := Except.ok.inj h
    rfl
  | cons v l ih =>
    rw [List.foldlM_cons] at h ⊢
    cases hv : F.exec st v with
    | error e => rw [hv] at h; cases h
    | ok st₁ =>
      rw [hv] at h
      rw [exec_onto hv]
      exact ih h

end Func

end SsaJit
