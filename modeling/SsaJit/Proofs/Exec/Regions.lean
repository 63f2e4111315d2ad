import SsaJit.Proofs.Bytes
import SsaJit.Proofs.Exec.Lanes

/-! The meaning in which every `alloca` is a zeroed region of its own that only its own pointer leads
to. Loads and stores move the bytes of their type; what is computed from lanes is what folding makes of
it; nothing else has a meaning. -/

namespace SsaJit

/-- What a value is: lanes, or the pointer to the region of an `alloca`. -/
inductive Datum
  | lanes (xs : List UInt64)
  | region (v : ValueId)
  deriving DecidableEq

/-- The lanes of a value that is no pointer. -/
def Datum.lanes? : Datum → Option (List UInt64)
  | .lanes xs => some xs
  | .region _ => none

/-- The arguments of a function and its regions. -/
structure Regions where
  args : List (List UInt64)
  bytes : ValueId → List UInt8

namespace Regions

/-- The lanes at the beginning of a region. -/
def load (m : Regions) (t : Ty) (v : ValueId) : Option (List UInt64) :=
  if t.size ≤ (m.bytes v).length then (lanesOfBytes t ((m.bytes v).take t.size)).toOption else none

/-- Lanes put at the beginning of a region. -/
def store (m : Regions) (t : Ty) (xs : List UInt64) (v : ValueId) : Option Regions := do
  let bs ← (bytesOfLanes t xs).toOption
  if bs.length ≤ (m.bytes v).length then
    some { m with bytes := Function.update m.bytes v (bs ++ (m.bytes v).drop bs.length) }
  else none

/-- What an instruction makes of its operands, if it has a meaning. -/
def exec? (v : ValueId) (y : Value) (ts : List Ty) (xs : List Datum) (m : Regions) :
    Option (Datum × Regions) :=
  match y.op, xs with
  | .param, _ => some (.lanes (m.args.getD y.aux.toNatClampNeg []), m)
  | .alloca, _ =>
    let bytes := Function.update m.bytes v (List.replicate y.aux.toNatClampNeg 0)
    some (.region v, { m with bytes })
  | .load, [.region a] => (m.load y.type a).map fun r => (.lanes r, m)
  | .store, [.lanes x, .region a] => (m.store (ts.headD .void) x a).map fun m' => (.lanes [], m')
  | _, _ => do
    let ls ← xs.mapM Datum.lanes?
    let r ← y.fold? ts ls
    return (.lanes r, m)

end Regions

/-- The meaning of instructions on lanes and regions. A run stops at what has no meaning. -/
abbrev regionInterp : Interp where
  Val := Datum
  Mem := Regions
  Stop := Op
  blank := .lanes []
  const y := .lanes (y.constLanes.getD [])
  exec v y ts xs m := match m.exec? v y ts xs with
    | some r => .ok r
    | none => .error y.op
  holds x := (x.lanes?.getD []).headD 0 != 0
  holds_const _ hop hty := Value.bit_constLanes hop hty

namespace Regions

variable {v a : ValueId} {y : Value} {ts : List Ty} {xs : List Datum} {ls : List (List UInt64)}
  {m : Regions} {r : Datum × Regions} {t : Ty} {w : UInt64}

theorem perform_some {st : regionInterp.State} (hconst : y.op ≠ .const)
    (h : st.mem.exec? v y ts xs = some r) :
    Interp.perform v y ts xs st = .ok (st.assign v y.op r) := by
  rw [Interp.perform, if_neg hconst]
  simp only [h]

theorem perform_const {st : regionInterp.State} (h : y.op = .const) :
    Interp.perform v y ts xs st =
      .ok (st.assign v .const (.lanes (y.constLanes.getD []), st.mem)) := by
  rw [Interp.perform, if_pos h, h]

theorem mapM_lanes? : (ls.map Datum.lanes).mapM Datum.lanes? = some ls := by
  induction ls with
  | nil => rfl
  | cons l ls ih =>
    rw [List.map_cons, List.mapM_cons, ih]
    rfl

theorem region_notMem : Datum.region a ∉ ls.map Datum.lanes := by simp

/-- What is computed from lanes is what folding makes of them. -/
theorem exec?_fold (hparam : y.op ≠ .param) (halloca : y.op ≠ .alloca) :
    m.exec? v y ts (ls.map .lanes) = (y.fold? ts ls).map fun r => (.lanes r, m) := by
  unfold exec?
  split
  · next hop => exact absurd hop hparam
  · next hop => exact absurd hop halloca
  · next a _ hxs =>
    have : Datum.region a ∈ ls.map Datum.lanes := by simp [hxs]
    exact absurd this region_notMem
  · next a _ hxs =>
    have : Datum.region a ∈ ls.map Datum.lanes := by simp [hxs]
    exact absurd this region_notMem
  · rw [mapM_lanes?]
    cases h : y.fold? ts ls with
    | none => simp [h]
    | some r => simp [h]

end Regions

/-! ## Folding of single lanes -/

section scalar

variable {y : Value} {k j : Kind} {a c d r : UInt64} {ts : List Ty}

theorem Value.fold?_of_fold {l : List UInt64} {ls : List (List UInt64)} (hpure : y.isPure = true)
    (hop : y.op ≠ .intrinsic) (h : (Func.operationOf y ts).fold ls = .ok (some l)) :
    y.fold? ts ls = some l :=
  fold?_eq_some.mpr ⟨⟨hpure, hop⟩, h⟩

theorem Operation.fold_cast_scalar {o : Operation} (hop : o.op ∈ [.trunc, .zext, .sext])
    (hty : o.type = .scalar k) (hts : o.operands = [.scalar j])
    (h : evalCast o.op j k a = some r) : o.fold [[a]] = .ok (some [r]) := by
  simp only [List.mem_cons, List.not_mem_nil, or_false] at hop
  rcases hop with hop | hop | hop <;>
  · have hbin : Op.isBinary o.op = false := by rw [hop]; rfl
    have hcast : Op.isCast o.op = true := by rw [hop]; rfl
    rw [hop] at hbin hcast h
    simp [Operation.fold, hop, hbin, hcast, hty, hts, Ty.numLanes, Ty.elemKind, Operation.perLane,
      Outcome.at?, h]

theorem Regions.load_scalar {m : Regions} {v : ValueId} (hk : k.size ≠ 0) (ha : k.cut a = a)
    (hm : m.bytes v = leBytes k.size a) : m.load (.scalar k) v = some [a] := by
  have hsize : Ty.size (.scalar k) = k.size := Nat.one_mul _
  have hread : lanesOfBytes (.scalar k) (leBytes k.size a) = .ok [a] := by
    simp only [lanesOfBytes, readLanes, Ty.elemKind, Ty.numLanes]
    simp [List.take_of_length_le, ofLeBytes_of_canon hk (Kind.canon_of_cut ha), Kind.canon_of_cut ha]
  rw [load, hsize, hm, if_pos (by simp), List.take_of_length_le (by simp), hread]
  rfl

theorem Regions.store_scalar {m : Regions} {v : ValueId} (hm : (m.bytes v).length = k.size) :
    m.store (.scalar k) [a] v =
      some { m with bytes := Function.update m.bytes v (leBytes k.size a) } := by
  have hbytes : bytesOfLanes (.scalar k) [a] = .ok (leBytes k.size a) := by
    simp [bytesOfLanes, Ty.numLanes, Ty.elemKind]
  have hrest : (m.bytes v).drop k.size = [] := by rw [← hm, List.drop_length]
  simp [store, hbytes, Except.toOption, hm, hrest]

end scalar

end SsaJit
