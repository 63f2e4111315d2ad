import SsaJit.Pass.Basic
import SsaJit.Graph.Dominance

/-! Promoting stack slots to values. A slot that is only ever read and written whole, at one type and
not by volatile accesses, is replaced by the values written to it: phis go where the dominance of a
write ends, and a walk down the dominator tree puts the current value for every read. A read before
any write gives zero. -/

namespace SsaJit.Func

/-- The type at which one operand position uses a slot; `none` if that use forbids promotion. -/
def slotUse (f : Func) (slot : ValueId) (v : Value) (i : Nat) : Outcome (Option Ty) := do
  if v.op = .load ∧ !v.volatile then return some v.type
  else if v.op = .store ∧ !v.volatile ∧ i = 1 ∧ v.args.head? ≠ some (.value slot) then
    return some (← f.argument v 0).type
  else return none

/-- The types of the uses of a slot joined with the one found so far: `none` if some use forbids
promotion or the types differ. -/
def slotUses (f : Func) (slot : ValueId) (v : Value) :
    List (Operand × Nat) → Option Ty → Outcome (Option (Option Ty))
  | [], found => .ok (some found)
  | (o, i) :: rest, found => do
    if o ≠ .value slot then slotUses f slot v rest found
    else match ← f.slotUse slot v i, found with
      | none, _ => return none
      | some t, none => slotUses f slot v rest (some t)
      | some t, some t' => if t = t' then slotUses f slot v rest found else return none

/-- The type at which all uses of a slot agree, if it can be promoted. -/
def promotable? (f : Func) (slot : ValueId) : Outcome (Option Ty) := do
  let found ← f.layout.foldlM (fun (found : Option (Option Ty)) b => do
    match found with
    | none => return none
    | some _ =>
      if (f.block b).control = .value slot then return none
      else (f.valuesOf b).foldlM (fun found (_, v) => do
        match found with
        | none => return none
        | some t => f.slotUses slot v v.args.zipIdx t) found) (some none)
  match found with
  | some (some t) => return if (f.value slot).aux.toInt < t.size then none else some t
  | _ => return none

/-- Does the value write to the slot? -/
def writesSlot (slot : ValueId) (v : Value) : Outcome Bool := do
  if v.op ≠ .store then return false
  return (← .at? v.args 1) == .value slot

/-- Does the value read the slot? -/
def readsSlot (slot : ValueId) (v : Value) : Outcome Bool := do
  if v.op ≠ .load then return false
  return (← .at? v.args 0) == .value slot

/-- Blocks that write to the slot, in layout order. -/
def writingBlocks (f : Func) (slot : ValueId) : Outcome (List BlockId) :=
  f.layout.filterM fun b =>
    (f.valuesOf b).foldlM (fun found (_, v) => return found || (← writesSlot slot v)) false

/-- Phis placed so far, by block. -/
abbrev PlacedPhis := List (BlockId × ValueId)

/-- Place phis at the frontiers of the blocks waiting in `work`, last one first; a block that gets a
phi defines the slot as well. -/
def placePhis (t : Ty) (entry : BlockId) (df : Array (List BlockId)) :
    Nat → Func → PlacedPhis → List BlockId → List BlockId → Outcome (Func × PlacedPhis)
  | 0, f, phis, _, _ => .ok (f, phis)
  | _, f, phis, _, [] => .ok (f, phis)
  | fuel + 1, f, phis, defs, b :: work => do
    let (f, phis, defs, work) ← (df.getD b []).foldlM (fun (f, phis, defs, work) d => do
      if (phis.lookup d).isSome || d = entry then return (f, phis, defs, work)
      let args := List.replicate (f.block d).preds.length .missing
      let (f, phi) ← f.insertValue d 0 { op := .phi, type := t, args }
      if defs.contains d then return (f, (d, phi) :: phis, defs, work)
      return (f, (d, phi) :: phis, d :: defs, d :: work)) (f, phis, defs, work)
    placePhis t entry df fuel f phis defs work

/-- Put an operand at the argument places of a phi that belong to one predecessor. -/
def setPhiArgs (f : Func) (s : BlockId) (phi : ValueId) (p : BlockId) (o : Operand) : Func :=
  let places := f.predPlaces s p
  f.modifyValue phi fun v => { v with args := v.args.mapIdx fun i a => if places.contains i then o else a }

/-- Put current values for the reads of one block. The answer also has the value current at its end
and the accesses that are dead now. -/
def renameBlock (slot : ValueId) (f : Func) (cur : Operand) (b : BlockId) :
    Outcome (Func × Operand × List ValueId) :=
  (f.block b).values.foldlM (fun (f, cur, dead) id => do
    let v := f.value id
    if ← readsSlot slot v then return (f.replaceUses (.value id) cur, cur, dead ++ [id])
    if ← writesSlot slot v then return (f, ← .at? v.args 0, dead ++ [id])
    return (f, cur, dead)) (f, cur, [])

/-- Put current values for the reads of a block and of those it dominates. -/
def renameTree (slot : ValueId) (dom : DomTree) (phis : PlacedPhis) :
    Nat → Func → Operand → BlockId → Outcome (Func × List ValueId)
  | 0, f, _, _ => .ok (f, [])
  | fuel + 1, f, cur, b => do
    let cur := match phis.lookup b with
      | some phi => .value phi
      | none => cur
    let (f, cur, dead) ← renameBlock slot f cur b
    let f := (f.block b).succs.foldl (fun f s =>
      match phis.lookup s with
      | some phi => f.setPhiArgs s phi b cur
      | none => f) f
    (dom.childrenOf b).foldlM (fun (f, dead) c => do
      let (f, more) ← renameTree slot dom phis fuel f cur c
      return (f, dead ++ more)) (f, dead)

/-- Replace one slot by the values written to it. -/
def promoteSlot (f : Func) (dom : DomTree) (df : Array (List BlockId)) (slot : ValueId) (t : Ty) :
    Outcome Func := do
  let entry ← f.entry
  let (f, blank) ← f.insertConst entry (f.firstNonPhi entry) t (splat t 0)
  let defs ← f.writingBlocks slot
  let (f, phis) ← placePhis t entry df (f.numBlocks + 1) f [] defs defs.reverse
  let (f, dead) ← renameTree slot dom phis (f.numBlocks + 1) f (.value blank) entry
  let f := phis.foldl (fun f (_, phi) => f.modifyValue phi fun v => { v with
    args := v.args.map fun o => if o = .missing then .value blank else o }) f
  let f ← dead.foldlM (fun f id => do
    return f.removeValue (← .need (f.value id).block) id) f
  return f.removeValue entry slot

/-- Promote every slot that can be. -/
def promote (f : Func) : Optimized := do
  let (f, changed) ← f.removeUnreachable
  let entry ← f.entry
  let slots := ((f.valuesOf entry).filter fun (_, v) => v.op == .alloca).map (·.1)
  if slots.isEmpty then return (f, changed)
  let dom ← f.domTree
  let df := f.frontiers dom
  slots.foldlM (fun (f, changed) slot => do
    match ← f.promotable? slot with
    | none => return (f, changed)
    | some t => return (← f.promoteSlot dom df slot t, true)) (f, changed)

end SsaJit.Func
