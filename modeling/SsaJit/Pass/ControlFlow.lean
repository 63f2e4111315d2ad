import SsaJit.Pass.Basic

/-! Simplifying control flow: branches with one way out become jumps, unreachable blocks go, phis
with a single source go, and a block that only one jump leads to joins the block that jumps. The
four repeat until none of them finds anything. -/

namespace SsaJit.Func

/-- Do both edges from `b` to `s` bring the same arguments to the phis of `s`? -/
def samePhiArgs (f : Func) (s b : BlockId) : Outcome Bool := do
  match f.predPlaces s b with
  | [i, j] =>
    (f.phisOf s).foldlM (fun same (_, v) => do
      if !same then return false
      return (← .at? v.args i) == (← .at? v.args j)) true
  | _ => return false

/-- Fold the branches whose condition is constant or whose edges are alike. -/
def foldBranches (f : Func) : Optimized :=
  f.layout.foldlM (fun (f, changed) b => do
    let blk := f.block b
    if blk.kind ≠ .branch then return (f, changed)
    let cond ← f.find blk.control
    if cond.isConst then
      return (← f.foldBranch b (if cond.aux ≠ 0 then 0 else 1), true)
    let yes ← .at? blk.succs 0
    let no ← .at? blk.succs 1
    if yes = no then
      if ← f.samePhiArgs yes b then return (← f.foldBranch b 0, true)
    return (f, changed)) (f, false)

/-- The one operand other than itself that a phi takes, given the one found so far; `missing` if
there are several or none. An operand is not allowed to be missing after one was found. -/
def onlySource (id : ValueId) (found : Operand) : List Operand → Operand
  | [] => found
  | o :: rest =>
    if o = .value id ∨ o = found then onlySource id found rest
    else if found = .missing then onlySource id o rest
    else .missing

/-- Replace the phis that have one source. -/
def simplifyPhis (f : Func) : Func × Bool :=
  f.layout.foldl (fun (f, changed) b =>
    (f.block b).values.foldl (fun (f, changed) id =>
      let v := f.value id
      if v.op != .phi || v.block.isNone then (f, changed)
      else match onlySource id .missing v.args with
        | .missing => (f, changed)
        | o => (f.replaceValue id o, true)) (f, changed)) (f, false)

/-- Append block `c` to its only predecessor `b`, which jumps there. -/
def mergeInto (f : Func) (b c : BlockId) : Outcome Func := do
  let f ← (f.block c).values.foldlM (fun f id => do
    let v := f.value id
    if v.op == .phi then return f.replaceValue id (← .at? v.args 0) else return f) f
  let tail := f.block c
  let f := tail.values.foldl (fun f id => f.modifyValue id fun v => { v with block := some b }) f
  let f := f.modifyBlock b fun blk => { blk with
    values := blk.values ++ tail.values, kind := tail.kind, control := tail.control,
    succs := tail.succs }
  let f := tail.succs.foldl (fun f s => f.modifyBlock s fun blk => { blk with
    preds := blk.preds.map fun p => if p = c then b else p }) f
  let f := f.modifyBlock c fun blk => { blk with
    values := [], succs := [], preds := [], control := .missing, kind := .pending }
  return f.removeBlock c

/-- Merge every block that one jump leads to. -/
def mergeBlocks (f : Func) : Optimized :=
  f.layout.foldlM (fun (f, changed) c => do
    if c = (← f.entry) then return (f, changed)
    match (f.block c).preds with
    | [b] =>
      if b = c ∨ (f.block b).kind ≠ .jump then return (f, changed)
      return (← f.mergeInto b c, true)
    | _ => return (f, changed)) (f, false)

/-- All four steps once. -/
def controlFlowRound (f : Func) : Optimized := do
  let (f, folded) ← f.foldBranches
  let (f, removed) ← f.removeUnreachable
  let (f, phis) := f.simplifyPhis
  let (f, merged) ← f.mergeBlocks
  return (f, folded || removed || phis || merged)

/-- Rounds until one changes nothing. -/
def controlFlowRounds : Nat → Func → Bool → Optimized
  | 0, f, changed => .ok (f, changed)
  | fuel + 1, f, changed => do
    let (f, more) ← f.controlFlowRound
    if more then controlFlowRounds fuel f true else return (f, changed)

/-- Simplify control flow. Each round that changes something leaves fewer branches, phis or blocks,
so their number bounds the rounds. -/
def simplifyControlFlow (f : Func) : Optimized :=
  controlFlowRounds (2 * f.numBlocks + f.numValues + 1) f false

end SsaJit.Func
