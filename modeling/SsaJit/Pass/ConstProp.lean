import SsaJit.Pass.Basic

/-! Constant propagation along the edges that can be taken. Every value starts unknown, becomes a
constant when it has one value on all ways found so far, and varies otherwise; a block counts only
once an edge to it can be taken. Values found constant are replaced and branches on them folded. -/

namespace SsaJit.Func

/-- What is known of a value. -/
inductive Fact
  | unknown
  | const (lanes : List UInt64)
  | varies
  deriving DecidableEq, Repr, Inhabited

/-- What is known from two sources. -/
def Fact.join : Fact → Fact → Fact
  | .unknown, b => b
  | a, .unknown => a
  | .const a, .const b => if a = b then .const a else .varies
  | _, _ => .varies

/-- Whether two facts are alike but for the constant's lanes. -/
def Fact.sameSort : Fact → Fact → Bool
  | .unknown, .unknown | .const _, .const _ | .varies, .varies => true
  | _, _ => false

/-- Facts by number, and the blocks found executable. -/
structure Facts where
  values : Array Fact
  executable : List BlockId

/-- What is known of an operand. -/
def Facts.of (f : Func) (s : Facts) (o : Operand) : Outcome Fact := do
  match s.values[(← f.number o)]? with
  | some fact => return fact
  | none => .crash .outOfRange

/-- The edge a constant condition takes. -/
def takenEdge (lanes : List UInt64) : Outcome Nat := do
  return if (← .at? lanes 0) ≠ 0 then 0 else 1

/-- Successors that control can go to from a block, as far as is known. -/
def Facts.feasible (f : Func) (s : Facts) (b : BlockId) : Outcome (List BlockId) := do
  let blk := f.block b
  match blk.kind with
  | .jump => return blk.succs
  | .branch =>
    match ← s.of f blk.control with
    | .unknown => return []
    | .varies => return blk.succs
    | .const lanes =>
      if (← takenEdge lanes) = 0 then return [← .at? blk.succs 0]
      else if blk.succs.isEmpty then .crash .outOfRange
      else return blk.succs.tail
  | _ => return []

/-- Can control go from `p` to `b`, as far as is known? -/
def Facts.edgeTaken (f : Func) (s : Facts) (p b : BlockId) : Outcome Bool := do
  if !s.executable.contains p then return false
  return (← s.feasible f p).contains b

/-- The facts about a value's operands: the lanes if all are constant, else the fact that decides. -/
def Facts.operands (f : Func) (s : Facts) : List Operand → Outcome (Except Fact (List (List UInt64)))
  | [] => .ok (.ok [])
  | o :: rest => do
    match ← s.of f o with
    | .const lanes =>
      match ← s.operands f rest with
      | .ok more => return .ok (lanes :: more)
      | .error fact => return .error fact
    | fact => return .error fact

/-- What is known of a value from the facts about its operands. -/
def Facts.eval (f : Func) (s : Facts) (v : Value) : Outcome Fact := do
  match v.op with
  | .const => return .const (v.constLanes.getD [])
  | .phi =>
    v.args.zipIdx.foldlM (fun fact (o, i) => do
      let b ← .need v.block
      if ← s.edgeTaken f (← .at? (f.block b).preds i) b then return fact.join (← s.of f o)
      return fact) .unknown
  | .param | .load | .store | .call | .alloca | .intrinsic | .globalAddr => return .varies
  | _ =>
    if v.volatile || v.type.isVoid then return .varies
    match ← s.operands f v.args with
    | .error fact => return fact
    | .ok args =>
      match ← (← f.operation v).fold args with
      | some lanes => return .const lanes
      | none => return .varies

/-- Learn about one value. -/
def Facts.learn (f : Func) (s : Facts) (id : ValueId) : Outcome (Facts × Bool) := do
  let old := s.values.getD id .unknown
  if old = .varies then return (s, false)
  let new := old.join (← s.eval f (f.value id))
  if new.sameSort old then return (s, false)
  return ({ s with values := s.values.setIfInBounds id new }, true)

/-- Learn about one block and the blocks control can go to from it. -/
def Facts.visit (f : Func) (s : Facts) (b : BlockId) : Outcome (Facts × Bool) := do
  if !s.executable.contains b then return (s, false)
  let (s, changed) ← (f.block b).values.foldlM (fun (s, changed) id => do
    let (s, more) ← s.learn f id
    return (s, changed || more)) (s, false)
  return (← s.feasible f b).foldl (fun (s, changed) t =>
    if s.executable.contains t then (s, changed)
    else ({ s with executable := t :: s.executable }, true)) (s, changed)

/-- Visit all blocks again and again until nothing new is learnt. -/
def Facts.close (f : Func) (rpo : List BlockId) : Nat → Facts → Outcome Facts
  | 0, s => .ok s
  | fuel + 1, s => do
    let (s, changed) ← rpo.foldlM (fun (s, changed) b => do
      let (s, more) ← s.visit f b
      return (s, changed || more)) (s, false)
    if changed then Facts.close f rpo fuel s else return s

/-- All that can be learnt. A value's fact changes at most twice and a block becomes executable once,
which bounds the rounds. -/
def facts (f : Func) : Outcome Facts := do
  let start : Facts := { values := Array.replicate f.numValues .unknown, executable := [← f.entry] }
  Facts.close f (← f.reversePostOrder) (2 * f.numValues + f.numBlocks + 1) start

/-- The branches on constants in executable blocks, with the edges they take. -/
def constBranches (f : Func) (s : Facts) : Outcome (List (BlockId × Nat)) :=
  f.layout.foldlM (fun folds b => do
    if (f.block b).kind ≠ .branch || !s.executable.contains b then return folds
    match ← s.of f (f.block b).control with
    | .const lanes => return folds ++ [(b, ← takenEdge lanes)]
    | _ => return folds) []

/-- Replace the values found constant in one block; constants for phis go behind the phis. -/
def substituteBlock (s : Facts) (f : Func) (b : BlockId) : Optimized :=
  (f.block b).values.foldlM (fun (f, changed) id => do
    let v := f.value id
    match s.values.getD id .unknown with
    | .const lanes =>
      if v.op = .const ∨ (!v.isPure ∧ v.op ≠ .phi) then return (f, changed)
      let place : Int := if v.op = .phi then f.firstNonPhi b else f.indexIn b id
      let (f, c) ← f.insertConst b place v.type lanes
      return (f.replaceValue id (.value c), true)
    | _ => return (f, changed)) (f, false)

/-- Propagate constants. -/
def propagateConstants (f : Func) : Optimized := do
  let s ← f.facts
  let folds ← f.constBranches s
  let (f, changed) ← f.layout.foldlM (fun (f, changed) b => do
    if !s.executable.contains b then return (f, changed)
    let (f, more) ← substituteBlock s f b
    return (f, changed || more)) (f, false)
  let (f, changed) ← f.layout.foldlM (fun (f, changed) b => do
    match folds.lookup b with
    | some k => return (← f.foldBranch b k, true)
    | none => return (f, changed)) (f, changed)
  let (f, removed) ← f.removeUnreachable
  return (f, changed || removed)

end SsaJit.Func
