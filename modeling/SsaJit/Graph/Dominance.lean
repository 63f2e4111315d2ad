import SsaJit.Graph.Order

/-! The dominator tree. Immediate dominators start unknown and are improved block by block in
reverse postorder: a block's dominator is the nearest common ancestor, in the tree so far, of the
predecessors that have one, until a round changes nothing. -/

namespace SsaJit

/-- Immediate dominators of the reachable blocks; the entry is its own. -/
structure DomTree where
  /-- Reachable blocks in reverse postorder. -/
  rpo : List BlockId
  /-- Places in reverse postorder. -/
  order : Array (Option Nat)
  idom : Array (Option BlockId)
  children : Array (List BlockId)
  deriving Repr, Inhabited

namespace DomTree

def isReachable (t : DomTree) (b : BlockId) : Bool := (t.order.getD b none).isSome

/-- The immediate dominator, which the entry does not have. -/
def idom? (t : DomTree) (b : BlockId) : Option BlockId :=
  match t.idom.getD b none with
  | some d => if d = b then none else some d
  | none => none

def childrenOf (t : DomTree) (b : BlockId) : List BlockId := t.children.getD b []

/-- A block and its dominators, nearest first, up to a length. -/
def chain (t : DomTree) : Nat → BlockId → List BlockId
  | 0, _ => []
  | fuel + 1, b => b :: match t.idom? b with
    | some d => t.chain fuel d
    | none => []

/-- A block and its dominators, nearest first. -/
def dominators (t : DomTree) (b : BlockId) : List BlockId := t.chain t.idom.size b

/-- Does every path from the entry to `b` pass through `a`? False if either is unreachable. -/
def dominates (t : DomTree) (a b : BlockId) : Bool :=
  t.isReachable a && t.isReachable b && (t.dominators b).contains a

end DomTree

namespace Func

/-- The nearest common ancestor of two blocks of the tree so far: the one later in reverse postorder
steps up until they meet. -/
def meetUp (order : Array (Option Nat)) (idom : Array (Option BlockId)) :
    Nat → BlockId → BlockId → Outcome BlockId
  | 0, _, _ => .crash .absent
  | fuel + 1, a, b =>
    if a = b then .ok a
    else
      match order.getD a none, order.getD b none with
      | some i, some j =>
        if j < i then do meetUp order idom fuel (← .need (idom.getD a none)) b
        else do meetUp order idom fuel a (← .need (idom.getD b none))
      | _, _ => .crash .absent

/-- What the predecessors of a block make of its immediate dominator. -/
def improvedIdom (f : Func) (order : Array (Option Nat)) (idom : Array (Option BlockId))
    (b : BlockId) : Outcome (Option BlockId) :=
  (f.block b).preds.foldlM (fun best p =>
    if (order.getD p none).isNone || (idom.getD p none).isNone then .ok best
    else match best with
      | none => .ok (some p)
      | some d => some <$> meetUp order idom (2 * f.numBlocks + 1) p d) none

/-- Improve every block once; also whether anything changed. -/
def idomRound (f : Func) (order : Array (Option Nat)) (blocks : List BlockId)
    (idom : Array (Option BlockId)) : Outcome (Array (Option BlockId) × Bool) :=
  blocks.foldlM (fun (idom, changed) b => do
    match ← f.improvedIdom order idom b with
    | none => return (idom, changed)
    | some d =>
      if idom.getD b none = some d then return (idom, changed)
      else return (idom.setIfInBounds b (some d), true)) (idom, false)

/-- Rounds until nothing changes. -/
def idomFix (f : Func) (order : Array (Option Nat)) (blocks : List BlockId) :
    Nat → Array (Option BlockId) → Outcome (Array (Option BlockId))
  | 0, idom => .ok idom
  | fuel + 1, idom => do
    let (idom, changed) ← f.idomRound order blocks idom
    if changed then idomFix f order blocks fuel idom else return idom

/-- The dominator tree. A dominator only ever moves towards the entry, so the square of the number of
blocks bounds the rounds. -/
def domTree (f : Func) : Outcome DomTree := do
  let entry ← f.entry
  let rpo := f.reversePostOrderFrom entry
  let n := f.numBlocks
  let order := (rpo.zipIdx).foldl (fun (a : Array (Option Nat)) (b, i) =>
    a.setIfInBounds b (some i)) (Array.replicate n none)
  let start := (Array.replicate n none).setIfInBounds entry (some entry)
  let idom ← f.idomFix order rpo.tail (n * n + n + 1) start
  let children := rpo.tail.foldl (fun (c : Array (List BlockId)) b =>
    match idom.getD b none with
    | some d => c.modify d (· ++ [b])
    | none => c) (Array.replicate n [])
  return { rpo, order, idom, children }

/-- Enter `b` into the frontiers of the blocks from `r` up to `stop`, which is left out. -/
def climbFrontier (t : DomTree) (stop : Option BlockId) (b : BlockId) (r : BlockId)
    (df : Array (List BlockId)) : Array (List BlockId) :=
  ((t.dominators r).takeWhile fun x => some x != stop).foldl (fun df x =>
    df.modify x fun l => if l.contains b then l else l ++ [b]) df

/-- Dominance frontiers: where the dominance of each block ends. -/
def frontiers (f : Func) (t : DomTree) : Array (List BlockId) :=
  f.layout.foldl (fun df b =>
    let preds := (f.block b).preds
    if preds.length < 2 || !t.isReachable b then df
    else preds.foldl (fun df p =>
      if t.isReachable p then climbFrontier t (t.idom.getD b none) b p df else df) df)
    (Array.replicate f.numBlocks [])

end Func

/-! ## Natural loops

An edge to a dominator of its source is a back edge; the loop of its target holds
the blocks from which the source can be reached without passing the target. Back edges to one target
make one loop. -/

/-- A loop: its header and all its blocks. -/
structure Loop where
  header : BlockId
  blocks : List BlockId
  deriving Repr, Inhabited

def Loop.contains (l : Loop) (b : BlockId) : Bool := l.blocks.contains b

namespace Func

/-- Add the blocks waiting in `work` and all their reachable ancestors to a loop. -/
def growLoop (f : Func) (t : DomTree) : Nat → List BlockId → List BlockId → List BlockId
  | 0, blocks, _ => blocks
  | _, blocks, [] => blocks
  | fuel + 1, blocks, x :: work =>
    if blocks.contains x || !t.isReachable x then growLoop f t fuel blocks work
    else growLoop f t fuel (x :: blocks) ((f.block x).preds ++ work)

/-- Steps no growth exceeds: each block's predecessors wait at most once. -/
def growBound (f : Func) : Nat :=
  f.blocks.foldl (fun n b => n + b.preds.length) 2

/-- Enter a back edge from `latch` to `header`. -/
def addBackEdge (f : Func) (t : DomTree) (latch header : BlockId) : List Loop → List Loop
  | [] => [⟨header, f.growLoop t f.growBound [header] [latch]⟩]
  | l :: rest =>
    if l.header = header then ⟨header, f.growLoop t f.growBound l.blocks [latch]⟩ :: rest
    else l :: addBackEdge f t latch header rest

/-- All loops, in the order in which their back edges are met in reverse postorder. -/
def loops (f : Func) (t : DomTree) : List Loop :=
  t.rpo.foldl (fun ls b =>
    (f.block b).succs.foldl (fun ls s =>
      if t.dominates s b then f.addBackEdge t b s ls else ls) ls) []

end Func

end SsaJit
