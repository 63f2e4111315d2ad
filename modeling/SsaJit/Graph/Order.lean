import SsaJit.Graph.Basic

/-! Depth-first order of the blocks reachable from the entry. The walk keeps a stack of blocks with
the successors each has still to try; a step tries one successor or leaves one block, so edges and
blocks bound the number of steps. -/

namespace SsaJit.Func

/-- The state of a walk: blocks entered, the open ones with their untried successors, and the blocks
left so far, last first. -/
structure Walk where
  seen : List BlockId
  stack : List (BlockId × List BlockId)
  done : List BlockId
  deriving Repr

/-- Try one successor of the innermost open block, or leave it when none is left. -/
def Walk.step (f : Func) (w : Walk) : Walk :=
  match w.stack with
  | [] => w
  | (b, s :: rest) :: below =>
    if w.seen.contains s then { w with stack := (b, rest) :: below }
    else
      { w with seen := s :: w.seen, stack := (s, (f.block s).succs) :: (b, rest) :: below }
  | (b, []) :: below => { w with stack := below, done := b :: w.done }

def Walk.run (f : Func) : Nat → Walk → Walk
  | 0, w => w
  | fuel + 1, w => if w.stack.isEmpty then w else Walk.run f fuel (w.step f)

/-- Steps no walk exceeds: one for each edge and one for each block. -/
def walkBound (f : Func) : Nat :=
  f.blocks.foldl (fun n b => n + b.succs.length + 1) 0

/-- Blocks reachable from the entry, each before the blocks that were left earlier. -/
def reversePostOrderFrom (f : Func) (entry : BlockId) : List BlockId :=
  (Walk.run f f.walkBound ⟨[entry], [(entry, (f.block entry).succs)], []⟩).done

/-- Reachable blocks, the entry first; along every edge that is not a loop's, forward. -/
def reversePostOrder (f : Func) : Outcome (List BlockId) := do
  return f.reversePostOrderFrom (← f.entry)

/-- Reachable blocks in the order in which a depth-first walk leaves them. -/
def postOrder (f : Func) : Outcome (List BlockId) := do
  return (← f.reversePostOrder).reverse

end SsaJit.Func
