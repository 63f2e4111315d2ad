import SsaJit.Build.Handle

/-! Structured control flow. A construct that was begun stays on the session's nest until it is ended,
and only the innermost can be worked on.

* if: head → then or after; then → after
* else: head → then or else; both → merge
* loop: before → header → body or exit; body → header
* do: before → body → exit or body

The forms that take their arms as actions work in any monad over building. -/

namespace SsaJit.Build

/-- What a conditional needs to be given an else arm afterwards. -/
structure ElseClause where
  head : BlockId
  after : BlockId
  deriving DecidableEq, Repr

namespace BuildM

/-! ## The nest -/

def scope (id : ScopeId) : BuildM Scope := do
  match (← get).scopes[id]? with
  | some s => return s
  | none => crash .outOfRange

def setConstruct (id : ScopeId) (c : Construct) : BuildM Unit :=
  modify fun s => { s with scopes := s.scopes.modify id fun sc => { sc with construct := c } }

/-- Put a new construct on the nest. -/
def push (c : Construct) : BuildM ScopeId := do
  let s ← get
  set { s with scopes := s.scopes.push ⟨s.id, c⟩, nest := s.scopes.size :: s.nest }
  return s.scopes.size

/-- Check that a construct is the innermost one. -/
def checkInnermost (id : ScopeId) (sc : Scope) : BuildM Unit := do
  enter sc.session
  live
  let s ← get
  match s.nest with
  | [] => raise (.scope (.notInnermost sc.construct.name "none"))
  | top :: _ =>
    if top ≠ id then
      raise (.scope (.notInnermost sc.construct.name (← scope top).construct.name))

/-- Take the innermost construct off the nest. -/
def pop : BuildM Unit := modify fun s => { s with nest := s.nest.tail }

/-- Jump to a block if the insertion block has no end yet. -/
def fallTo (target : BlockId) : BuildM Unit := do
  let b ← insertBlock
  let f := (← get).func.getD default
  if !(f.block b).isTerminated then setFunction (← lift (f.setJump b target))

/-- A condition as an operand of the current function. -/
def condition (cond : Handle) : BuildM Operand := do
  match cond.ref with
  | some r => resolve r
  | none => crash .absent

/-! ## If -/

/-- Begin a conditional. What follows is built where the condition holds. -/
def beginIf (cond : Handle) : BuildM ScopeId := do
  let _ ← sessionOf [cond]
  let yes ← newBlock
  let after ← newBlock
  let head ← insertBlock
  branchOn (← condition cond) yes after
  setInsertBlock yes
  push (.branch head after false)

/-- Go on with what is built where the condition does not hold. -/
def elseArm (id : ScopeId) : BuildM Unit := do
  let sc ← scope id
  match sc.construct with
  | .branch head after inElse =>
    checkInnermost id sc
    if inElse then raise (.scope (.wrongState sc.construct.name))
    let merge ← newBlock
    fallTo merge
    setInsertBlock after
    setConstruct id (.branch head merge true)
  | _ => crash .wrongType

/-! ## Loops -/

/-- Begin a loop that tests first. What follows computes its condition. -/
def beginLoop : BuildM ScopeId := do
  let header ← newBlock
  jumpTo header
  setInsertBlock header
  push (.loop header none)

/-- Give a loop its condition. What follows is its body. -/
def loopCondition (id : ScopeId) (cond : Handle) : BuildM Unit := do
  let sc ← scope id
  match sc.construct with
  | .loop header exit =>
    checkInnermost id sc
    if exit.isSome then raise (.scope .conditionTwice)
    let _ ← sessionOf [cond]
    let body ← newBlock
    let after ← newBlock
    setConstruct id (.loop header (some after))
    branchOn (← condition cond) body after
    setInsertBlock body
  | _ => crash .wrongType

/-- Begin a loop that tests last. What follows is its body. -/
def beginDo : BuildM ScopeId := do
  let body ← newBlock
  jumpTo body
  setInsertBlock body
  push (.doUntil body)

/-- End a loop that tests last: it is left once the condition holds. -/
def doUntil (id : ScopeId) (cond : Handle) : BuildM Unit := do
  let sc ← scope id
  match sc.construct with
  | .doUntil body =>
    checkInnermost id sc
    pop
    let _ ← sessionOf [cond]
    let after ← newBlock
    branchOn (← condition cond) after body
    setInsertBlock after
  | _ => crash .wrongType

/-- End a conditional or a loop that tests first. -/
def endScope (id : ScopeId) : BuildM Unit := do
  let sc ← scope id
  match sc.construct with
  | .branch _ after _ =>
    checkInnermost id sc
    pop
    fallTo after
    setInsertBlock after
  | .loop _ none => raise (.scope .noCondition)
  | .loop header (some after) =>
    checkInnermost id sc
    pop
    fallTo header
    setInsertBlock after
  | .doUntil _ => crash .wrongType

/-! ## Arms as actions -/

/-- The blocks that an else arm of a conditional starts from. -/
def elseClause (id : ScopeId) : BuildM ElseClause := do
  match (← scope id).construct with
  | .branch head after _ => return ⟨head, after⟩
  | _ => crash .wrongType

variable {m : Type → Type} [Monad m] [MonadLiftT BuildM m]

/-- Run the arm where the condition holds. -/
def ifThen (cond : Handle) (yes : m Unit) : m ElseClause := do
  let id ← beginIf cond
  let clause ← elseClause id
  yes
  endScope id
  return clause

/-- Turn the exits of the then arm from the block after the conditional to a new one. -/
def divertExits (e : ElseClause) : BuildM BlockId := do
  let f := (← get).func.getD default
  let blk := f.block e.after
  if (← get).cursor ≠ some e.after ∨ !blk.values.isEmpty ∨ blk.isTerminated then
    raise (.scope .detachedElse)
  let merge ← newBlock
  for p in blk.preds.filter (· != e.head) do
    setFunction (← lift ((← function).replaceSucc p e.after merge))
  return merge

/-- Run the arm where the condition of the conditional just built does not hold. -/
def orElse (e : ElseClause) (no : m Unit) : m Unit := do
  let merge ← divertExits e
  no
  fallTo merge
  setInsertBlock merge

/-- Repeat the body while the condition, computed before each round, holds. -/
def whileLoop (cond : m Handle) (body : m Unit) : m Unit := do
  let id ← beginLoop
  let c ← cond
  loopCondition id c
  body
  endScope id

/-- Like a while loop, with a step after each round. -/
def forLoop (cond : m Handle) (step body : m Unit) : m Unit :=
  whileLoop cond (do body; step)

/-- Run the body until the condition, computed after each round, holds. -/
def repeatUntil (body : m Unit) (cond : m Handle) : m Unit := do
  let id ← beginDo
  body
  let c ← cond
  doUntil id c

end BuildM

end SsaJit.Build
