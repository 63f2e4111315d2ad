import SsaJit.Build.Accelerated
import SsaJit.Build.Storage
import SsaJit.Build.Control

/-! Building by script. A script is a list of recorded calls; each call names an operation and takes its
operands from the values made so far. The library of typed operations and the bare instructions are
both reached this way. A call that names what is not there, or passes a value of the wrong type, is a
fault, and a fault ends the script. -/

namespace SsaJit.Build

/-- One recorded call. Which fields count depends on the operation. -/
structure Call where
  name : String
  /-- A bare instruction instead of a typed operation. -/
  bare : Bool := false
  stype : Option SType := none
  ty : Ty := .void
  args : List Int := []
  index : Int := 0
  /-- The number of a variable. -/
  place : Nat := 0
  /-- The number of a construct. -/
  scope : Nat := 0
  selectors : List Int := []
  /-- The lanes of a literal. -/
  lanes : List UInt64 := []
  align : Option Int := none
  volatile : Bool := false
  high : Bool := false
  saturate : Bool := false
  block : Nat := 0
  targets : List Nat := []
  label : String := ""
  data : List UInt8 := []
  predicate : Predicate := .eq
  intrinsic : Intrinsic := .none
  deriving Inhabited

/-- A call, or a construct whose arms are scripts. The condition of a loop is the value made last. -/
inductive Step
  | call (c : Call)
  | ifElse (c : Call) (yes between : List Step) (no : Option (List Step))
  | whileLoop (cond body : List Step)
  | forLoop (cond step body : List Step)
  | repeatUntil (body cond : List Step)
  deriving Inhabited

namespace Script

/-- What a call made: a typed value, or the result of a bare instruction. -/
inductive Made
  | typed (h : Handle)
  | bare (r : Ref)
  deriving Repr

def Made.ref? : Made → Option Ref
  | .typed h => h.ref
  | .bare r => some r

/-- A running script. -/
structure State where
  session : Session
  made : Array Made := #[]
  places : Array Variable := #[]
  scopes : Array ScopeId := #[]
  /-- A line for each call: the instruction it made, else the block that values go to. -/
  notes : Array (Option String) := #[]

abbrev ScriptM := ExceptT Fault (StateM State)

instance : MonadLift BuildM ScriptM where
  monadLift act := do
    let st ← get
    let (r, s) := act.run.run st.session
    set { st with session := s }
    match r with
    | .ok a => return a
    | .error e => throw e

def crash {α : Type} (c : Crash) : ScriptM α := throw (.crash c)

def current : ScriptM State := getThe State

def update (f : State → State) : ScriptM Unit := modifyThe State f

def nth {α : Type} (xs : Array α) (i : Int) : ScriptM α :=
  if i < 0 then crash .outOfRange
  else match xs[i.toNat]? with
    | some a => pure a
    | none => crash .outOfRange

/-! ## Operands -/

/-- The `k`-th operand of a call. -/
def operand (c : Call) (k : Nat) : ScriptM Made := do
  match c.args[k]? with
  | some i => nth (← current).made i
  | none => crash .outOfRange

def typed : Made → ScriptM Handle
  | .typed h => pure h
  | .bare _ => crash .wrongType

/-- The `k`-th operand, which must be typed. -/
def handle (c : Call) (k : Nat) : ScriptM Handle := do typed (← operand c k)

/-- The `k`-th operand, which must have the type. -/
def handleOf (t : SType) (c : Call) (k : Nat) : ScriptM Handle := do
  let h ← handle c k
  if h.type = t then return h else crash .wrongType

/-- The `k`-th operand as an operand of an instruction. -/
def bareOperand (c : Call) (k : Nat) : ScriptM Operand := do
  match (← operand c k).ref? with
  | some r => BuildM.resolve r
  | none => return .missing

/-- The type that a call works on: the one it names, else that of an operand. -/
def typeBy (c : Call) (k : Nat) : ScriptM SType := do
  match c.stype with
  | some t => return t
  | none => return (← handle c k).type

def namedType (c : Call) : ScriptM SType :=
  match c.stype with
  | some t => pure t
  | none => crash .absent

def place (c : Call) : ScriptM Variable := do nth (← current).places c.place

def scopeOf (c : Call) : ScriptM ScopeId := do nth (← current).scopes c.scope

def target (c : Call) (k : Nat) : ScriptM BlockId :=
  match c.targets[k]? with
  | some b => pure b
  | none => crash .outOfRange

/-! ## Results -/

def note (s : Option String) : ScriptM Unit :=
  update fun st => { st with notes := st.notes.push s }

/-- Keep a result and note its instruction. -/
def keep (m : Made) : ScriptM Unit := do
  update fun st => { st with made := st.made.push m }
  match m.ref? with
  | some r => note (some (← BuildM.textOf r))
  | none => note none

/-- Note the block that values go to. -/
def noteBlock : ScriptM Unit := do
  note ((← current).session.cursor.map blockLabel)

def keepTyped (act : BuildM Handle) : ScriptM Unit := do keep (.typed (← act))

def keepBare (act : BuildM Operand) : ScriptM Unit := do
  match ← (act : ScriptM Operand) with
  | .value id => keep (.bare ⟨(← current).session.id, id⟩)
  | _ => crash .absent

/-- Run what makes no value. -/
def perform (act : BuildM Unit) : ScriptM Unit := do
  act
  noteBlock

/-! ## Typed operations -/

/-- An operation by name: the types it is for and what it does. -/
structure Operation (α : Type) where
  name : String
  covers : SType → Bool
  build : α

open BuildM

def binaries : List (Operation (Handle → Handle → BuildM Handle)) :=
  [⟨"add", SType.isNumeric, arith .add⟩, ⟨"sub", SType.isNumeric, arith .sub⟩,
   ⟨"mul", SType.isNumeric, arith .mul⟩, ⟨"div", SType.isNumeric, divide⟩,
   ⟨"rem", SType.isInteger, remainder⟩,
   ⟨"min", SType.isNumeric, least⟩, ⟨"max", SType.isNumeric, greatest⟩,
   ⟨"and", SType.isBitwise, arith .and⟩, ⟨"or", SType.isBitwise, arith .or⟩,
   ⟨"xor", SType.isBitwise, arith .xor⟩,
   ⟨"shl", SType.isInteger, arith .shl⟩, ⟨"shr", SType.isInteger, arith .shr⟩,
   ⟨"mulhigh", SType.isInteger, mulHigh⟩, ⟨"avg", SType.isInteger, average⟩,
   ⟨"addsat", SType.isSaturating, addSat⟩, ⟨"subsat", SType.isSaturating, subSat⟩,
   ⟨"eq", SType.isOrdered, compare .eq⟩, ⟨"ne", SType.isOrdered, compare .ne⟩,
   ⟨"lt", SType.isOrdered, compare .lt⟩, ⟨"le", SType.isOrdered, compare .le⟩,
   ⟨"gt", SType.isOrdered, compare .gt⟩, ⟨"ge", SType.isOrdered, compare .ge⟩,
   ⟨"cmpeq", SType.isVector, compareLanes .eq⟩, ⟨"cmpneq", SType.isVector, compareLanes .ne⟩,
   ⟨"cmplt", SType.isVector, compareLanes .lt⟩, ⟨"cmple", SType.isVector, compareLanes .le⟩,
   ⟨"cmpnlt", SType.isVector, compareLanesDenied .lt⟩,
   ⟨"cmpnle", SType.isVector, compareLanesDenied .le⟩]

def unaries : List (Operation (Handle → BuildM Handle)) :=
  [⟨"neg", SType.isNumeric, neg⟩, ⟨"abs", SType.isNumeric, absolute⟩,
   ⟨"not", SType.isBitwise, bitNot⟩, ⟨"sqrt", SType.isFloat, squareRoot⟩,
   ⟨"rcp", SType.isFloat, reciprocal⟩, ⟨"rcpsqrt", SType.isFloat, reciprocalRoot⟩,
   ⟨"round", SType.isFloat, round⟩]

/-- The type of the last operand, or the one the call names. -/
def lastType (c : Call) : ScriptM SType := do
  if c.stype.isNone && c.args.isEmpty then crash .outOfRange
  typeBy c (c.args.length - 1)

def covered {α : Type} (o : Operation α) (t : SType) : ScriptM α :=
  if o.covers t then pure o.build else crash .wrongType

def runBinary (o : Operation (Handle → Handle → BuildM Handle)) (c : Call) : ScriptM Unit := do
  let t ← lastType c
  let build ← covered o t
  let x ← handleOf t c 0
  let y ← handleOf t c 1
  keepTyped (build x y)

def runUnary (o : Operation (Handle → BuildM Handle)) (c : Call) : ScriptM Unit := do
  let t ← lastType c
  let build ← covered o t
  let x ← handleOf t c 0
  keepTyped (build x)

/-- The pointee that a pointer operation works on. -/
def pointeeOf (c : Call) : ScriptM SType := do
  match c.stype with
  | some t => return t
  | none =>
    match (← handle c 0).type with
    | .pointer t => return t
    | _ => crash .wrongType

/-- Operations on pointers and memory. -/
def runStorage (c : Call) : ScriptM Unit := do
  let align := c.align.getD 0
  let volatile := c.align.isSome && c.volatile
  match c.name with
  | "var" =>
    let v ← newVariable (← namedType c)
    update fun st => { st with places := st.places.push v }
    noteBlock
  | "local" =>
    let t ← lastType c
    let v ← localVariable (← handleOf t c 0)
    update fun st => { st with places := st.places.push v }
    noteBlock
  | "vload" => keepTyped (loadVariable (← place c) align volatile)
  | "vstore" =>
    let v ← place c
    let x ← handleOf v.type c 0
    perform (storeVariable v x align volatile)
  | "vaddr" => keep (.typed (addressOf (← place c)))
  | "array" => keepTyped (newArray (← namedType c) c.index)
  | "ptr_to" => keepTyped (pointerTo (← namedType c) (c.lanes.headD 0))
  | "ptr_cast" =>
    match (← handle c 0).type with
    | .pointer _ => keep (.typed ((← handle c 0).castPointer (← namedType c)))
    | _ => crash .wrongType
  | name =>
    let t ← pointeeOf c
    let p ← handleOf (.pointer t) c 0
    match name with
    | "ptr_load" => keepTyped (loadPointer p align volatile)
    | "ptr_store" =>
      let x ← handleOf t c 1
      perform (storePointer p x align volatile)
    | "ptr_index" =>
      let i ← handleOf .int c 1
      keepTyped (indexPointer p i)
    | "ptr_at" =>
      let i ← handleOf .int c 1
      keepTyped do loadPointer (← indexPointer p i) 0 false
    | "ptr_offset" => keepTyped (offsetPointer p c.index)
    | "ptr_is_null" => keepTyped (isNull p)
    | _ => crash .absent

/-- Operations on control flow. -/
def runControl (c : Call) : ScriptM Unit := do
  let begin (act : BuildM ScopeId) : ScriptM Unit := do
    let id ← act
    update fun st => { st with scopes := st.scopes.push id }
    noteBlock
  match c.name with
  | "begin_if" => begin (beginIf (← handleOf .bool c 0))
  | "begin_loop" => begin beginLoop
  | "begin_do" => begin beginDo
  | "else" => perform (elseArm (← scopeOf c))
  | "end" => perform (endScope (← scopeOf c))
  | "cond" =>
    let id ← scopeOf c
    perform (loopCondition id (← handleOf .bool c 0))
  | "until" =>
    let id ← scopeOf c
    perform (doUntil id (← handleOf .bool c 0))
  | "return" => perform (returnValue (← handle c 0))
  | "return_void" => perform returnVoid
  | "close" => perform (modify Session.close)
  | _ => runStorage c

/-- The type of a vector operation's operand. -/
def vectorType (c : Call) : ScriptM SType := do
  let t ← lastType c
  if t.isVector then return t else crash .wrongType

/-- All typed operations. -/
def runTyped (c : Call) : ScriptM Unit := do
  match binaries.find? (·.name == c.name), unaries.find? (·.name == c.name) with
  | some o, _ => runBinary o c
  | none, some o => runUnary o c
  | none, none =>
    match c.name with
    | "lit" => keepTyped (literal (← namedType c) c.lanes)
    | "true" => keepTyped (constant .bool 1)
    | "false" => keepTyped (constant .bool 0)
    | "zero" => keep (.typed ⟨← namedType c, none⟩)
    | "arg" => keepTyped (argument (← namedType c) c.index)
    | "ptr_arg" => keepTyped (argument (.pointer (← namedType c)) c.index)
    | "splat" =>
      let x ← handle c 0
      match x.type.splatOf? with
      | some t => keepTyped (splat t x)
      | none => crash .wrongType
    | "shln" | "shrn" =>
      let t ← lastType c
      let x ← handleOf t c 0
      let n := (Int64.ofInt c.index).toUInt64
      keepTyped (shiftBy (if c.name = "shln" then .shl else .shr) x n)
    | "select" =>
      let t ← lastType c
      let cond ← handleOf .bool c 0
      let x ← handleOf t c 1
      let y ← handleOf t c 2
      keepTyped (choose cond x y)
    | "convert" => keepTyped (convert (← namedType c) (← handle c 0))
    | "bitcast" => keepTyped (bitcast (← namedType c) (← handle c 0))
    | "widen" => keepTyped (widen (← namedType c) (← handle c 0) c.high)
    | "narrow" =>
      let x ← handle c 0
      let y ← handleOf x.type c 1
      keepTyped (narrow (← namedType c) x y c.saturate)
    | "shuffle" =>
      let t ← vectorType c
      let x ← handleOf t c 0
      let y ← handleOf t c 1
      keepTyped (shuffle x y c.selectors)
    | "swizzle" =>
      let x ← handleOf (← vectorType c) c 0
      keepTyped (swizzle x (c.selectors.map fun i => (Int64.ofInt i).toUInt64.toUInt8))
    | "blend" =>
      let t ← vectorType c
      let mask ← handle c 0
      let x ← handleOf t c 1
      let y ← handleOf t c 2
      keepTyped (blend mask x y)
    | "extract" => keepTyped (extract (← handleOf (← vectorType c) c 0) c.index)
    | "insert" =>
      let t ← typeBy c 0
      if !t.isVector then crash .wrongType
      let x ← handleOf t c 0
      let e ← handleOf t.lane c 1
      keepTyped (insert x c.index e)
    | _ => runControl c

/-! ## Bare instructions -/

/-- A predicate by its name among those for integers or for floats. -/
def predicateNamed (float : Bool) (s : String) : ScriptM Predicate :=
  match Predicate.named.find? fun p => p.isFloat == float && p.name == s with
  | some p => pure p
  | none => crash .absent

/-- A comparison, its predicate given by the call or by the end of the name. -/
def runCompare (op : Op) (c : Call) : ScriptM Unit := do
  let ending := (c.name.drop 4).toString
  let p ← if ending.isEmpty then pure c.predicate else predicateNamed (op == .fcmp) ending
  let x ← bareOperand c 0
  let y ← bareOperand c 1
  keepBare (compareWith op p x y)

/-- All operands from the `k`-th on. -/
def restOperands (c : Call) (k : Nat) : ScriptM (List Operand) :=
  (List.range (c.args.length - k)).mapM fun i => bareOperand c (k + i)

/-- Instructions that are named by their operation. -/
def runOp (op : Op) (c : Call) : ScriptM Unit := do
  let align := c.align.getD 0
  match op with
  | .alloca => keepBare (alloca c.ty c.index)
  | .load => keepBare (loadFrom (← bareOperand c 0) c.ty align c.volatile)
  | .store => keepBare (storeTo (← bareOperand c 0) (← bareOperand c 1) align c.volatile)
  | .gep => keepBare (elementAddr (← bareOperand c 0) c.ty (← bareOperand c 1))
  | .extract => keepBare (extractLane (← bareOperand c 0) c.index)
  | .insert => keepBare (insertLane (← bareOperand c 0) (← bareOperand c 1) c.index)
  | .shuffle => keepBare (shuffleLanes (← bareOperand c 0) (← bareOperand c 1) c.selectors)
  | .select => keepBare (select (← bareOperand c 0) (← bareOperand c 1) (← bareOperand c 2))
  | .call => keepBare (callTo (← bareOperand c 0) c.ty (← restOperands c 1))
  | .intrinsic => keepBare (intrinsic c.intrinsic c.ty (← restOperands c 0))
  | .inttoptr => keepBare (cast .inttoptr (← bareOperand c 0) .ptr)
  | .fsqrt | .fneg => keepBare (unary op (← bareOperand c 0))
  | _ =>
    if op.isBinary then keepBare (binary op (← bareOperand c 0) (← bareOperand c 1))
    else if op.isCast then keepBare (cast op (← bareOperand c 0) c.ty)
    else crash .absent

/-- Blocks and their ends. -/
def runBlock (c : Call) : ScriptM Unit := do
  let known (b : BlockId) : ScriptM BlockId := do
    match (← current).session.func with
    | some f => if b < f.numBlocks then return b else crash .outOfRange
    | none => crash .absent
  match c.name with
  | "basicblock" => perform (do let _ ← newBlock)
  | "insertblock" => perform (setInsertBlock (← known c.block))
  | "br" => perform (jumpTo (← known (← target c 0)))
  | "condbr" =>
    let cond ← bareOperand c 0
    let yes ← known (← target c 0)
    let no ← known (← target c 1)
    perform (branchOn cond yes no)
  | "ret" => perform (ret (← bareOperand c 0))
  | "retvoid" => perform (ret .missing)
  | "unreachable" => perform unreachable
  | _ => crash .absent

/-- All bare instructions. -/
def runBare (c : Call) : ScriptM Unit := do
  let bits := c.lanes.headD 0
  if c.name.startsWith "icmp" then runCompare .icmp c
  else if c.name.startsWith "fcmp" then runCompare .fcmp c
  else match c.name with
  | "arg" => keepBare (do return .value (← lift ((← function).param c.index)))
  | "neg" => keepBare (negate (← bareOperand c 0))
  | "not" => keepBare (complement (← bareOperand c 0))
  | "constint" => keepBare (constInt c.ty bits)
  | "constfloat" => keepBare (constFloat (UInt64.ofNat bits.toUInt32.toNat))
  | "constbool" => keepBare (constBool (bits != 0))
  | "constpointer" => keepBare (constPointer bits)
  | "constvector" => keepBare (constVector c.ty c.lanes)
  | "splat" => keepBare (constSplat c.ty bits)
  | "null" => keepBare (constNull c.ty)
  | "allones" => keepBare (constAllOnes c.ty)
  | "global" => keepBare (globalAddr c.label c.data (c.align.getD 0))
  | name =>
    match Op.named.find? (·.name == name) with
    | some op => runOp op c
    | none => runBlock c

/-! ## Running -/

def runCall (c : Call) : ScriptM Unit := if c.bare then runBare c else runTyped c

/-- The value made last, which must be a truth value. -/
def newest : ScriptM Handle := do
  match (← current).made.back? with
  | some (.typed h) => if h.type = .bool then return h else crash .wrongType
  | some (.bare _) => crash .wrongType
  | none => crash .outOfRange

mutual

def runStep : Step → ScriptM Unit
  | .call c => runCall c
  | .ifElse c yes between no => do
    let cond ← handleOf .bool c 0
    let clause ← ifThen cond (runSteps yes)
    runSteps between
    match no with
    | some steps => orElse clause (runSteps steps)
    | none => pure ()
    noteBlock
  | .whileLoop cond body => do
    whileLoop (do runSteps cond; newest) (runSteps body)
    noteBlock
  | .forLoop cond step body => do
    forLoop (do runSteps cond; newest) (runSteps step) (runSteps body)
    noteBlock
  | .repeatUntil body cond => do
    repeatUntil (runSteps body) (do runSteps cond; newest)
    noteBlock

def runSteps : List Step → ScriptM Unit
  | [] => pure ()
  | s :: rest => do
    runStep s
    runSteps rest

end

/-- Run a script as far as it goes. -/
def run (steps : List Step) (st : State) : Outcome Unit × State := (runSteps steps).run.run st

end Script

end SsaJit.Build
