import SsaJit.Eval

/-! Functions in static single assignment form, as immutable records. A function owns a table of
values and a table of blocks; the number of a value or block is its place in the table and never
changes, while `layout` lists the blocks that are in the function now and each block lists its
values. Successors and predecessors are stored on both ends of an edge and nothing forces them to
agree: that is for the verifier to say. -/

namespace SsaJit

abbrev ValueId := Nat
abbrev BlockId := Nat

/-- What stands in an operand position: nothing, a value of the function, or an entry of its table
of foreign values. -/
inductive Operand
  | missing
  | value (v : ValueId)
  | foreign (k : Nat)
  deriving DecidableEq, Repr, Inhabited

/-- Read-only data of a module. Two globals are the same only if their places in the module are. -/
structure Global where
  id : Nat
  name : String
  data : List UInt8
  align : Int
  deriving DecidableEq, Repr, Inhabited

/-- A value together with the instruction that computes it. What `aux` means depends on the
operation: the number of a parameter, the pattern of a scalar constant, a predicate, a lane, an
alignment, a byte count, an element size or an intrinsic. -/
structure Value where
  op : Op
  type : Ty
  args : List Operand := []
  /-- The block that is meant to list the value; none once it is removed. -/
  block : Option BlockId := none
  aux : Int64 := 0
  /-- Lane patterns of a vector constant. -/
  lanes : Option (List UInt64) := none
  /-- Selectors of a shuffle; a negative one stands for zero. -/
  mask : Option (List Int) := none
  global : Option Global := none
  /-- A memory access that must be neither removed nor merged. -/
  volatile : Bool := false
  deriving DecidableEq, Repr, Inhabited

namespace Value

def isConst (v : Value) : Bool := v.op == .const

def predicate (v : Value) : Predicate := .ofCode v.aux.toUInt64.toUInt8
def intrinsic (v : Value) : Intrinsic := .ofCode v.aux.toUInt64.toUInt8

/-- Depends on its operands alone and changes nothing. -/
def isPure (v : Value) : Bool :=
  match v.op with
  | .store | .call | .load | .alloca | .phi | .param | .invalid => false
  | _ => !v.volatile

/-- One lane of a constant. -/
def constLane (v : Value) (i : Nat) : Outcome UInt64 :=
  if v.type.isVector then .at? (v.lanes.getD []) i else .ok v.aux.toUInt64

/-- All lanes of a constant; none of a value that is not one. -/
def constLanes (v : Value) : Option (List UInt64) :=
  if !v.isConst then none
  else if v.type.isVector then v.lanes
  else some [v.aux.toUInt64]

end Value

/-- How a block ends. -/
inductive BlockKind
  | pending | jump | branch | ret | unreachable
  | other (code : UInt8)
  deriving DecidableEq, Repr, Inhabited

namespace BlockKind

def ofCode (c : UInt8) : BlockKind :=
  match c.toNat with
  | 0 => .pending | 1 => .jump | 2 => .branch | 3 => .ret | 4 => .unreachable
  | _ => .other c

def name : BlockKind → String
  | .pending => "open" | .jump => "br" | .branch => "condbr" | .ret => "ret"
  | .unreachable => "unreachable"
  | .other c => "blockkind(" ++ decimal c.toNat ++ ")"

end BlockKind

/-- A basic block. The condition of a branch and the result of a return are in `control`. -/
structure Block where
  values : List ValueId := []
  kind : BlockKind := .pending
  control : Operand := .missing
  succs : List BlockId := []
  preds : List BlockId := []
  /-- Set if the block names another function as its own. -/
  isForeign : Bool := false
  deriving DecidableEq, Repr, Inhabited

def Block.isTerminated (b : Block) : Bool := b.kind != .pending

/-- The first place of `p` among the predecessors. -/
def Block.predIndex? (b : Block) (p : BlockId) : Option Nat := b.preds.findIdx? (· == p)

/-- A value of another function, under the number it has there. -/
structure ForeignValue where
  number : Nat
  value : Value
  deriving DecidableEq, Repr, Inhabited

/-- A function under construction or optimisation. -/
structure Func where
  name : String
  ret : Ty
  params : List Ty
  values : Array Value := #[]
  blocks : Array Block := #[]
  /-- The blocks in the function, in order; the first is the entry. -/
  layout : List BlockId := []
  /-- The parameter values, in order. -/
  paramValues : List ValueId := []
  /-- Values of other functions that operands may name. -/
  foreigns : Array ForeignValue := #[]
  /-- Which functions the foreign values come from, and where theirs begin. -/
  adopted : List (Nat × Nat) := []
  deriving Repr, Inhabited

namespace Func

def value (f : Func) (v : ValueId) : Value := f.values.getD v default
def block (f : Func) (b : BlockId) : Block := f.blocks.getD b default

def numValues (f : Func) : Nat := f.values.size
def numBlocks (f : Func) : Nat := f.blocks.size

/-- The values a block lists, with their numbers. -/
def valuesOf (f : Func) (b : BlockId) : List (ValueId × Value) :=
  (f.block b).values.map fun v => (v, f.value v)

def entry? (f : Func) : Option BlockId := f.layout.head?

/-- The entry block, or a crash in a function without blocks. -/
def entry (f : Func) : Outcome BlockId :=
  match f.layout with
  | b :: _ => .ok b
  | [] => .crash .outOfRange

/-- The value an operand names. -/
def find (f : Func) : Operand → Outcome Value
  | .missing => .crash .absent
  | .value v => .ok (f.value v)
  | .foreign k => .ok (f.foreigns.getD k default).value

/-- The number an operand is written with. -/
def number (f : Func) : Operand → Outcome Nat
  | .missing => .crash .absent
  | .value v => .ok v
  | .foreign k => .ok (f.foreigns.getD k default).number

/-- The `i`-th operand of a value. -/
def argument (f : Func) (v : Value) (i : Nat) : Outcome Value := do
  f.find (← .at? v.args i)

/-- Instructions of the function, counting each block's end as one. -/
def numInstructions (f : Func) : Nat :=
  f.layout.foldl (fun n b => n + (f.block b).values.length + 1) 0

/-! ## Updates -/

def modifyValue (f : Func) (v : ValueId) (g : Value → Value) : Func :=
  { f with values := f.values.modify v g }

def modifyBlock (f : Func) (b : BlockId) (g : Block → Block) : Func :=
  { f with blocks := f.blocks.modify b g }

/-- Enter a value into the table without listing it. -/
def pushValue (f : Func) (v : Value) : Func × ValueId :=
  ({ f with values := f.values.push v }, f.values.size)

/-- A new block at the end of the layout. -/
def newBlock (f : Func) : Func × BlockId :=
  ({ f with blocks := f.blocks.push {}, layout := f.layout ++ [f.blocks.size] }, f.blocks.size)

/-- A new value at the end of a block. -/
def appendValue (f : Func) (b : BlockId) (v : Value) : Func × ValueId :=
  let (f, id) := f.pushValue { v with block := some b }
  (f.modifyBlock b fun blk => { blk with values := blk.values ++ [id] }, id)

/-- A new value at a position of a block. -/
def insertValue (f : Func) (b : BlockId) (i : Int) (v : Value) : Outcome (Func × ValueId) :=
  if i < 0 ∨ (f.block b).values.length < i.toNat then .crash .outOfRange
  else
    let (f, id) := f.pushValue { v with block := some b }
    .ok (f.modifyBlock b fun blk => { blk with values := blk.values.insertIdx i.toNat id }, id)

/-- Take a value out of a block that lists it. -/
def removeValue (f : Func) (b : BlockId) (v : ValueId) : Func :=
  if (f.block b).values.contains v then
    (f.modifyBlock b fun blk => { blk with values := blk.values.erase v }).modifyValue v
      fun val => { val with block := none }
  else f

/-- Take a block out of the layout. -/
def removeBlock (f : Func) (b : BlockId) : Func := { f with layout := f.layout.erase b }

/-- Put one operand for another wherever the function's blocks mention it. -/
def replaceUses (f : Func) (old new : Operand) : Func :=
  let swap (o : Operand) := if o = old then new else o
  f.layout.foldl (fun f b =>
    let f := (f.block b).values.foldl (fun f v =>
      f.modifyValue v fun val => { val with args := val.args.map swap }) f
    f.modifyBlock b fun blk => { blk with control := swap blk.control }) f

/-- An empty function: an entry block that lists the parameters. -/
def empty (name : String) (ret : Ty) (params : List Ty) : Func :=
  let f : Func := { name, ret, params }
  let (f, entry) := f.newBlock
  (params.zipIdx).foldl (fun f (t, i) =>
    let (f, v) := f.appendValue entry { op := .param, type := t, aux := Int64.ofNat i }
    { f with paramValues := f.paramValues ++ [v] }) f

/-- The `i`-th parameter value. -/
def param (f : Func) (i : Int) : Outcome ValueId :=
  if i < 0 then .crash .outOfRange else .at? f.paramValues i.toNat

/-- A scalar constant at the end of a block, its pattern cut to the type. -/
def appendConst (f : Func) (b : BlockId) (t : Ty) (w : UInt64) : Func × ValueId :=
  f.appendValue b { op := .const, type := t, aux := (t.elemKind.canon w).toInt64 }

/-- The kind that a vector constant's lanes are cut to; other types keep their lanes whole. -/
def laneCut : Ty → Kind
  | .vec e _ => e
  | .scalar _ => .void

/-- Lanes for a constant of type `t`, one for each of its lanes. -/
def constLanesFor (t : Ty) (lanes : List UInt64) : Outcome (List UInt64) :=
  if lanes.length < t.numLanes then .crash .outOfRange
  else .ok ((lanes.take t.numLanes).map (laneCut t).canon)

/-- A constant given by lanes, at the end of a block. -/
def appendVectorConst (f : Func) (b : BlockId) (t : Ty) (lanes : List UInt64) :
    Outcome (Func × ValueId) := do
  return f.appendValue b { op := .const, type := t, lanes := some (← constLanesFor t lanes) }

/-- A constant of any type at a position of a block. -/
def insertConst (f : Func) (b : BlockId) (i : Int) (t : Ty) (lanes : List UInt64) :
    Outcome (Func × ValueId) := do
  if t.isVector then
    f.insertValue b i { op := .const, type := t, lanes := some (← constLanesFor t lanes) }
  else
    f.insertValue b i { op := .const, type := t, aux := (t.kind.canon (← .at? lanes 0)).toInt64 }

/-- Where the first value stands that is neither a phi nor a parameter. -/
def firstNonPhi (f : Func) (b : BlockId) : Nat :=
  ((f.valuesOf b).takeWhile fun (_, v) => v.op == .phi || v.op == .param).length

/-- How often each value is mentioned, by number. -/
def useCounts (f : Func) : Outcome (Array Nat) :=
  let bump (counts : Array Nat) (o : Operand) : Outcome (Array Nat) := do
    let n ← f.number o
    if n < counts.size then return counts.modify n (· + 1) else .crash .outOfRange
  f.layout.foldlM (fun counts b => do
    let counts ← (f.valuesOf b).foldlM (fun counts (_, v) => v.args.foldlM bump counts) counts
    match (f.block b).control with
    | .missing => return counts
    | c => bump counts c) (Array.replicate f.numValues 0)

/-- Make the values of `g`, known as function number `key`, available as foreign operands. The answer
is where they begin. -/
def adopt (f : Func) (key : Nat) (g : Func) : Func × Nat :=
  match f.adopted.lookup key with
  | some base => (f, base)
  | none =>
    let base := f.foreigns.size
    let later := base + g.numValues
    let move : Operand → Operand
      | .missing => .missing
      | .value v => .foreign (base + v)
      | .foreign k => .foreign (later + k)
    let own := g.values.mapIdx fun i v => ⟨i, { v with args := v.args.map move }⟩
    let others := g.foreigns.map fun e => { e with value.args := e.value.args.map move }
    ({ f with foreigns := f.foreigns ++ own ++ others, adopted := (key, base) :: f.adopted }, base)

end Func

/-- Are both constants of one type with equal lanes? -/
def sameConst (a b : Value) : Outcome Bool :=
  if a.op ≠ .const ∨ b.op ≠ .const ∨ a.type ≠ b.type then .ok false
  else (List.range a.type.numLanes).foldlM (fun same i =>
    if !same then .ok false else return (← a.constLane i) == (← b.constLane i)) true

/-- A compilation unit: read-only data and functions. -/
structure Module where
  name : String
  globals : List Global := []
  funcs : List Func := []
  deriving Inhabited

/-- Add read-only data; an alignment below one is one. -/
def Module.addGlobal (m : Module) (name : String) (data : List UInt8) (align : Int) :
    Module × Global :=
  let g : Global := ⟨m.globals.length, name, data, if align ≤ 0 then 1 else align⟩
  ({ m with globals := m.globals ++ [g] }, g)

/-! ## Folding a value whose operands are constants -/

namespace Func

/-- The operation of a value, with the types of its operands. -/
def operation (f : Func) (v : Value) : Outcome Operation := do
  let operands ← v.args.mapM fun o => return (← f.find o).type
  return { op := v.op, type := v.type, aux := v.aux, mask := v.mask.getD [], operands }

/-- The lanes of the operands if all are constants, looked at in order. -/
def constOperands (f : Func) : List Operand → Outcome (Option (List (List UInt64)))
  | [] => .ok (some [])
  | o :: rest => do
    match (← f.find o).constLanes with
    | none => return none
    | some lanes => return (← f.constOperands rest).map (lanes :: ·)

/-- The lanes of a value all of whose operands are constants, if it can be computed beforehand. -/
def foldValue (f : Func) (v : Value) : Outcome (Option (List UInt64)) := do
  match ← f.constOperands v.args with
  | none => return none
  | some args => (← f.operation v).fold args

end Func

end SsaJit
