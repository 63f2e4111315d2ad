import SsaJit.Build.Session

/-! Instructions one by one. Each function appends the one value it is named for; a few that stand
for several say so. Operand types are left to the verifier. -/

namespace SsaJit.Build.BuildM

/-! ## Constants -/

/-- A constant given by one pattern, cut to the kind of the type. A vector type has no pattern of its
own and keeps all bits. -/
def constInt (t : Ty) (bits : UInt64) : BuildM Operand :=
  emit { op := .const, type := t, aux := (t.kind.canon bits).toInt64 }

def constFloat (bits : UInt64) : BuildM Operand := constInt .f32 bits

def constBool (b : Bool) : BuildM Operand := constInt .i1 (if b then 1 else 0)

def constPointer (address : UInt64) : BuildM Operand := constInt .ptr address

/-- A constant given by lanes. Lanes that are not given are zero and a fault. -/
def constVector (t : Ty) (lanes : List UInt64) : BuildM Operand := do
  let n := t.numLanes
  let cut := (lanes.take n).map (Func.laneCut t).canon
  let v ← emit { op := .const, type := t, lanes := some (cut ++ List.replicate (n - cut.length) 0) }
  if lanes.length < n then crash .outOfRange
  return v

/-- The constant with one pattern in every lane. -/
def constSplat (t : Ty) (bits : UInt64) : BuildM Operand :=
  if t.isVector then constVector t (List.replicate t.numLanes bits) else constInt t bits

def constNull (t : Ty) : BuildM Operand := constSplat t 0

def constAllOnes (t : Ty) : BuildM Operand := constSplat t 0xFFFFFFFFFFFFFFFF

/-- Add read-only data to the module and take its address. -/
def globalAddr (name : String) (data : List UInt8) (align : Int) : BuildM Operand := do
  let s ← get
  if s.closed then crash .absent
  let (m, g) := s.module.addGlobal name data align
  set { s with module := m }
  emit { op := .globalAddr, type := .ptr, global := some g }

/-! ## Computation -/

/-- A binary operation on the type of its first operand. -/
def binary (op : Op) (x y : Operand) : BuildM Operand := do
  emit { op, type := ← typeOf x, args := [x, y] }

def unary (op : Op) (x : Operand) : BuildM Operand := do
  emit { op, type := ← typeOf x, args := [x] }

/-- Zero and the subtraction from it. -/
def negate (x : Operand) : BuildM Operand := do
  let zero ← constNull (← typeOf x)
  binary .sub zero x

/-- All ones and the exclusive or with them. -/
def complement (x : Operand) : BuildM Operand := do
  let ones ← constAllOnes (← typeOf x)
  binary .xor x ones

/-- A comparison; the result has the mask type of the first operand. -/
def compareWith (op : Op) (p : Predicate) (x y : Operand) : BuildM Operand := do
  let t ← lift (← typeOf x).maskType
  emit { op, type := t, args := [x, y], aux := Int64.ofNat p.code.toNat }

def icmp (p : Predicate) (x y : Operand) : BuildM Operand := compareWith .icmp p x y
def fcmp (p : Predicate) (x y : Operand) : BuildM Operand := compareWith .fcmp p x y

def cast (op : Op) (x : Operand) (t : Ty) : BuildM Operand := emit { op, type := t, args := [x] }

/-- The second operand where the condition holds, else the third. -/
def select (cond x y : Operand) : BuildM Operand := do
  emit { op := .select, type := ← typeOf x, args := [cond, x, y] }

def extractLane (x : Operand) (i : Int) : BuildM Operand := do
  emit { op := .extract, type := (← typeOf x).elemType, args := [x], aux := Int64.ofInt i }

def insertLane (x e : Operand) (i : Int) : BuildM Operand := do
  emit { op := .insert, type := ← typeOf x, args := [x, e], aux := Int64.ofInt i }

/-- Lanes picked from both operands, a negative selector giving zero; there are as many lanes as
selectors. -/
def shuffleLanes (x y : Operand) (selectors : List Int) : BuildM Operand := do
  let t ← lift ((← typeOf x).withLanes selectors.length)
  emit { op := .shuffle, type := t, args := [x, y], mask := some selectors }

def callTo (callee : Operand) (ret : Ty) (args : List Operand) : BuildM Operand :=
  emit { op := .call, type := ret, args := callee :: args }

def intrinsic (id : Intrinsic) (t : Ty) (args : List Operand) : BuildM Operand :=
  emit { op := .intrinsic, type := t, args, aux := Int64.ofNat id.code.toNat }

/-! ## Memory -/

/-- Stack space for `count` values of a type, at least for one. It is entered after the parameters
and the stack space that the entry block begins with, wherever values go now. -/
def alloca (t : Ty) (count : Int) : BuildM Operand := do
  let f ← function
  let entry ← lift f.entry
  let lead := (f.valuesOf entry).takeWhile fun (_, v) => v.op == .param || v.op == .alloca
  let bytes := Int64.ofNat t.size * Int64.ofInt (if count < 1 then 1 else count)
  let (f, id) ← lift (f.insertValue entry lead.length { op := .alloca, type := .ptr, aux := bytes })
  setFunction f
  return .value id

/-- The alignment of an access: the one asked for if it is positive, else that of one lane. -/
def alignFor (t : Ty) (align : Int) : Int64 :=
  if 0 < align then Int64.ofInt align else Int64.ofNat t.elemKind.size

def loadFrom (ptr : Operand) (t : Ty) (align : Int) (volatile : Bool) : BuildM Operand :=
  emit { op := .load, type := t, args := [ptr], aux := alignFor t align, volatile }

/-- Storing what is not there is a fault, but only after the store was appended. -/
def storeTo (val ptr : Operand) (align : Int) (volatile : Bool) : BuildM Operand := do
  match val with
  | .missing =>
    let _ ← emit { op := .store, type := .void, args := [val, ptr] }
    crash .absent
  | _ =>
    emit { op := .store, type := .void, args := [val, ptr], aux := alignFor (← typeOf val) align,
           volatile }

/-- The address of an element by its index. -/
def elementAddr (base : Operand) (elem : Ty) (index : Operand) : BuildM Operand :=
  emit { op := .gep, type := .ptr, args := [base, index], aux := Int64.ofNat elem.size }

/-! ## Ends of blocks -/

def jumpTo (target : BlockId) : BuildM Unit := endWith fun f b => f.setJump b target

def branchOn (cond : Operand) (yes no : BlockId) : BuildM Unit :=
  endWith fun f b => f.setBranch b cond yes no

/-- Return a value, or nothing if the operand is missing. -/
def ret (x : Operand) : BuildM Unit := endWith fun f b => f.setRet b x

def unreachable : BuildM Unit := endWith fun f b => f.setUnreachable b

end SsaJit.Build.BuildM
