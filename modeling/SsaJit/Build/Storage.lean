import SsaJit.Build.Handle

/-! Stack variables and pointers. -/

namespace SsaJit.Build

/-- A stack variable of a type. -/
structure Variable where
  session : SessionId
  type : SType
  addr : ValueId
  deriving DecidableEq, Repr, Inhabited

namespace BuildM

/-! ## Variables -/

/-- The number of an operand that was just appended. -/
def ownId : Operand → BuildM ValueId
  | .value id => pure id
  | _ => crash .absent

def newVariable (t : SType) : BuildM Variable := do
  let addr ← ownId (← alloca t.ty 1)
  return ⟨(← get).id, t, addr⟩

def loadVariable (v : Variable) (align : Int) (volatile : Bool) : BuildM Handle :=
  into v.session v.type (loadFrom (.value v.addr) v.type.ty align volatile)

def storeVariable (v : Variable) (x : Handle) (align : Int) (volatile : Bool) : BuildM Unit := do
  let s ← sessionOf [x]
  if s ≠ v.session then refuse .foreignStore
  enter s
  let _ ← storeTo x.operand (.value v.addr) align volatile

/-- A variable with a value in it. -/
def localVariable (x : Handle) : BuildM Variable := do
  let v ← newVariable x.type
  storeVariable v x 0 false
  return v

/-- The address of a variable, which then stays in memory. -/
def addressOf (v : Variable) : Handle := ⟨.pointer v.type, some ⟨v.session, v.addr⟩⟩

/-- Stack space for `n` elements: the address of the first. -/
def newArray (t : SType) (n : Int) : BuildM Handle := do
  if n < 1 then refuse (.arraySize n)
  wrap (.pointer t) (← alloca t.ty n)

/-! ## Pointers -/

/-- What a pointer of a type points to. -/
def pointee (h : Handle) : BuildM SType :=
  match h.type with
  | .pointer t => pure t
  | _ => crash .wrongType

/-- The pointer to a fixed address. -/
def pointerTo (t : SType) (address : UInt64) : BuildM Handle := do
  wrap (.pointer t) (← constPointer address)

def loadPointer (p : Handle) (align : Int) (volatile : Bool) : BuildM Handle := do
  let t ← pointee p
  let s ← sessionOf [p]
  into s t (loadFrom p.operand t.ty align volatile)

def storePointer (p x : Handle) (align : Int) (volatile : Bool) : BuildM Unit := do
  let s ← sessionOf [p, x]
  enter s
  let _ ← storeTo x.operand p.operand align volatile

/-- The address of the `i`-th element. -/
def indexPointer (p i : Handle) : BuildM Handle := do
  let t ← pointee p
  let s ← sessionOf [p, i]
  into s p.type (elementAddr p.operand t.ty i.operand)

/-- The address `n` bytes on. -/
def offsetPointer (p : Handle) (n : Int) : BuildM Handle := do
  let s ← sessionOf [p]
  into s p.type do
    let count ← constInt .i64 (Int64.ofInt n).toUInt64
    elementAddr p.operand .i8 count

def isNull (p : Handle) : BuildM Handle := do
  let s ← sessionOf [p]
  into s .bool do
    let address ← cast .ptrtoint p.operand .i64
    let zero ← constNull .i64
    icmp .eq address zero

end BuildM

/-- The same pointer, pointing to another type. -/
def Handle.castPointer (t : SType) (p : Handle) : Handle := { p with type := .pointer t }

end SsaJit.Build
