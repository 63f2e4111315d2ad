import SsaJit.Build.Instr

/-! Typed handles on values of a session's function. A handle that was never given a value, or whose
session is closed, can be passed around but not computed with. -/

namespace SsaJit.Build

/-- A value and the session whose function it is in. -/
structure Ref where
  session : SessionId
  id : ValueId
  deriving DecidableEq, Repr, Inhabited

/-- A value of a program type, or the empty handle of the type. -/
structure Handle where
  type : SType
  ref : Option Ref := none
  deriving DecidableEq, Repr, Inhabited

/-- The operand in the function of the handle's own session. -/
def Handle.operand (h : Handle) : Operand :=
  match h.ref with
  | some r => .value r.id
  | none => .missing

/-- The session that all operands belong to. They are looked at in order: one without a value is
refused, and so is one of another session than the first. -/
def commonSession : List Handle → Option SessionId → Outcome SessionId
  | [], some c => .ok c
  | [], none => .crash .absent
  | h :: rest, seen =>
    match h.ref, seen with
    | none, _ => .refuse .uninitialized
    | some r, none => commonSession rest (some r.session)
    | some r, some c =>
      if r.session = c then commonSession rest seen else .refuse .mixedSessions

namespace BuildM

/-- The session that operands have in common. -/
def sessionOf (hs : List Handle) : BuildM SessionId := lift (commonSession hs none)

/-- Check that a session can be built in: an older one than the current is closed. -/
def enter (c : SessionId) : BuildM Unit := do
  if c ≠ (← get).id then raise .sessionClosed

/-- A value of the function as a handle of the type it must have. -/
def wrap (t : SType) (x : Operand) : BuildM Handle := do
  let s ← get
  let f := s.func.getD default
  let got := (← lift (f.find x)).type
  if got ≠ t.ty then refuse (.handleType (f.label x) got t.ty)
  match x with
  | .value id => return ⟨t, some ⟨s.id, id⟩⟩
  | _ => crash .absent

/-- Read a handle as another type of the same representation. -/
def rewrap (t : SType) (h : Handle) : BuildM Handle := do
  match h.ref with
  | none => crash .absent
  | some r =>
    if h.type.ty ≠ t.ty then refuse (.handleType (valueLabel r.id) h.type.ty t.ty)
    return { h with type := t }

/-- Build in a session and read the result as a type. -/
def into (c : SessionId) (t : SType) (act : BuildM Operand) : BuildM Handle := do
  enter c
  wrap t (← act)

/-- The value of a reference as an operand of the current function, which takes over what it needs
of an older function. -/
def resolve (r : Ref) : BuildM Operand := do
  let s ← get
  if r.session = s.id then return .value r.id
  match s.func with
  | none => return .missing
  | some f =>
    let (f, base) := f.adopt r.session (s.past.getD r.session default)
    setFunction f
    return .foreign (base + r.id)

/-- The instruction a reference stands for. -/
def textOf (r : Ref) : BuildM String := do
  let s ← get
  let f := if r.session = s.id then s.func.getD default else s.past.getD r.session default
  lift (f.valueText r.id)

/-! ## Parameters, literals and returns -/

/-- The `i`-th parameter, which must have the type. -/
def argument (t : SType) (i : Int) : BuildM Handle := do
  let v ← lift ((← function).param i)
  wrap t (.value v)

/-- The constant of a type with one pattern in every lane. -/
def constant (t : SType) (bits : UInt64) : BuildM Handle := do
  wrap t (← constSplat t.ty bits)

/-- The constant of a type given by its lanes; a scalar has one. -/
def literal (t : SType) (lanes : List UInt64) : BuildM Handle := do
  if t.isVector then wrap t (← constVector t.ty lanes)
  else constant t (lanes.headD 0)

/-- Return a value. What is built next goes to a new block that nothing reaches. -/
def returnValue (h : Handle) : BuildM Unit := do
  let f ← function
  if h.type.ty ≠ f.ret then refuse (.returnType h.type.ty f.ret)
  let _ ← sessionOf [h]
  match h.ref with
  | some r => ret (← resolve r)
  | none => crash .absent
  setInsertBlock (← newBlock)

/-- Return from a function without a result. -/
def returnVoid : BuildM Unit := do
  let f ← function
  if !f.ret.isVoid then refuse (.voidReturn f.ret)
  ret .missing
  setInsertBlock (← newBlock)

end BuildM

end SsaJit.Build
