import SsaJit.Fault
import SsaJit.Single

/-! Keys of cached routines. A state is described by its shape; only shapes of fixed size have keys,
and a key is the fields' bytes in order, without padding. -/

namespace SsaJit.Cache

/-- The shape of a state. -/
inductive Shape
  /-- A truth value or an integer of so many bytes. -/
  | fixed (bytes : Nat)
  /-- Floats and complex numbers, as so many single or double precision parts. -/
  | singles (parts : Nat)
  | doubles (parts : Nat)
  | array (length : Nat) (elem : Shape)
  | record (fields : List (String × Shape))
  /-- An integer whose width depends on the machine. -/
  | platform (kind : String)
  /-- Anything that refers to other memory. -/
  | reference (kind : String)
  deriving Repr, Inhabited

/-- What keeps a shape from having keys. -/
inductive Unkeyed
  | platform (kind : String)
  | reference (kind : String)
  | field (name : String) (inner : Unkeyed)
  deriving DecidableEq, Repr

def Unkeyed.text : Unkeyed → String
  | .platform k => k ++ " has a platform-dependent size"
  | .reference k => k ++ " values hold references"
  | .field n inner => "field " ++ n ++ ": " ++ inner.text

mutual

/-- The first part of a shape that has no keys. -/
def Shape.unkeyed : Shape → Option Unkeyed
  | .fixed _ | .singles _ | .doubles _ => none
  | .array _ elem => elem.unkeyed
  | .record fields => unkeyedField fields
  | .platform k => some (.platform k)
  | .reference k => some (.reference k)

def unkeyedField : List (String × Shape) → Option Unkeyed
  | [] => none
  | (name, shape) :: rest =>
    match shape.unkeyed with
    | some u => some (.field name u)
    | none => unkeyedField rest

end

/-- Reject a shape without keys; `name` is what the state's type is called. -/
def Shape.check (name : String) (s : Shape) : Outcome Unit :=
  match s.unkeyed with
  | some u => .fail (.referenceState name u.text)
  | none => .ok ()

mutual

/-- How many bytes the states of a shape take, if that is the same everywhere. -/
def Shape.size? : Shape → Option Nat
  | .fixed n => some n
  | .singles n => some (n * 4)
  | .doubles n => some (n * 8)
  | .array n elem => elem.size?.map (n * ·)
  | .record fields => fieldsSize? fields
  | .platform _ | .reference _ => none

def fieldsSize? : List (String × Shape) → Option Nat
  | [] => some 0
  | (_, shape) :: rest => do return (← shape.size?) + (← fieldsSize? rest)

end

/-- A state: the pattern of a leaf, or the parts of an array or record. -/
inductive State
  | leaf (w : UInt64)
  | parts (ps : List State)
  deriving Repr, Inhabited

abbrev Key := List UInt8

/-- A single inside a larger state goes through double precision, which quiets a NaN. -/
def widened (w : UInt64) : UInt64 :=
  let x := Single.ofWord w
  if x.isNaN then x.quiet.toWord else w

mutual

/-- The bytes of a part of a state. -/
def Shape.partKey : Shape → State → Key
  | .fixed n, .leaf w => leBytes n w
  | .singles _, .leaf w => leBytes 4 (widened w)
  | .doubles _, .leaf w => leBytes 8 w
  | .singles _, .parts ps => ps.flatMap fun
    | .leaf w => leBytes 4 (widened w)
    | .parts _ => []
  | .doubles _, .parts ps => ps.flatMap fun
    | .leaf w => leBytes 8 w
    | .parts _ => []
  | .array n elem, .parts ps => arrayKey elem n ps
  | .record fields, .parts ps => recordKey fields ps
  | _, _ => []

def arrayKey (elem : Shape) : Nat → List State → Key
  | n + 1, s :: rest => elem.partKey s ++ arrayKey elem n rest
  | _, _ => []

/-- A blank field is zeros, whatever it holds. -/
def recordKey : List (String × Shape) → List State → Key
  | (name, shape) :: fields, s :: rest =>
    (if name = "_" then List.replicate (shape.size?.getD 0) 0 else shape.partKey s) ++ recordKey fields rest
  | _, _ => []

end

/-- The key of a state. A state that is one single keeps its exact bits. -/
def Shape.key : Shape → State → Key
  | .singles _, .leaf w => leBytes 4 w
  | shape, s => shape.partKey s

/-- The key of a state whose type is called `name`. Without a fixed size there is none. -/
def Shape.keyOf (name : String) (shape : Shape) (s : State) : Outcome Key :=
  match shape.size? with
  | some _ => .ok (shape.key s)
  | none => .error (.raised (.noted "cache" (.reported
      ("binary.Append: some values are not fixed-sized in type *" ++ name))))

end SsaJit.Cache
