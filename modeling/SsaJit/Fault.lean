import SsaJit.Op
import SsaJit.Violation
import SsaJit.Text

/-! How an operation can fail. A `Crash` is an access that no value answers, a `Refusal` is a call
outside an operation's contract, and a `Failure` is an outcome that callers are expected to handle.
A failure is normally handed back; a session in debug mode raises it instead. -/

namespace SsaJit

/-- An access that no value answers. -/
inductive Crash
  /-- A value, block or routine was needed where there is none. -/
  | absent
  /-- A position outside a list. -/
  | outOfRange
  /-- Integer division by zero. -/
  | divideByZero
  /-- A value of another type than the operation takes. -/
  | wrongType
  deriving DecidableEq, Repr, Inhabited

/-- A call outside an operation's contract. -/
inductive Refusal
  | vectorElement (k : Kind)
  | vectorShape (lanes : Int) (k : Kind)
  | integerWidth (bytes : Int)
  | noExportType (t : Ty)
  | loadWidth (bytes : Int)
  | storeWidth (bytes : Int)
  | nullEntry
  | callArity (args : Nat)
  | stackAllocation (bytes : Int)
  | callback (name : String)
  | staticBuffer (size memory offset : Int)
  | afterBind (operation : String)
  | afterFree (operation : String)
  | resizeSealed
  | functionSize (size buffer : Int)
  | entryOffset (offset : Int)
  | executableUnsealed
  | bindAfterFree
  | unboundUnbind
  | freeBound
  | emitTerminated (op : Op) (block : Nat)
  | returnType (got want : Ty)
  | voidReturn (want : Ty)
  | arraySize (n : Int)
  | foreignStore
  | blockTerminated (block : Nat)
  | undefinedOn (numericClass : String)
  | conversion (source target : Ty)
  | pointerConversion
  | bitcastSize (source target : Ty)
  | handleType (value : String) (got want : Ty)
  | uninitialized
  | mixedSessions
  | highMultiply (t : Ty)
  | shuffleCount (t : Ty) (want got : Nat)
  | shuffleSelector (s : Int)
  | swizzleCount (t : Ty) (want got : Nat)
  | swizzleLane (s : Nat)
  | blendMask (mask t : Ty)
  | widening (source target : Ty)
  | narrowing (source target : Ty)
  deriving DecidableEq, Repr

def Refusal.message : Refusal → String
  | .vectorElement k => "ir: invalid vector element kind " ++ k.name
  | .vectorShape n k => "ir: invalid vector shape <" ++ decimal n ++ " x " ++ k.name ++ ">"
  | .integerWidth n => "ir: no integer kind of size " ++ decimal n
  | .noExportType t => "ir: no LLVM type for " ++ t.name
  | .loadWidth n => "jit: load of " ++ decimal n ++ " bytes"
  | .storeWidth n => "jit: store of " ++ decimal n ++ " bytes"
  | .nullEntry => "jit: Invoke on a null entry"
  | .callArity n => "jit: Call with " ++ decimal n ++ " integer arguments"
  | .stackAllocation n => "jit: cannot allocate a " ++ decimal n ++ " byte native stack"
  | .callback c => "jit: unsupported memory manager callback " ++ c
  | .staticBuffer n m o => "routine: static buffer " ++ decimal n ++ "/" ++ decimal m ++
      " with entry offset " ++ decimal o ++ " out of range"
  | .afterBind o => "routine: " ++ o ++ " after bind"
  | .afterFree o => "routine: " ++ o ++ " after free"
  | .resizeSealed => "routine: Resize on a static or sealed routine"
  | .functionSize n m => "routine: function size " ++ decimal n ++ " exceeds buffer of " ++
      decimal m ++ " bytes"
  | .entryOffset n => "routine: entry offset " ++ decimal n ++ " outside buffer"
  | .executableUnsealed => "routine: MarkExecutable before Seal"
  | .bindAfterFree => "routine: Bind after free"
  | .unboundUnbind => "routine: Unbind without matching Bind"
  | .freeBound => "routine: Free on a bound routine, use Unbind"
  | .emitTerminated o b => "reactor: emitting " ++ o.name ++ " into terminated block " ++ blockLabel b
  | .returnType t w => "reactor: returning " ++ t.name ++ " from a function returning " ++ w.name
  | .voidReturn w => "reactor: void return from a function returning " ++ w.name
  | .arraySize n => "reactor: array of " ++ decimal n ++ " elements"
  | .foreignStore => "reactor: storing a value from another context"
  | .blockTerminated b => "reactor: block " ++ blockLabel b ++ " already terminated"
  | .undefinedOn c => "reactor: operation not defined on " ++ c ++ " values"
  | .conversion s t => "reactor: cannot convert " ++ s.name ++ " to " ++ t.name
  | .pointerConversion => "reactor: use PointerCast or Address for pointer conversions"
  | .bitcastSize s t => "reactor: bitcast " ++ s.name ++ " to " ++ t.name ++ " changes size"
  | .handleType v t w => "reactor: " ++ v ++ " has type " ++ t.name ++ ", want " ++ w.name
  | .uninitialized => "reactor: use of an uninitialized value"
  | .mixedSessions => "reactor: values from different contexts"
  | .highMultiply t => "reactor: no high multiply for " ++ t.name
  | .shuffleCount t n m => "reactor: shuffle of " ++ t.name ++ " needs " ++ decimal n ++
      " selectors, got " ++ decimal m
  | .shuffleSelector s => "reactor: shuffle selector " ++ decimal s ++ " out of range"
  | .swizzleCount t n m => "reactor: swizzle of " ++ t.name ++ " needs " ++ decimal n ++
      " selectors, got " ++ decimal m
  | .swizzleLane s => "reactor: swizzle lane " ++ decimal s ++ " out of range"
  | .blendMask m t => "reactor: blend mask " ++ m.name ++ " does not match " ++ t.name
  | .widening s t => "reactor: cannot widen " ++ s.name ++ " to " ++ t.name
  | .narrowing s t => "reactor: cannot narrow " ++ s.name ++ " to " ++ t.name

/-- Why the code generator turns a function down. -/
inductive Unsupported
  | parameters (function : String) (ints floats : Nat)
  | callArguments (ints floats : Nat)
  | intrinsicArity (i : Intrinsic)
  | intrinsic (i : Intrinsic) (t : Ty)
  | frame (function : String) (size limit : Int)
  | unterminated (function : String) (block : Nat)
  | op (o : Op)
  deriving DecidableEq, Repr

def Unsupported.text : Unsupported → String
  | .parameters f i n => f ++ " has " ++ decimal i ++ " integer and " ++ decimal n ++
      " float parameters"
  | .callArguments i n => "call with " ++ decimal i ++ " integer and " ++ decimal n ++
      " float arguments"
  | .intrinsicArity i => "intrinsic " ++ i.name ++ " without operands"
  | .intrinsic i t => "intrinsic " ++ i.name ++ " on " ++ t.name
  | .frame f n m => f ++ " needs a " ++ decimal n ++ " byte frame, native stack frame limit is " ++
      decimal m
  | .unterminated f b => f ++ ": " ++ blockLabel b ++ " is not terminated"
  | .op o => "op " ++ o.name

/-- How the nesting of control-flow scopes was broken. -/
inductive ScopeFault
  | notInnermost (closing inner : String)
  | wrongState (scope : String)
  | conditionTwice
  | noCondition
  | detachedElse
  | stillOpen (count : Nat) (inner : String)
  deriving DecidableEq, Repr

def ScopeFault.text : ScopeFault → String
  | .notInnermost c i => "closing " ++ c ++ " while innermost scope is " ++ i
  | .wrongState s => s ++ " scope cannot do this"
  | .conditionTwice => "loop condition set twice"
  | .noCondition => "loop closed without a condition"
  | .detachedElse => "Else must directly follow its If"
  | .stillOpen n i => decimal n ++ " control-flow scopes still open (innermost " ++ i ++ ")"

/-- An outcome that callers are expected to handle. -/
inductive Failure
  | invalidFunction (function : String) (found : List Violation)
  | notExportable (reason : String)
  | unsupported (reason : Unsupported)
  | callback (name : String)
  | scope (fault : ScopeFault)
  | alreadyAcquired
  | noFunction
  | sessionClosed
  | referenceState (type reason : String)
  | allocation (reason : String)
  | unknownPass (name : String) (known : List String)
  | unboundLabel (label : Int)
  | bodyTooSmall (function : String) (bytes attempts : Nat)
  | noBody (function : String)
  | noRoutine
  /-- A failure reported by a collaborator, by its text. -/
  | reported (text : String)
  /-- A failure with a note on where it happened. -/
  | noted (context : String) (inner : Failure)
  deriving Repr

def Failure.message : Failure → String
  | .invalidFunction f vs => joinWith "; " (vs.map (Violation.message f))
  | .notExportable r => "invalid IR: " ++ r
  | .unsupported r => "jit: unsupported construct: " ++ r.text
  | .callback c => "jit: unsupported memory manager callback: " ++ c
  | .scope s => "reactor: control-flow scope mismatch: " ++ s.text
  | .alreadyAcquired => "reactor: routine already acquired for this context"
  | .noFunction => "reactor: no function under construction"
  | .sessionClosed => "reactor: context closed"
  | .referenceState t r => "cache: state type is not bitwise comparable: " ++ t ++ ": " ++ r
  | .allocation r => "execmem: allocation failed: " ++ r
  | .unknownPass n known => "opt: unknown pass " ++ Text.quoted n ++ " (known: " ++
      joinWith ", " known ++ ")"
  | .unboundLabel l => "jit: unbound label " ++ decimal l
  | .bodyTooSmall f n k => "jit: " ++ f ++ ": function body of " ++ decimal n ++
      " bytes does not fit after " ++ decimal k ++ " attempts"
  | .noBody f => "jit: EndFunctionBody for " ++ f ++ " without a function body"
  | .noRoutine => "cache: generator returned no routine"
  | .reported t => t
  | .noted c e => c ++ ": " ++ e.message

/-- The classes of failures that callers tell apart. -/
inductive FailureClass
  | invalid | unsupported | unsupportedCallback | scopeMismatch | alreadyAcquired
  | noFunction | closed | referenceState | allocation | plain
  deriving DecidableEq, Repr

/-- The class of a failure; a note does not change it. -/
def Failure.class : Failure → FailureClass
  | .invalidFunction _ _ | .notExportable _ => .invalid
  | .unsupported _ => .unsupported
  | .callback _ => .unsupportedCallback
  | .scope _ => .scopeMismatch
  | .alreadyAcquired => .alreadyAcquired
  | .noFunction => .noFunction
  | .sessionClosed => .closed
  | .referenceState _ _ => .referenceState
  | .allocation _ => .allocation
  | .noted _ e => e.class
  | _ => .plain

/-- Every way an operation ends without a result. -/
inductive Fault
  | crash (c : Crash)
  | refusal (r : Refusal)
  | failure (f : Failure)
  | raised (f : Failure)
  deriving Repr

/-- Results that may be faults. -/
abbrev Outcome := Except Fault

namespace Outcome

def crash {α : Type} (c : Crash) : Outcome α := .error (.crash c)
def refuse {α : Type} (r : Refusal) : Outcome α := .error (.refusal r)
def fail {α : Type} (f : Failure) : Outcome α := .error (.failure f)

/-- The value, or a crash for want of one. -/
def need {α : Type} : Option α → Outcome α
  | some a => .ok a
  | none => crash .absent

/-- The element at a position, or a crash past the end. -/
def at? {α : Type} (xs : List α) (i : Nat) : Outcome α :=
  match xs[i]? with
  | some a => .ok a
  | none => crash .outOfRange

end Outcome

end SsaJit
