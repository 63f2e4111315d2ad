import Mathlib.Logic.Function.Basic
import SsaJit.Build.Arith
import SsaJit.Build.Control
import SsaJit.Build.Storage

/-! Structured programs on integer variables: their syntax, what they do, and how they are handed to
the builder. A variable is known by the number of variables that were created before it; programs are
typed by the variables that there are before and after them, so that none is used before it is created.

A program is built in the order in which it is written. Conditions of loops may hold statements of
their own, as the builder takes them for actions. -/

namespace SsaJit.Build

/-- Types of single integers and truth values. -/
def SType.isWord (t : SType) : Bool := t.isBitwise && !t.isVector

/-- Can values of the type be converted? The builder does not make bytes of truth values. -/
def SType.converts (t dest : SType) : Bool :=
  dest.isWord && (dest == .bool || t != .bool || dest.ty.size != 1)

/-! ## Expressions -/

/-- Operations on two numbers of one type. -/
inductive BinOp
  | add | sub | mul | div | rem | and | or | xor | shl | shr
  deriving DecidableEq, Repr

/-- Integer expressions over parameters and variables of given types. -/
inductive Expr (params vars : List SType) : SType → Type
  | literal (t : SType) (ht : t.isWord = true) (w : UInt64) : Expr params vars t
  | argument (i : Nat) {t : SType} (ht : t.isWord = true) (hi : params[i]? = some t) :
      Expr params vars t
  | read (x : Nat) {t : SType} (ht : t.isWord = true) (hx : vars[x]? = some t) :
      Expr params vars t
  | binary {t : SType} (op : BinOp) (a b : Expr params vars t) : Expr params vars t
  | neg {t : SType} (a : Expr params vars t) : Expr params vars t
  | not {t : SType} (a : Expr params vars t) : Expr params vars t
  | compare {t : SType} (r : Relation) (a b : Expr params vars t) : Expr params vars .bool
  | choose {t : SType} (c : Expr params vars .bool) (a b : Expr params vars t) :
      Expr params vars t
  | convert {t : SType} (dest : SType) (hdest : t.converts dest = true) (a : Expr params vars t) :
      Expr params vars dest

/-- What the operation makes of two numbers. Nothing stops the program: `a / 0 = a`, `a % 0 = 0`, and
what is too large is cut to the type. -/
def BinOp.eval (op : BinOp) (t : SType) (a b : UInt64) : UInt64 :=
  let k := t.ty.elemKind
  let signed (f : Int64 → Int64 → Int64) := (f (k.signExtend a) (k.signExtend b)).toUInt64
  k.canon <| match op with
  | .add => a + b
  | .sub => a - b
  | .mul => a * b
  | .div => if b = 0 then a else if t.isSigned then signed (· / ·) else a / b
  | .rem => if b = 0 then 0 else if t.isSigned then signed (· % ·) else a % b
  | .and => a &&& b
  | .or => a ||| b
  | .xor => a ^^^ b
  | .shl => a <<< (b &&& 63)
  | .shr => if t.isSigned then (k.signExtend a >>> (b &&& 63).toInt64).toUInt64 else a >>> (b &&& 63)

/-- Does the relation hold between two numbers of a type? -/
def Relation.holds (r : Relation) (t : SType) (a b : UInt64) : Bool :=
  let k := t.ty.elemKind
  let less (a b : UInt64) : Bool := if t.isSigned then k.signExtend a < k.signExtend b else a < b
  match r with
  | .eq => a == b
  | .ne => a != b
  | .lt => less a b
  | .le => !less b a
  | .gt => less b a
  | .ge => !less a b

/-- The number in another type: cut or extended by its sign. As a truth value it says whether it is not
zero. -/
def convertWord (source dest : SType) (a : UInt64) : UInt64 :=
  if dest = .bool then if a = 0 then 0 else 1
  else dest.ty.elemKind.canon
    (if source.isSigned then (source.ty.elemKind.signExtend a).toUInt64 else a)

/-- What the variables hold. -/
abbrev Store := Nat → UInt64

namespace Expr

variable {params vars : List SType} {t : SType}

/-- The value of an expression. -/
def eval (args : Nat → UInt64) (σ : Store) : {t : SType} → Expr params vars t → UInt64
  | t, .literal _ _ w => t.ty.elemKind.canon w
  | _, .argument i _ _ => args i
  | _, .read x _ _ => σ x
  | t, .binary op a b => op.eval t (a.eval args σ) (b.eval args σ)
  | t, .neg a => t.ty.elemKind.canon (0 - a.eval args σ)
  | t, .not a => t.ty.elemKind.canon (~~~ a.eval args σ)
  | _, .compare (t := t) r a b => if r.holds t (a.eval args σ) (b.eval args σ) then 1 else 0
  | _, .choose c a b => if c.eval args σ = 0 then b.eval args σ else a.eval args σ
  | _, .convert (t := t) dest _ a => convertWord t dest (a.eval args σ)

end Expr

/-! ## Statements -/

/-- Statements of a program that returns values of type `ret`, by the types of the variables before and
after them. The statement in front of the condition of a loop is part of its condition. -/
inductive Stmt (params : List SType) (ret : SType) : List SType → List SType → Type
  | skip {vars : List SType} : Stmt params ret vars vars
  | declare {vars : List SType} (t : SType) (ht : t.isWord = true) :
      Stmt params ret vars (vars ++ [t])
  | assign {vars : List SType} {t : SType} (x : Nat) (hx : vars[x]? = some t)
      (e : Expr params vars t) : Stmt params ret vars vars
  | seq {vars vars' vars'' : List SType} (p : Stmt params ret vars vars')
      (q : Stmt params ret vars' vars'') : Stmt params ret vars vars''
  | ifThen {vars vars' : List SType} (c : Expr params vars .bool)
      (p : Stmt params ret vars vars') : Stmt params ret vars vars'
  | ifElse {vars vars' vars'' : List SType} (c : Expr params vars .bool)
      (p : Stmt params ret vars vars') (q : Stmt params ret vars' vars'') :
      Stmt params ret vars vars''
  | whileLoop {vars vars' vars'' : List SType} (pre : Stmt params ret vars vars')
      (c : Expr params vars' .bool) (body : Stmt params ret vars' vars'') :
      Stmt params ret vars vars''
  | forLoop {vars vars' vars'' vars''' : List SType} (pre : Stmt params ret vars vars')
      (c : Expr params vars' .bool) (body : Stmt params ret vars' vars'')
      (step : Stmt params ret vars'' vars''') : Stmt params ret vars vars'''
  | doUntil {vars vars' vars'' : List SType} (body : Stmt params ret vars vars')
      (pre : Stmt params ret vars' vars'') (c : Expr params vars'' .bool) :
      Stmt params ret vars vars''
  | give {vars : List SType} (e : Expr params vars ret) : Stmt params ret vars vars
  | giveNothing {vars : List SType} (hret : ret = .void) : Stmt params ret vars vars

/-- What comes of a statement: control goes on behind it, or the program returns, with a value or
without one. -/
inductive Result
  | next (σ : Store)
  | returned (w : Option UInt64)

/-- What statements may come to from each start. -/
abbrev Behaviour := Store → Result → Prop

/-- One after the other, unless the first returns. -/
def Behaviour.andThen (A B : Behaviour) : Behaviour := fun σ r =>
  (∃ τ, A σ (.next τ) ∧ B τ r) ∨ ∃ w, A σ (.returned w) ∧ r = .returned w

/-- One if the condition holds, else the other. -/
def Behaviour.either (c : Store → UInt64) (A B : Behaviour) : Behaviour := fun σ r =>
  if c σ = 0 then B σ r else A σ r

/-- Prepare the test, and while it succeeds do the body and begin again. -/
inductive Behaviour.while (P : Behaviour) (c : Store → UInt64) (B : Behaviour) : Behaviour
  | returnedEarly {σ : Store} {w : Option UInt64} : P σ (.returned w) →
      Behaviour.while P c B σ (.returned w)
  | stop {σ τ : Store} : P σ (.next τ) → c τ = 0 → Behaviour.while P c B σ (.next τ)
  | returned {σ τ : Store} {w : Option UInt64} : P σ (.next τ) → c τ ≠ 0 → B τ (.returned w) →
      Behaviour.while P c B σ (.returned w)
  | again {σ τ υ : Store} {r : Result} : P σ (.next τ) → c τ ≠ 0 → B τ (.next υ) →
      Behaviour.while P c B υ r → Behaviour.while P c B σ r

/-- Do the body, and again until the test behind it succeeds. -/
inductive Behaviour.until (B : Behaviour) (c : Store → UInt64) : Behaviour
  | returned {σ : Store} {w : Option UInt64} : B σ (.returned w) → Behaviour.until B c σ (.returned w)
  | stop {σ τ : Store} : B σ (.next τ) → c τ ≠ 0 → Behaviour.until B c σ (.next τ)
  | again {σ τ : Store} {r : Result} : B σ (.next τ) → c τ = 0 → Behaviour.until B c τ r →
      Behaviour.until B c σ r

/-- The value that a program returns when it falls off its end; nothing if it returns none. -/
def SType.zeroResult (t : SType) : Option (List UInt64) :=
  if t.ty.isVoid then none else some (List.replicate t.ty.numLanes 0)

namespace Stmt

variable {params : List SType} {ret : SType}

/-- What a statement does. -/
def does (args : Nat → UInt64) : {vars vars' : List SType} → Stmt params ret vars vars' → Behaviour
  | _, _, .skip => fun σ r => r = .next σ
  | _, _, .declare _ _ => fun σ r => r = .next σ
  | _, _, .assign x _ e => fun σ r => r = .next (Function.update σ x (e.eval args σ))
  | _, _, .seq p q => (p.does args).andThen (q.does args)
  | _, _, .ifThen c p => .either (c.eval args) (p.does args) fun σ r => r = .next σ
  | _, _, .ifElse c p q => .either (c.eval args) (p.does args) (q.does args)
  | _, _, .whileLoop pre c body => .while (pre.does args) (c.eval args) (body.does args)
  | _, _, .forLoop pre c body step =>
    .while (pre.does args) (c.eval args) ((body.does args).andThen (step.does args))
  | _, _, .doUntil body pre c => .until ((body.does args).andThen (pre.does args)) (c.eval args)
  | _, _, .give e => fun σ r => r = .returned (some (e.eval args σ))
  | _, _, .giveNothing _ => fun _ r => r = .returned none

/-- The program returns the result. Variables begin with zero. -/
def Returns {vars : List SType} (p : Stmt params ret [] vars) (args : Nat → UInt64)
    (r : Option (List UInt64)) : Prop :=
  (∃ w, p.does args (fun _ => 0) (.returned w) ∧ r = w.map fun w => [w]) ∨
    ∃ σ, p.does args (fun _ => 0) (.next σ) ∧ r = ret.zeroResult

end Stmt

/-! ## Building -/

/-- The choice of instructions for an operation. -/
def BinOp.choice : BinOp → Choice
  | .add => .add | .sub => .sub | .mul => .mul | .div => .div | .rem => .rem
  | .and => .and | .or => .or | .xor => .xor | .shl => .shl | .shr => .shr

namespace BuildM

/-- The builder's operation: division goes by way of a divisor that is safe. -/
def operate (op : BinOp) (x y : Handle) : BuildM Handle :=
  match op with
  | .div => divide x y
  | .rem => remainder x y
  | op => arith op.choice x y

end BuildM

open BuildM

/-- Build an expression where the variables are the given ones. -/
def Expr.build {params vars : List SType} (ρ : List Variable) :
    {t : SType} → Expr params vars t → BuildM Handle
  | t, .literal _ _ w => constant t w
  | t, .argument i _ _ => BuildM.argument t i
  | _, .read x _ _ => loadVariable (ρ.getD x default) 0 false
  | _, .binary op a b => do operate op (← a.build ρ) (← b.build ρ)
  | _, .neg a => do BuildM.neg (← a.build ρ)
  | _, .not a => do bitNot (← a.build ρ)
  | _, .compare r a b => do BuildM.compare r (← a.build ρ) (← b.build ρ)
  | _, .choose c a b => do BuildM.choose (← c.build ρ) (← a.build ρ) (← b.build ρ)
  | _, .convert dest _ a => do BuildM.convert dest (← a.build ρ)

/-- Building with the variables that were created so far. -/
abbrev ProgramM := StateT (List Variable) BuildM

/-- Build a statement. -/
def Stmt.build {params : List SType} {ret : SType} :
    {vars vars' : List SType} → Stmt params ret vars vars' → ProgramM Unit
  | _, _, .skip => pure ()
  | _, _, .declare t _ => do
    let v ← newVariable t
    modify (· ++ [v])
  | _, _, .assign x _ e => do
    let ρ ← get
    let h ← e.build ρ
    storeVariable (ρ.getD x default) h 0 false
  | _, _, .seq p q => do
    p.build
    q.build
  | _, _, .ifThen c p => do
    let h ← c.build (← get)
    let _ ← BuildM.ifThen h p.build
  | _, _, .ifElse c p q => do
    let h ← c.build (← get)
    let clause ← BuildM.ifThen h p.build
    orElse clause q.build
  | _, _, .whileLoop pre c body =>
    BuildM.whileLoop (do pre.build; c.build (← get)) body.build
  | _, _, .forLoop pre c body step =>
    BuildM.forLoop (do pre.build; c.build (← get)) step.build body.build
  | _, _, .doUntil body pre c =>
    repeatUntil body.build (do pre.build; c.build (← get))
  | _, _, .give e => do
    let h ← e.build (← get)
    returnValue h
  | _, _, .giveNothing _ => returnVoid

end SsaJit.Build
