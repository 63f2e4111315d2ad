import Mathlib.Tactic.FinCases
import SsaJit.Build.Script
import SsaJit.Proofs.Build.Steps

/-! Code between the beginning and the end of a construct. `Code` are the actions that a program builds
with, put together so that only constructs begun by them are gone on with or ended. What such code
builds does not depend on the constructs around it: it reads and changes neither the nest that it was
started in nor the constructs that there were before. -/

namespace SsaJit.Build

/-- The session with another nest and other constructs. -/
def Session.nested (s : Session) (n : List ScopeId) (cs : Array Scope) : Session :=
  { s with nest := n, scopes := cs }

namespace BuildM

variable {α β : Type} {s s' : Session} {b : BlockId}

/-- The action fails and leaves `s'`. -/
def Fails (act : BuildM α) (s : Session) (e : Fault) (s' : Session) : Prop :=
  act.run.run s = (.error e, s')

theorem Fails.run_bind {act : BuildM α} {k : α → BuildM β} {e : Fault} (h : act.Fails s e s') :
    (act >>= k).run.run s = (.error e, s') := by
  unfold Fails at h
  rw [ExceptT.run_bind, StateT.run_bind, h]
  rfl

/-! ## Code -/

/-- Code that begins and ends no constructs: it adds instructions where the insertion point is, and
stack space and new blocks, reads what is in the session but for the constructs, and can end the block
it is in, to go on in a new one. -/
class inductive Plain : {α : Type} → BuildM α → Prop
  | pure {α : Type} (a : α) : Plain (pure a)
  | bind {α β : Type} {x : BuildM α} {f : α → BuildM β} : Plain x → (∀ a, Plain (f a)) →
      Plain (x >>= f)
  | fail {α : Type} (e : Fault) : Plain (throw e : BuildM α)
  | read {α : Type} {f : Session → BuildM α} : (∀ s n cs, f (s.nested n cs) = f s) →
      (∀ s, Plain (f s)) → Plain (get >>= f)
  | emit (v : Value) : Plain (emit v)
  | alloca (t : Ty) (n : Int) : Plain (alloca t n)
  | globalAddr (name : String) (data : List UInt8) (align : Int) : Plain (globalAddr name data align)
  | resolve (r : Ref) : Plain (resolve r)
  | ret (x : Operand) : Plain (ret x)
  | unreachable : Plain unreachable
  | newBlock : Plain newBlock
  | afresh : Plain (newBlock >>= setInsertBlock)

attribute [instance] Plain.pure Plain.fail Plain.emit Plain.alloca Plain.globalAddr Plain.resolve
  Plain.ret Plain.unreachable Plain.newBlock Plain.afresh

namespace Plain

variable {x y : BuildM α}

instance [hx : Plain x] {f : α → BuildM β} [hf : ∀ a, Plain (f a)] : Plain (x >>= f) := .bind hx hf

instance {P : Prop} [Decidable P] [Plain x] [Plain y] : Plain (if P then x else y) := by
  split <;> infer_instance

instance [Plain x] {f : α → β} : Plain (f <$> x) := by
  rw [map_eq_pure_bind]
  infer_instance

instance (r : Outcome α) : Plain (lift r) := by
  cases r with
  | ok a => exact .pure a
  | error e => exact .fail e

instance (r : Refusal) : Plain (refuse r : BuildM α) := .fail _
instance (r : Failure) : Plain (raise r : BuildM α) := .fail _
instance (r : Crash) : Plain (crash r : BuildM α) := .fail _

instance : Plain live := .read (fun _ _ _ => rfl) inferInstance

instance : Plain function :=
  .bind inferInstance fun _ => .read (fun _ _ _ => rfl) fun s => by cases s.func <;> infer_instance

instance (x : Operand) : Plain (typeOf x) :=
  .read (fun _ _ _ => rfl) inferInstance

instance (c : SessionId) : Plain (enter c) := .read (fun _ _ _ => rfl) inferInstance

instance (hs : List Handle) : Plain (sessionOf hs) := by
  unfold sessionOf
  infer_instance

instance (t : SType) (x : Operand) : Plain (wrap t x) :=
  .read (fun _ _ _ => rfl) fun s => by cases x <;> (dsimp only; infer_instance)

instance (t : SType) (h : Handle) : Plain (rewrap t h) := by
  unfold rewrap
  cases h.ref <;> (dsimp only; infer_instance)

instance {c : SessionId} {t : SType} {act : BuildM Operand} [Plain act] : Plain (into c t act) := by
  unfold into
  infer_instance

section instructions

variable (x y z : Operand) (t : Ty)

instance (w : UInt64) : Plain (constInt t w) := by unfold constInt; infer_instance
instance (w : UInt64) : Plain (constPointer w) := by unfold constPointer; infer_instance
instance (ws : List UInt64) : Plain (constVector t ws) := by unfold constVector; dsimp only; infer_instance
instance (w : UInt64) : Plain (constSplat t w) := by unfold constSplat; infer_instance
instance : Plain (constNull t) := by unfold constNull; infer_instance
instance : Plain (constAllOnes t) := by unfold constAllOnes; infer_instance
instance (op : Op) : Plain (unary op x) := by unfold unary; infer_instance
instance (op : Op) : Plain (binary op x y) := by unfold binary; infer_instance
instance : Plain (negate x) := by unfold negate; infer_instance
instance : Plain (complement x) := by unfold complement; infer_instance
instance (op : Op) (p : Predicate) : Plain (compareWith op p x y) := by unfold compareWith; infer_instance
instance (p : Predicate) : Plain (icmp p x y) := by unfold icmp; infer_instance
instance (p : Predicate) : Plain (fcmp p x y) := by unfold fcmp; infer_instance
instance (op : Op) : Plain (cast op x t) := by unfold cast; infer_instance
instance : Plain (select x y z) := by unfold select; infer_instance
instance (i : Int) : Plain (extractLane x i) := by unfold extractLane; infer_instance
instance (i : Int) : Plain (insertLane x y i) := by unfold insertLane; infer_instance
instance (l : List Int) : Plain (shuffleLanes x y l) := by unfold shuffleLanes; infer_instance
instance (l : List Operand) : Plain (callTo x t l) := by unfold callTo; infer_instance
instance (id : Intrinsic) (l : List Operand) : Plain (intrinsic id t l) := by unfold intrinsic; infer_instance
instance (align : Int) (v : Bool) : Plain (loadFrom x t align v) := by unfold loadFrom; infer_instance
instance (align : Int) (v : Bool) : Plain (storeTo x y align v) := by
  cases x <;> (unfold storeTo; infer_instance)
instance : Plain (elementAddr x t y) := by unfold elementAddr; infer_instance

end instructions

section arithmetic

set_option synthInstance.maxSize 1000

variable (x y z : Handle) (c : Choice) (t : Ty) (a b : Operand) (r : Relation) (u : SType)

instance : Plain (arith c x y) := by unfold arith; infer_instance
instance (signed : Bool) : Plain (safeDivisor t a b signed) := by
  unfold safeDivisor
  dsimp only
  infer_instance
instance : Plain (guardedDivision c x y) := by unfold guardedDivision; dsimp only; infer_instance
instance : Plain (divide x y) := by unfold divide; infer_instance
instance : Plain (remainder x y) := by unfold remainder; infer_instance
instance : Plain (neg x) := by unfold neg; infer_instance
instance (op : Op) : Plain (extremum op r x y) := by unfold extremum; infer_instance
instance : Plain (least x y) := by unfold least; infer_instance
instance : Plain (greatest x y) := by unfold greatest; infer_instance
instance : Plain (floatBits t) := by unfold floatBits; infer_instance
instance : Plain (clearSign t a) := by unfold clearSign; infer_instance
instance : Plain (absolute x) := by
  unfold absolute
  cases x.type.numClass <;> (dsimp only; infer_instance)
instance : Plain (bitNot x) := by unfold bitNot; infer_instance
instance (n : UInt64) : Plain (shiftBy c x n) := by unfold shiftBy; infer_instance
instance : Plain (choose x y z) := by unfold choose; infer_instance
instance (p : Predicate) : Plain (compareAs u p x y) := by
  unfold compareAs
  split <;> infer_instance
instance : Plain (compare r x y) := by unfold compare; infer_instance
instance : Plain (convert u x) := by
  unfold convert
  dsimp only
  infer_instance
instance : Plain (bitcast u x) := by unfold bitcast; dsimp only; infer_instance
instance (i : Int) : Plain (extract x i) := by unfold extract; infer_instance
instance (i : Int) : Plain (insert x i y) := by unfold insert; infer_instance
instance : Plain (splat u x) := by unfold splat; infer_instance
instance : Plain (compareLanes r x y) := by unfold compareLanes; infer_instance
instance : Plain (compareLanesDenied r x y) := by unfold compareLanesDenied; infer_instance
instance (l : List Int) : Plain (shuffle x y l) := by
  unfold shuffle
  dsimp only
  cases l.find? _ <;> infer_instance
instance (l : List UInt8) : Plain (swizzle x l) := by
  unfold swizzle
  dsimp only
  cases l.find? _ <;> infer_instance
instance : Plain (blend x y z) := by unfold blend; dsimp only; infer_instance
instance (high : Bool) : Plain (widen u x high) := by unfold widen; dsimp only; infer_instance
instance (source signed : Bool) (k : Kind) : Plain (clampTo t a source k signed) := by
  unfold clampTo
  infer_instance
instance (source sat : Bool) : Plain (narrowLanes t source u sat a b) := by
  unfold narrowLanes
  dsimp only
  infer_instance
instance (sat : Bool) : Plain (narrow u x y sat) := by
  have hread : ∀ (id : Intrinsic) (p q : BuildM Operand) [Plain p] [Plain q],
      Plain (do if sat && x.type.isSigned && (← get).cpu.supports id x.type.ty then p else q) :=
    fun _ _ _ _ _ => .read (fun _ _ _ => rfl) inferInstance
  unfold narrow
  dsimp only
  infer_instance

instance {id : Intrinsic} {l : List Operand} {p : BuildM Operand} [Plain p] :
    Plain (orElseBuild id t l p) := .read (fun _ _ _ => rfl) inferInstance
instance : Plain (squareRoot x) := by unfold squareRoot; infer_instance
instance : Plain (reciprocal x) := by unfold reciprocal; infer_instance
instance : Plain (reciprocalRoot x) := by unfold reciprocalRoot; infer_instance
instance : Plain (roundEven t a) := by unfold roundEven; infer_instance
instance : Plain (round x) := by unfold round; infer_instance
instance (o : Operand) : Plain (saturateWhere t a b o) := by unfold saturateWhere; dsimp only; infer_instance
instance (signed : Bool) : Plain (sumWithin t signed a b) := by unfold sumWithin; infer_instance
instance (signed : Bool) : Plain (differenceWithin t signed a b) := by
  unfold differenceWithin
  infer_instance
instance : Plain (addSat x y) := by unfold addSat; dsimp only; infer_instance
instance : Plain (subSat x y) := by unfold subSat; dsimp only; infer_instance
instance (signed : Bool) : Plain (wideProduct t a b signed) := by
  unfold wideProduct
  dsimp only
  infer_instance
instance highProduct {signed : Bool} {splits : Nat} : Plain (highProduct signed splits t a b) := by
  induction splits generalizing t a b with
  | zero => unfold BuildM.highProduct; infer_instance
  | succ splits ih => unfold BuildM.highProduct; dsimp only; infer_instance
instance : Plain (mulHigh x y) := by
  unfold mulHigh
  exact .bind inferInstance fun s => .read (fun _ _ _ => rfl) inferInstance
instance (signed : Bool) : Plain (roundedMean t signed a b) := by unfold roundedMean; infer_instance
instance : Plain (average x y) := by
  have hread : ∀ (p q : BuildM Operand) [Plain p] [Plain q],
      Plain (do if !x.type.isSigned && (← get).cpu.supports .avgU x.type.ty then p else q) :=
    fun _ _ _ _ => .read (fun _ _ _ => rfl) inferInstance
  unfold average
  dsimp only
  infer_instance

end arithmetic

section storage

variable (x y : Handle) (v : Variable) (u : SType)

instance (o : Operand) : Plain (ownId o) := by cases o <;> (unfold ownId; infer_instance)
instance : Plain (newVariable u) := by
  have hread : ∀ addr, Plain (do return ⟨(← get).id, u, addr⟩ : BuildM Variable) :=
    fun _ => .read (fun _ _ _ => rfl) inferInstance
  unfold newVariable
  infer_instance
instance (align : Int) (b : Bool) : Plain (loadVariable v align b) := by
  unfold loadVariable
  infer_instance
instance (align : Int) (b : Bool) : Plain (storeVariable v x align b) := by
  unfold storeVariable
  dsimp only
  infer_instance
instance : Plain (localVariable x) := by unfold localVariable; infer_instance
instance (n : Int) : Plain (newArray u n) := by unfold newArray; dsimp only; infer_instance
instance : Plain (pointee x) := by unfold pointee; cases x.type <;> infer_instance
instance (w : UInt64) : Plain (pointerTo u w) := by unfold pointerTo; infer_instance
instance (align : Int) (b : Bool) : Plain (loadPointer x align b) := by unfold loadPointer; infer_instance
instance (align : Int) (b : Bool) : Plain (storePointer x y align b) := by
  unfold storePointer
  infer_instance
instance : Plain (indexPointer x y) := by unfold indexPointer; infer_instance
instance (n : Int) : Plain (offsetPointer x n) := by unfold offsetPointer; infer_instance
instance : Plain (isNull x) := by unfold isNull; infer_instance
instance (i : Int) : Plain (argument u i) := by unfold argument; infer_instance
instance (w : UInt64) : Plain (constant u w) := by unfold constant; infer_instance
instance (ws : List UInt64) : Plain (literal u ws) := by unfold literal; infer_instance
instance : Plain (returnValue x) := by
  unfold returnValue
  cases x.ref <;> (dsimp only; infer_instance)
instance : Plain returnVoid := by unfold returnVoid; dsimp only; infer_instance

end storage

/-! All operations that are known by name are plain. -/

theorem binaries : ∀ o ∈ Script.binaries, ∀ x y, Plain (o.build x y) := by
  intro o ho x y
  fin_cases ho <;> (dsimp only; infer_instance)

theorem unaries : ∀ o ∈ Script.unaries, ∀ x, Plain (o.build x) := by
  intro o ho x
  fin_cases ho <;> (dsimp only; infer_instance)

end Plain

/-- Code that is started with `st` open, innermost first, and leaves open what `post` says of its
answer. The arms of a conditional carry the state of the program that builds, and between them can stand
other code. Jumps to blocks by number, which could lead into the constructs around, and the end of the
session are no code. -/
inductive Code : {α : Type} → List ScopeId → BuildM α → (α → List ScopeId) → Prop
  | plain {α : Type} {st : List ScopeId} {x : BuildM α} (h : Plain x) : Code st x fun _ => st
  | pure {α : Type} {post : α → List ScopeId} (a : α) : Code (post a) (pure a) post
  | bind {α β : Type} {st : List ScopeId} {x : BuildM α} {f : α → BuildM β} {mid : α → List ScopeId}
      {post : β → List ScopeId} : Code st x mid → (∀ a, Code (mid a) (f a) post) →
      Code st (x >>= f) post
  | fail {α : Type} {st : List ScopeId} {post : α → List ScopeId} (e : Fault) : Code st (throw e) post
  | beginIf {st : List ScopeId} (cond : Handle) : Code st (beginIf cond) fun id => id :: st
  | elseArm {st : List ScopeId} (id : ScopeId) : Code (id :: st) (elseArm id) fun _ => id :: st
  | elseClause {st : List ScopeId} (id : ScopeId) :
      Code (id :: st) (elseClause id) fun _ => id :: st
  | beginLoop {st : List ScopeId} : Code st beginLoop fun id => id :: st
  | loopCondition {st : List ScopeId} (id : ScopeId) (cond : Handle) :
      Code (id :: st) (loopCondition id cond) fun _ => id :: st
  | beginDo {st : List ScopeId} : Code st beginDo fun id => id :: st
  | doUntil {st : List ScopeId} (id : ScopeId) (cond : Handle) :
      Code (id :: st) (doUntil id cond) fun _ => st
  | endScope {st : List ScopeId} (id : ScopeId) : Code (id :: st) (endScope id) fun _ => st
  | ifElse {σ : Type} (cond : Handle) {yes between no : StateT σ BuildM Unit} (x : σ) :
      (∀ x, Code [] (yes.run x) fun _ => []) → (∀ x, Code [] (between.run x) fun _ => []) →
      (∀ x, Code [] (no.run x) fun _ => []) →
      Code [] (StateT.run (do
        let clause ← ifThen cond yes
        between
        orElse clause no) x) fun _ => []
  | under {α : Type} {st : List ScopeId} {x : BuildM α} {post : α → List ScopeId}
      (outer : List ScopeId) : Code st x post → Code (st ++ outer) x fun a => post a ++ outer

section arms

variable {σ : Type} {x : σ}

theorem ifThen_run {cond : Handle} {yes : StateT σ BuildM Unit} :
    (ifThen cond yes).run x = do
      let id ← beginIf cond
      let clause ← elseClause id
      let r ← yes.run x
      endScope id
      return (clause, r.2) := by
  simp [ifThen]

theorem orElse_run {e : ElseClause} {no : StateT σ BuildM Unit} :
    (orElse e no).run x = do
      let merge ← divertExits e
      let r ← no.run x
      fallTo merge
      setInsertBlock merge
      return ((), r.2) := by
  simp [orElse]

/-! The forms that take their arms as actions are code, wherever they stand. -/

variable {st : List ScopeId} {cond : StateT σ BuildM Handle} {yes step body : StateT σ BuildM Unit}

theorem Code.lift {act : BuildM α} {post : α → List ScopeId} (h : Code st act post) :
    Code st ((liftM act : StateT σ BuildM α).run x) fun r => post r.1 := by
  rw [StateT.run_monadLift]
  exact .bind h fun a => @Code.pure (α × σ) (fun r => post r.1) (a, x)

theorem Code.ifThen (c : Handle) (hyes : ∀ x, Code [] (yes.run x) fun _ => []) :
    Code st ((ifThen c yes).run x) fun _ => st := by
  rw [ifThen_run]
  exact .bind (.beginIf c) fun id => .bind (.elseClause id) fun _ =>
    .bind ((hyes x).under (id :: st)) fun _ => .bind (.endScope id) fun _ => .plain (.pure _)

theorem Code.whileLoop (hcond : ∀ x, Code [] (cond.run x) fun _ => [])
    (hbody : ∀ x, Code [] (body.run x) fun _ => []) :
    Code st ((whileLoop cond body).run x) fun _ => st := by
  have hrun : (BuildM.whileLoop cond body).run x = do
      let id ← BuildM.beginLoop
      let r ← cond.run x
      BuildM.loopCondition id r.1
      let r' ← body.run r.2
      BuildM.endScope id
      return ((), r'.2) := by
    simp [BuildM.whileLoop]
  rw [hrun]
  exact .bind .beginLoop fun id => .bind ((hcond x).under (id :: st)) fun r =>
    .bind (.loopCondition id r.1) fun _ => .bind ((hbody r.2).under (id :: st)) fun _ =>
      .bind (.endScope id) fun _ => .plain (.pure _)

theorem Code.forLoop (hcond : ∀ x, Code [] (cond.run x) fun _ => [])
    (hstep : ∀ x, Code [] (step.run x) fun _ => []) (hbody : ∀ x, Code [] (body.run x) fun _ => []) :
    Code st ((forLoop cond step body).run x) fun _ => st :=
  .whileLoop hcond fun x => by
    rw [StateT.run_bind]
    exact .bind (hbody x) fun r => hstep r.2

theorem Code.repeatUntil (hcond : ∀ x, Code [] (cond.run x) fun _ => [])
    (hbody : ∀ x, Code [] (body.run x) fun _ => []) :
    Code st ((repeatUntil body cond).run x) fun _ => st := by
  have hrun : (BuildM.repeatUntil body cond).run x = do
      let id ← BuildM.beginDo
      let r ← body.run x
      let r' ← cond.run r.2
      BuildM.doUntil id r'.1
      return ((), r'.2) := by
    simp [BuildM.repeatUntil]
  rw [hrun]
  exact .bind .beginDo fun id => .bind ((hbody x).under (id :: st)) fun r =>
    .bind ((hcond r.2).under (id :: st)) fun r' => .bind (.doUntil id r'.1) fun _ =>
      .plain (.pure _)

end arms

/-! ## Actions apart from the constructs -/

/-- The action neither reads nor changes the nest and the constructs. -/
def Apart (act : BuildM α) : Prop :=
  ∀ s n cs, act.run.run (s.nested n cs) = ((act.run.run s).1, (act.run.run s).2.nested n cs)

namespace Apart

theorem pure (a : α) : Apart (pure a) := fun _ _ _ => rfl

theorem fail (e : Fault) : Apart (throw e : BuildM α) := fun _ _ _ => rfl

theorem bind {x : BuildM α} {f : α → BuildM β} (hx : Apart x) (hf : ∀ a, Apart (f a)) :
    Apart (x >>= f) := by
  intro s n cs
  have hrun := hx s n cs
  cases hs : x.run.run s with
  | mk r s' =>
    rw [hs] at hrun
    cases r with
    | ok a =>
      rw [Gives.run_bind hrun, Gives.run_bind hs]
      exact hf a s' n cs
    | error e => rw [Fails.run_bind hrun, Fails.run_bind hs]

theorem read {f : Session → BuildM α} (hf : ∀ s n cs, f (s.nested n cs) = f s)
    (h : ∀ s, Apart (f s)) : Apart (get >>= f) := by
  intro s n cs
  rw [gives_get.run_bind, gives_get.run_bind, hf]
  exact h s s n cs

theorem modify {p : Session → Session} (hp : ∀ s n cs, p (s.nested n cs) = (p s).nested n cs) :
    Apart (modify p : BuildM Unit) := fun s n cs => congrArg (Prod.mk _) (hp s n cs)

theorem ite {P : Prop} [Decidable P] {x y : BuildM α} (hx : Apart x) (hy : Apart y) :
    Apart (if P then x else y) := by
  split
  · exact hx
  · exact hy

theorem lift (r : Outcome α) : Apart (lift r) := by
  cases r with
  | ok a => exact .pure a
  | error e => exact .fail e

theorem live : Apart live := .read (fun _ _ _ => rfl) fun _ => .ite (.fail _) (.pure _)

theorem function : Apart function :=
  .bind live fun _ => .read (fun _ _ _ => rfl) fun s => by
    cases s.func with
    | none => exact .fail _
    | some f => exact .pure f

theorem insertBlock : Apart insertBlock :=
  .read (fun _ _ _ => rfl) fun s => by
    cases s.cursor with
    | none => exact .fail _
    | some b => exact .pure b

theorem setFunction (f : Func) : Apart (setFunction f) := .modify fun _ _ _ => rfl

theorem setInsertBlock (b : BlockId) : Apart (setInsertBlock b) := .modify fun _ _ _ => rfl

theorem newBlock : Apart newBlock :=
  .bind function fun _ => .bind (.setFunction _) fun _ => .pure _

theorem emit (v : Value) : Apart (emit v) :=
  .bind function fun _ => .bind insertBlock fun _ =>
    .ite (.bind (.fail _) fun _ => .bind (.setFunction _) fun _ => .pure _)
      (.bind (.setFunction _) fun _ => .pure _)

theorem openBlock : Apart openBlock :=
  .bind function fun _ => .bind insertBlock fun _ =>
    .ite (.bind (.fail _) fun _ => .pure _) (.pure _)

theorem endWith (g : Func → BlockId → Outcome Func) : Apart (endWith g) :=
  .bind openBlock fun _ => .bind function fun _ => .bind (.lift _) fun _ => .setFunction _

theorem alloca (t : Ty) (n : Int) : Apart (alloca t n) :=
  .bind function fun _ => .bind (.lift _) fun _ => .bind (.lift _) fun _ =>
    .bind (.setFunction _) fun _ => .pure _

theorem globalAddr (name : String) (data : List UInt8) (align : Int) :
    Apart (globalAddr name data align) := by
  intro s n cs
  have hadd : (s.nested n cs).closed = s.closed := rfl
  rw [BuildM.globalAddr, gives_get.run_bind, gives_get.run_bind, hadd]
  dsimp only
  by_cases hc : s.closed = true
  · rw [if_pos hc, if_pos hc]
    rfl
  · rw [if_neg hc, if_neg hc]
    exact Apart.emit { op := .globalAddr, type := .ptr, global := some _ } { s with module := _ } n cs

theorem resolve (r : Ref) : Apart (resolve r) :=
  .read (fun _ _ _ => rfl) fun s => .ite (.pure _) (by
    cases s.func with
    | none => exact .pure _
    | some f => exact .bind (.setFunction _) fun _ => .pure _)

theorem sessionOf (hs : List Handle) : Apart (sessionOf hs) := .lift _

theorem enter (c : SessionId) : Apart (enter c) :=
  .read (fun _ _ _ => rfl) fun _ => .ite (.fail _) (.pure _)

theorem condition (cond : Handle) : Apart (condition cond) := by
  unfold BuildM.condition
  cases cond.ref with
  | none => exact .fail _
  | some r => exact .resolve r

theorem fallTo (t : BlockId) : Apart (fallTo t) :=
  .bind insertBlock fun _ => .read (fun _ _ _ => rfl) fun _ =>
    .ite (.bind (.lift _) fun _ => .setFunction _) (.pure _)

theorem forIn {γ : Type} {l : List γ} {b : β} {f : γ → β → BuildM (ForInStep β)}
    (hf : ∀ a b, Apart (f a b)) : Apart (forIn l b f) := by
  induction l generalizing b with
  | nil => exact .pure b
  | cons a l ih =>
    rw [List.forIn_cons]
    refine .bind (hf a b) fun r => ?_
    cases r with
    | done b => exact .pure b
    | yield b => exact ih

theorem divertExits (e : ElseClause) : Apart (divertExits e) := by
  have hturn : ∀ l : List BlockId, Apart (do
      let merge ← BuildM.newBlock
      for p in l do
        BuildM.setFunction (← BuildM.lift ((← BuildM.function).replaceSucc p e.after merge))
      return merge) := fun l =>
    .bind .newBlock fun _ => .bind (.forIn fun _ _ => .bind .function fun _ => .bind (.lift _) fun _ =>
      .bind (.setFunction _) fun _ => .pure _) fun _ => .pure _
  unfold BuildM.divertExits
  exact .read (fun _ _ _ => rfl) fun s => .read (fun _ _ _ => rfl) fun _ =>
    .ite (.bind (.fail _) fun _ => hturn _) (hturn _)

end Apart

theorem Plain.apart {act : BuildM α} (h : Plain act) : Apart act := by
  induction h with
  | pure a => exact .pure a
  | bind _ _ hx hf => exact .bind hx hf
  | fail e => exact .fail e
  | read hf _ h => exact .read hf h
  | emit v => exact .emit v
  | alloca t n => exact .alloca t n
  | globalAddr name data align => exact .globalAddr name data align
  | resolve r => exact .resolve r
  | ret x => exact .endWith _
  | unreachable => exact .endWith _
  | newBlock => exact .newBlock
  | afresh => exact .bind .newBlock fun _ => .setInsertBlock _

theorem modify_append_right {pre own : Array α} {i : Nat} {p : α → α} (h : pre.size ≤ i) :
    (pre ++ own).modify i p = pre ++ own.modify (i - pre.size) p := by
  refine Array.ext (by simp) fun j hj hj' => ?_
  simp only [Array.getElem_modify, Array.getElem_append]
  by_cases hpre : j < pre.size
  · have hne : i ≠ j := by omega
    simp [hpre, hne]
  · have hiff : i - pre.size = j - pre.size ↔ i = j := by omega
    simp [hpre, hiff]

/-- Where the construct is the innermost one, only the session is checked. -/
theorem checkInnermost_top {id : ScopeId} {sc : Scope} {n : List ScopeId} {cs : Array Scope} :
    (checkInnermost id sc).run.run (s.nested (id :: n) cs) =
      (do enter sc.session; live : BuildM Unit).run.run (s.nested (id :: n) cs) := by
  by_cases hsession : sc.session = s.id
  · have henter : (enter sc.session).Gives (s.nested (id :: n) cs) () (s.nested (id :: n) cs) := by
      rw [hsession]
      exact gives_enter
    rw [checkInnermost, henter.run_bind, henter.run_bind]
    cases hclosed : s.closed with
    | true =>
      have hlive : live.Fails (s.nested (id :: n) cs) (.raised .sessionClosed) (s.nested (id :: n) cs) := by
        change (ite (s.closed = true) _ _ : BuildM Unit).run.run _ = _
        rw [if_pos hclosed]
        rfl
      rw [hlive.run_bind, hlive]
    | false =>
      have hlive : live.Gives (s.nested (id :: n) cs) () (s.nested (id :: n) cs) := gives_live hclosed
      rw [hlive.run_bind, hlive, gives_get.run_bind]
      change (ite (id ≠ id) _ _ : BuildM Unit).run.run _ = _
      rw [if_neg (by simp)]
      rfl
  · have henter : (enter sc.session).Fails (s.nested (id :: n) cs) (.raised .sessionClosed)
        (s.nested (id :: n) cs) := by
      change (ite (sc.session ≠ s.id) _ _ : BuildM Unit).run.run _ = _
      rw [if_pos hsession]
      rfl
    rw [checkInnermost, henter.run_bind, henter.run_bind]

/-! ## Code within other constructs -/

/-- The constructs with these numbers are among `own`, which stand after `k` others. -/
def Among (k : Nat) (own : Array Scope) (st : List ScopeId) : Prop :=
  ∀ id ∈ st, k ≤ id ∧ id < k + own.size

/-- An action that is started with `st` open: whatever constructs there were before `own` and whatever
nest is around `st`, it comes to the same and leaves them alone. -/
def Framed (st : List ScopeId) (act : BuildM α) (post : α → List ScopeId) : Prop :=
  ∀ (s : Session) (k : Nat) (own : Array Scope), Among k own st →
    ∃ (r : Except Fault α) (s' : Session) (own' : Array Scope) (st' : List ScopeId),
      own.size ≤ own'.size ∧ (∀ a, r = .ok a → st' = post a ∧ Among k own' (post a)) ∧
      ∀ (n : List ScopeId) (pre : Array Scope), pre.size = k →
        act.run.run (s.nested (st ++ n) (pre ++ own)) = (r, s'.nested (st' ++ n) (pre ++ own'))

namespace Framed

variable {σ : Type} {st : List ScopeId} {id : ScopeId} {post : α → List ScopeId}

theorem bind {x : BuildM α} {f : α → BuildM β} {mid : α → List ScopeId} {post : β → List ScopeId}
    (hx : Framed st x mid) (hf : ∀ a, Framed (mid a) (f a) post) : Framed st (x >>= f) post := by
  intro s k own hst
  obtain ⟨r, s', own', st', hsize, hok, hrun⟩ := hx s k own hst
  cases r with
  | error e =>
    exact ⟨.error e, s', own', st', hsize, by simp, fun n pre hpre =>
      Fails.run_bind (hrun n pre hpre)⟩
  | ok a =>
    obtain ⟨rfl, hmid⟩ := hok a rfl
    obtain ⟨r, s'', own'', st'', hsize', hok', hrun'⟩ := hf a s' k own' hmid
    exact ⟨r, s'', own'', st'', hsize.trans hsize', hok', fun n pre hpre =>
      (Gives.run_bind (hrun n pre hpre)).trans (hrun' n pre hpre)⟩

theorem pure (a : α) : Framed (post a) (pure a) post := fun s _ own hst =>
  ⟨.ok a, s, own, post a, Nat.le_refl _, fun _ ha => Except.ok.inj ha ▸ ⟨rfl, hst⟩, fun _ _ _ => rfl⟩

theorem fail (e : Fault) : Framed st (throw e : BuildM α) post := fun s _ own _ =>
  ⟨.error e, s, own, st, Nat.le_refl _, by simp, fun _ _ _ => rfl⟩

theorem fail_bind (e : Fault) {f : β → BuildM α} : Framed st ((throw e : BuildM β) >>= f) post :=
  fun s _ own _ => ⟨.error e, s, own, st, Nat.le_refl _, by simp, fun _ _ _ => rfl⟩

theorem under (outer : List ScopeId) {x : BuildM α} (h : Framed st x post) :
    Framed (st ++ outer) x fun a => post a ++ outer := by
  intro s k own hst
  obtain ⟨r, s', own', st', hsize, hok, hrun⟩ := h s k own fun id hid =>
    hst id (List.mem_append_left _ hid)
  refine ⟨r, s', own', st' ++ outer, hsize, fun a ha => ?_, fun n pre hpre => ?_⟩
  · obtain ⟨rfl, hpost⟩ := hok a ha
    refine ⟨rfl, fun id hid => ?_⟩
    rcases List.mem_append.mp hid with hin | hout
    · exact hpost id hin
    · obtain ⟨hle, hlt⟩ := hst id (List.mem_append_right _ hout)
      exact ⟨hle, hlt.trans_le (Nat.add_le_add_left hsize k)⟩
  · rw [List.append_assoc, List.append_assoc]
    exact hrun (outer ++ n) pre hpre

theorem of_apart {x : BuildM α} (h : Apart x) : Framed st x fun _ => st :=
  fun s _ own hst => ⟨(x.run.run s).1, (x.run.run s).2, own, st, Nat.le_refl _,
    fun _ _ => ⟨rfl, hst⟩, fun _ _ _ => h s _ _⟩

theorem push (c : Construct) : Framed st (push c) fun id => id :: st := by
  intro s k own hst
  refine ⟨.ok (k + own.size), s, own.push ⟨s.id, c⟩, (k + own.size) :: st, by simp, ?_, ?_⟩
  · rintro _ ⟨⟩
    refine ⟨rfl, List.forall_mem_cons.mpr ⟨by simp, fun id hid => ?_⟩⟩
    obtain ⟨hle, hlt⟩ := hst id hid
    exact ⟨hle, by simpa [← Nat.add_assoc] using Nat.lt_succ_of_lt hlt⟩
  · rintro n pre rfl
    have hrun : (BuildM.push c).Gives (s.nested (st ++ n) (pre ++ own)) _ _ := gives_push
    rw [hrun]
    simp [pushed, Session.nested]

theorem pop : Framed (id :: st) pop fun _ => st := by
  intro s k own hst
  refine ⟨.ok (), s, own, st, Nat.le_refl _, ?_, fun n pre _ => rfl⟩
  rintro _ ⟨⟩
  exact ⟨rfl, fun id hid => hst id (List.mem_cons_of_mem _ hid)⟩

theorem scope : Framed (id :: st) (scope id) fun _ => id :: st := by
  intro s k own hst
  obtain ⟨hle, hlt⟩ := hst id List.mem_cons_self
  have hin : id - k < own.size := Nat.sub_lt_left_of_lt_add hle hlt
  refine ⟨.ok own[id - k], s, own, id :: st, Nat.le_refl _, fun _ _ => ⟨rfl, hst⟩, ?_⟩
  rintro n pre rfl
  refine gives_scope ?_
  change (pre ++ own)[id]? = _
  rw [Array.getElem?_append_right hle, Array.getElem?_eq_getElem hin]

theorem setConstruct (c : Construct) : Framed (id :: st) (setConstruct id c) fun _ => id :: st := by
  intro s k own hst
  obtain ⟨hle, hlt⟩ := hst id List.mem_cons_self
  refine ⟨.ok (), s, own.modify (id - k) fun sc => { sc with construct := c }, id :: st, by simp,
    fun _ _ => ⟨rfl, by simpa [Among] using hst⟩, ?_⟩
  rintro n pre rfl
  exact congrArg (fun cs => (Except.ok (), s.nested (id :: st ++ n) cs)) (modify_append_right hle)

theorem checkInnermost (sc : Scope) : Framed (id :: st) (checkInnermost id sc) fun _ => id :: st := by
  intro s k own hst
  have hap : Apart (do enter sc.session; live) := .bind (.enter _) fun _ => .live
  refine ⟨((do enter sc.session; live : BuildM Unit).run.run s).1,
    ((do enter sc.session; live : BuildM Unit).run.run s).2, own, id :: st, Nat.le_refl _,
    fun _ _ => ⟨rfl, hst⟩, fun n pre _ => ?_⟩
  rw [← hap]
  exact checkInnermost_top

/-! ### Constructs -/

theorem beginIf (cond : Handle) : Framed st (beginIf cond) fun id => id :: st :=
  .bind (.of_apart (.sessionOf _)) fun _ => .bind (.of_apart .newBlock) fun _ =>
    .bind (.of_apart .newBlock) fun _ => .bind (.of_apart .insertBlock) fun _ =>
      .bind (.of_apart (.condition cond)) fun _ => .bind (.of_apart (.endWith _)) fun _ =>
        .bind (.of_apart (.setInsertBlock _)) fun _ => .push _

theorem elseArm (id : ScopeId) : Framed (id :: st) (elseArm id) fun _ => id :: st := by
  refine .bind .scope fun sc => ?_
  cases sc.construct with
  | branch head after inElse =>
    refine .bind (.checkInnermost sc) fun _ => ?_
    have harm : ∀ c : BlockId → Construct, Framed (id :: st) (do
        let merge ← newBlock
        BuildM.fallTo merge
        BuildM.setInsertBlock after
        BuildM.setConstruct id (c merge)) fun _ => id :: st := fun c =>
      .bind (.of_apart .newBlock) fun _ => .bind (.of_apart (.fallTo _)) fun _ =>
        .bind (.of_apart (.setInsertBlock _)) fun _ => .setConstruct _
    cases inElse with
    | true => exact .fail_bind _
    | false => exact harm _
  | loop | doUntil => exact .fail _

theorem elseClause (id : ScopeId) : Framed (id :: st) (elseClause id) fun _ => id :: st := by
  refine .bind .scope fun sc => ?_
  cases sc.construct with
  | branch => exact .of_apart (.pure _)
  | loop | doUntil => exact .fail _

theorem beginLoop : Framed st beginLoop fun id => id :: st :=
  .bind (.of_apart .newBlock) fun _ => .bind (.of_apart (.endWith _)) fun _ =>
    .bind (.of_apart (.setInsertBlock _)) fun _ => .push _

theorem loopCondition (id : ScopeId) (cond : Handle) :
    Framed (id :: st) (loopCondition id cond) fun _ => id :: st := by
  refine .bind .scope fun sc => ?_
  cases sc.construct with
  | loop header exit =>
    refine .bind (.checkInnermost sc) fun _ => ?_
    have hbody : Framed (id :: st) (do
        let _ ← BuildM.sessionOf [cond]
        let body ← newBlock
        let after ← newBlock
        BuildM.setConstruct id (.loop header (some after))
        branchOn (← BuildM.condition cond) body after
        BuildM.setInsertBlock body) fun _ => id :: st :=
      .bind (.of_apart (.sessionOf _)) fun _ => .bind (.of_apart .newBlock) fun _ =>
        .bind (.of_apart .newBlock) fun _ => .bind (.setConstruct _) fun _ =>
          .bind (.of_apart (.condition cond)) fun _ => .bind (.of_apart (.endWith _)) fun _ =>
            .of_apart (.setInsertBlock _)
    cases exit with
    | some _ => exact .fail_bind _
    | none => exact hbody
  | branch | doUntil => exact .fail _

theorem beginDo : Framed st beginDo fun id => id :: st :=
  .bind (.of_apart .newBlock) fun _ => .bind (.of_apart (.endWith _)) fun _ =>
    .bind (.of_apart (.setInsertBlock _)) fun _ => .push _

theorem doUntil (id : ScopeId) (cond : Handle) :
    Framed (id :: st) (doUntil id cond) fun _ => st := by
  refine .bind .scope fun sc => ?_
  cases sc.construct with
  | doUntil body =>
    exact .bind (.checkInnermost sc) fun _ => .bind .pop fun _ =>
      .bind (.of_apart (.sessionOf _)) fun _ => .bind (.of_apart .newBlock) fun _ =>
        .bind (.of_apart (.condition cond)) fun _ => .bind (.of_apart (.endWith _)) fun _ =>
          .of_apart (.setInsertBlock _)
  | branch | loop => exact .fail _

theorem endScope (id : ScopeId) : Framed (id :: st) (endScope id) fun _ => st := by
  have hend : ∀ sc t after, Framed (id :: st) (do
      BuildM.checkInnermost id sc
      BuildM.pop
      BuildM.fallTo t
      BuildM.setInsertBlock after) fun _ => st := fun sc t after =>
    .bind (.checkInnermost sc) fun _ => .bind .pop fun _ => .bind (.of_apart (.fallTo t)) fun _ =>
      .of_apart (.setInsertBlock after)
  refine .bind .scope fun sc => ?_
  cases sc.construct with
  | branch _ after _ => exact hend sc after after
  | loop header exit =>
    cases exit with
    | none => exact .fail _
    | some after => exact hend sc header after
  | doUntil => exact .fail _

theorem ifThen (cond : Handle) {yes : StateT σ BuildM Unit} {x : σ}
    (hyes : ∀ x, Framed [] (yes.run x) fun _ => []) :
    Framed st ((ifThen cond yes).run x) fun _ => st := by
  rw [ifThen_run]
  exact .bind (.beginIf cond) fun id => .bind (.elseClause id) fun _ =>
    .bind ((hyes x).under (id :: st)) fun _ => .bind (.endScope id) fun _ => .of_apart (.pure _)

theorem orElse (e : ElseClause) {no : StateT σ BuildM Unit} {x : σ}
    (hno : ∀ x, Framed [] (no.run x) fun _ => []) : Framed st ((orElse e no).run x) fun _ => st := by
  rw [orElse_run]
  exact .bind (.of_apart (.divertExits e)) fun _ => .bind ((hno x).under st) fun _ =>
    .bind (.of_apart (.fallTo _)) fun _ => .bind (.of_apart (.setInsertBlock _)) fun _ =>
      .of_apart (.pure _)

end Framed

/-- Code comes to the same whatever it is in the middle of. -/
theorem Code.framed {st : List ScopeId} {act : BuildM α} {post : α → List ScopeId}
    (h : Code st act post) : Framed st act post := by
  induction h with
  | plain h => exact .of_apart h.apart
  | pure a => exact .pure a
  | bind _ _ hx hf => exact .bind hx hf
  | fail e => exact .fail e
  | beginIf cond => exact .beginIf cond
  | elseArm id => exact .elseArm id
  | elseClause id => exact .elseClause id
  | beginLoop => exact .beginLoop
  | loopCondition id cond => exact .loopCondition id cond
  | beginDo => exact .beginDo
  | doUntil id cond => exact .doUntil id cond
  | endScope id => exact .endScope id
  | ifElse cond x _ _ _ hyes hbetween hno =>
    exact .bind (.ifThen cond hyes) fun r => .bind (hbetween r.2) fun _ => .orElse r.1 hno
  | under outer _ hx => exact hx.under outer

end BuildM

end SsaJit.Build
