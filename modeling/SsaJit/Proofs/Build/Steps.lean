import SsaJit.Proofs.Build.Ends
import SsaJit.Proofs.Build.Program

/-! What the steps of building do to a session: each is taken from a session whose function is a draft
with an open block to build in, and leads to another such session. -/

namespace SsaJit.Build

open Func

variable {α β : Type} {s s' s'' : Session} {f g : Func} {b c : BlockId} {v w : ValueId} {x : Value}

/-- The session with a function to work on and a block to build in. -/
def Session.on (s : Session) (f : Func) (b : BlockId) : Session :=
  { s with func := some f, cursor := some b }

@[simp] theorem Session.func_on : (s.on f b).func = some f := rfl
@[simp] theorem Session.cursor_on : (s.on f b).cursor = some b := rfl

/-- The block is open for building. -/
structure Site (f : Func) (b : BlockId) : Prop where
  draft : f.Draft
  lt : b < f.numBlocks
  pending : (f.block b).kind = .pending

namespace BuildM

/-- The action succeeds with `a` and leaves `s'`. -/
def Gives (act : BuildM α) (s : Session) (a : α) (s' : Session) : Prop :=
  act.run.run s = (.ok a, s')

theorem Gives.run_bind {act : BuildM α} {k : α → BuildM β} {a : α} (h : act.Gives s a s') :
    (act >>= k).run.run s = (k a).run.run s' := by
  unfold Gives at h
  rw [ExceptT.run_bind, StateT.run_bind, h]
  rfl

theorem Gives.bind {act : BuildM α} {k : α → BuildM β} {a : α} {r : β} (h : act.Gives s a s')
    (h' : (k a).Gives s' r s'') : (act >>= k).Gives s r s'' :=
  h.run_bind.trans h'

/-- What a sequence of actions gives, its first action gave something for. -/
theorem Gives.of_bind {act : BuildM α} {k : α → BuildM β} {r : β} (h : (act >>= k).Gives s r s'') :
    ∃ a s', act.Gives s a s' ∧ (k a).Gives s' r s'' := by
  unfold Gives at h
  rw [ExceptT.run_bind, StateT.run_bind] at h
  cases hact : act.run.run s with
  | mk e s' =>
    rw [hact] at h
    cases e with
    | ok a => exact ⟨a, s', hact, h⟩
    | error e => exact nomatch congrArg Prod.fst h

theorem Gives.unique {act : BuildM α} {a r : α} (h : act.Gives s a s') (h' : act.Gives s r s'') :
    a = r ∧ s' = s'' := by
  obtain ⟨hr, rfl⟩ := Prod.mk.inj (h.symm.trans h')
  exact ⟨Except.ok.inj hr, rfl⟩

theorem Gives.step {act : BuildM α} {k : α → BuildM β} {a : α} {r : β} (h : act.Gives s a s')
    (h' : (act >>= k).Gives s r s'') : (k a).Gives s' r s'' :=
  h.run_bind.symm.trans h'

theorem gives_pure (a : α) : (pure a : BuildM α).Gives s a s := rfl

theorem gives_get : (get : BuildM Session).Gives s s s := rfl

theorem lift_ok_bind {a : α} {k : α → BuildM β} : (lift (.ok a) >>= k) = k a := rfl

theorem gives_lift {a : α} : (lift (.ok a) : BuildM α).Gives s a s := rfl

theorem gives_modify {p : Session → Session} : (modify p : BuildM Unit).Gives s () (p s) := rfl

/-- A check that does not fail. -/
theorem gives_unless {P : Prop} [Decidable P] {stop act : BuildM α} {a : α} (hP : ¬ P)
    (h : act.Gives s a s') : (if P then stop else act).Gives s a s' := by
  rwa [if_neg hP]

theorem gives_live (hs : s.closed = false) : live.Gives s () s := by
  exact gives_get.bind (gives_unless (by simp [hs]) (gives_pure ()))

theorem gives_function (hs : s.closed = false) : function.Gives (s.on f b) f (s.on f b) := by
  have hlive : live.Gives (s.on f b) () (s.on f b) := gives_live hs
  exact hlive.bind (gives_get.bind (gives_pure f))

theorem gives_setFunction : (setFunction g).Gives (s.on f b) () (s.on g b) := rfl

theorem gives_insertBlock : insertBlock.Gives (s.on f b) b (s.on f b) :=
  gives_get.bind (gives_pure b)

theorem gives_setInsertBlock : (setInsertBlock c).Gives (s.on f b) () (s.on f c) := rfl

theorem gives_newBlock (hs : s.closed = false) :
    newBlock.Gives (s.on f b) f.numBlocks (s.on f.newBlock.1 b) :=
  (gives_function hs).bind (gives_setFunction.bind (gives_pure _))

theorem gives_emit (hs : s.closed = false) (hp : (f.block b).kind = .pending) :
    (emit x).Gives (s.on f b) (.value f.numValues) (s.on (f.appended b x) b) := by
  refine (gives_function hs).bind (gives_insertBlock.bind ?_)
  rw [if_neg (by simp [Block.isTerminated, hp])]
  exact gives_setFunction.bind (gives_pure _)

theorem gives_typeOf : (typeOf (.value v)).Gives (s.on f b) (f.value v).type (s.on f b) :=
  gives_get.bind (gives_lift.bind (gives_pure _))

theorem gives_openBlock (hs : s.closed = false) (hp : (f.block b).kind = .pending) :
    openBlock.Gives (s.on f b) b (s.on f b) := by
  refine (gives_function hs).bind (gives_insertBlock.bind ?_)
  rw [if_neg (by simp [Block.isTerminated, hp])]
  exact gives_pure b

theorem gives_endWith {e : Func → BlockId → Outcome Func} (hs : s.closed = false)
    (hp : (f.block b).kind = .pending) (he : e f b = .ok g) :
    (endWith e).Gives (s.on f b) () (s.on g b) := by
  refine (gives_openBlock hs hp).bind ((gives_function hs).bind ?_)
  rw [he]
  exact gives_lift.bind gives_setFunction

theorem gives_jumpTo (hs : s.closed = false) (hb : f.Bare b) (hp : (f.block b).kind = .pending) :
    (jumpTo c).Gives (s.on f b) () (s.on (f.ended b .jump .missing [c]) b) :=
  gives_endWith hs hp (setJump_pending hb hp)

theorem gives_branchOn {o : Operand} {yes no : BlockId} (hs : s.closed = false) (hb : f.Bare b)
    (hp : (f.block b).kind = .pending) :
    (branchOn o yes no).Gives (s.on f b) () (s.on (f.ended b .branch o [yes, no]) b) :=
  gives_endWith hs hp (setBranch_pending hb hp)

theorem gives_ret {o : Operand} (hs : s.closed = false) (hb : f.Bare b)
    (hp : (f.block b).kind = .pending) :
    (ret o).Gives (s.on f b) () (s.on (f.ended b .ret o []) b) :=
  gives_endWith hs hp (setRet_pending hb hp)

/-- Falling to a block, whether there is an end already or not. -/
theorem gives_fallTo (hb : f.Bare b) : (fallTo c).Gives (s.on f b) () (s.on (f.fallen b c) b) := by
  refine gives_insertBlock.bind (gives_get.bind ?_)
  change Gives (if !(f.block b).isTerminated then _ else _) _ _ _
  unfold Func.fallen
  by_cases hends : (f.block b).isTerminated = true
  · rw [if_neg (by simp [hends]), if_pos hends]
    exact gives_pure ()
  · have hp : (f.block b).kind = .pending := by simpa [Block.isTerminated] using hends
    rw [if_pos (by simpa using hends), if_neg hends,
      show ((s.on f b).func.getD default).setJump b c = _ from setJump_pending hb hp]
    exact gives_lift.bind gives_setFunction

/-! ## Handles -/

/-- The handle of a value of the session's function. -/
def own (s : Session) (t : SType) (v : ValueId) : Handle := ⟨t, some ⟨s.id, v⟩⟩

theorem gives_enter : (enter s.id).Gives s () s := by
  refine gives_get.bind ?_
  rw [if_neg (by simp)]
  exact gives_pure ()

theorem gives_wrap {t : SType} (ht : (f.value v).type = t.ty) :
    (wrap t (.value v)).Gives (s.on f b) (own s t v) (s.on f b) := by
  refine gives_get.bind (gives_lift.bind ?_)
  exact gives_unless (not_not.mpr ht) (gives_pure _)

theorem gives_into {t : SType} {act : BuildM Operand} (h : act.Gives s (.value v) (s'.on f b))
    (ht : (f.value v).type = t.ty) : (into s.id t act).Gives s (own s' t v) (s'.on f b) :=
  gives_enter.bind (h.bind (gives_wrap ht))

theorem gives_sessionOf_one {t : SType} : (sessionOf [own s t v]).Gives s' s.id s' := rfl

theorem gives_sessionOf_two {t u : SType} :
    (sessionOf [own s t v, own s u w]).Gives s' s.id s' := by
  simp [Gives, sessionOf, commonSession, own]
  rfl

theorem gives_sessionOf_three {t u r : SType} {a : ValueId} :
    (sessionOf [own s t v, own s u w, own s r a]).Gives s' s.id s' := by
  simp [Gives, sessionOf, commonSession, own]
  rfl

theorem gives_resolve : (resolve ⟨s.id, v⟩).Gives (s.on f b) (.value v) (s.on f b) := by
  refine gives_get.bind ?_
  rw [if_pos (show s.id = (s.on f b).id from rfl)]
  exact gives_pure _

theorem gives_condition {t : SType} :
    (condition (own s t v)).Gives (s.on f b) (.value v) (s.on f b) := gives_resolve

/-! ## Variables -/

/-- The stack space of a variable. -/
def spaceFor (t : SType) : Value := { op := .alloca, type := .ptr, aux := Int64.ofNat t.ty.size }

theorem lead_length (h : f.Draft) : ((f.valuesOf 0).takeWhile fun (_, v) =>
    v.op == .param || v.op == .alloca).length = (f.heads 0).length := by
  have hmap : (f.valuesOf 0).takeWhile (fun (_, v) => v.op == .param || v.op == .alloca) =
      ((f.block 0).values.takeWhile f.isHead).map fun v => (v, f.value v) := by
    rw [valuesOf, List.takeWhile_map]
    rfl
  have hheads : ∀ v ∈ f.heads 0, f.isHead v = true := fun v hv => (Draft.mem_heads.mp hv).2
  have hbody : (f.body 0).takeWhile f.isHead = [] := by
    cases hb : f.body 0 with
    | nil => rfl
    | cons v rest =>
      have hv : v ∈ f.body 0 := by rw [hb]; exact List.mem_cons_self
      rw [List.takeWhile_cons, (Draft.mem_body.mp hv).2]
      rfl
  rw [hmap, List.length_map, h.split 0, List.takeWhile_append_of_pos hheads, hbody, List.append_nil]

theorem gives_newVariable {t : SType} (hs : s.closed = false) (h : f.Draft) :
    (newVariable t).Gives (s.on f b) ⟨s.id, t, f.numValues⟩ (s.on (f.spaced (spaceFor t)) b) := by
  have hentry : f.entry = .ok 0 := by rw [h.flow.entry_eq, h.start]
  have hinsert : f.insertValue 0 (f.heads 0).length (spaceFor t) =
      .ok (f.spaced (spaceFor t), f.numValues) := insertValue_eq (List.length_filter_le _ _)
  have haux : Int64.ofNat t.ty.size * Int64.ofInt (if (1 : Int) < 1 then 1 else 1) =
      Int64.ofNat t.ty.size := Int64.mul_one _
  have halloca : (alloca t.ty 1).Gives (s.on f b) (.value f.numValues)
      (s.on (f.spaced (spaceFor t)) b) := by
    refine (gives_function hs).bind ?_
    rw [hentry]
    refine gives_lift.bind ?_
    dsimp only
    rw [lead_length h, haux, ← spaceFor, hinsert]
    exact gives_lift.bind (gives_setFunction.bind (gives_pure _))
  exact halloca.bind ((gives_pure _).bind (gives_get.bind (gives_pure _)))

/-! ## Constructs -/

/-- The session with one more construct begun. -/
def pushed (s : Session) (c : Construct) : Session :=
  { s with scopes := s.scopes.push ⟨s.id, c⟩, nest := s.scopes.size :: s.nest }

/-- The session without its innermost construct. -/
def popped (s : Session) : Session := { s with nest := s.nest.tail }

/-- The session with another state of a construct. -/
def changed (s : Session) (id : ScopeId) (c : Construct) : Session :=
  { s with scopes := s.scopes.modify id fun sc => { sc with construct := c } }

theorem gives_push {k : Construct} : (push k).Gives s s.scopes.size (pushed s k) := rfl

theorem gives_pop : pop.Gives s () (popped s) := rfl

/-- The innermost construct is `k`, under the number `id`. -/
structure Innermost (s : Session) (id : ScopeId) (k : Construct) : Prop where
  opened : s.closed = false
  scope : s.scopes[id]? = some ⟨s.id, k⟩
  nest : s.nest.head? = some id

theorem gives_scope {id : ScopeId} {sc : Scope} (h : s.scopes[id]? = some sc) :
    (scope id).Gives s sc s := by
  refine gives_get.bind ?_
  rw [h]
  exact gives_pure sc

theorem gives_checkInnermost {id : ScopeId} {k : Construct} (h : Innermost s id k) :
    (checkInnermost id ⟨s.id, k⟩).Gives s () s := by
  refine gives_enter.bind ((gives_live h.opened).bind (gives_get.bind ?_))
  obtain ⟨rest, hnest⟩ : ∃ rest, s.nest = id :: rest := by
    have := h.nest
    cases hn : s.nest with
    | nil => simp [hn] at this
    | cons top rest => exact ⟨rest, by simpa [hn] using this⟩
  rw [hnest]
  dsimp only
  rw [if_neg (by simp)]
  exact gives_pure ()

section control

variable {id : ScopeId} {t : SType} {head after : BlockId}

theorem gives_beginIf (hs : s.closed = false) (h : Site f b) :
    (beginIf (own s t w)).Gives (s.on f b) s.scopes.size
      ((pushed s (.branch b (f.numBlocks + 1) false)).on
        (f.newBlock.1.newBlock.1.ended b .branch (.value w) [f.numBlocks, f.numBlocks + 1])
        f.numBlocks) := by
  have hsite : Site f.newBlock.1.newBlock.1 b :=
    ⟨h.draft.newBlock.newBlock, by simpa using Nat.lt_succ_of_lt (Nat.lt_succ_of_lt h.lt),
      by simpa using h.pending⟩
  have hsecond := gives_newBlock (f := f.newBlock.1) (b := b) hs
  rw [numBlocks_newBlock] at hsecond
  exact gives_sessionOf_one.bind ((gives_newBlock hs).bind (hsecond.bind (gives_insertBlock.bind
    (gives_condition.bind ((gives_branchOn hs hsite.draft.bare hsite.pending).bind (gives_setInsertBlock.bind
      gives_push))))))

theorem gives_elseClause {inElse : Bool}
    (h : s.scopes[id]? = some ⟨s.id, .branch head after inElse⟩) :
    (elseClause id).Gives s ⟨head, after⟩ s :=
  (gives_scope h).bind (gives_pure _)

theorem gives_elseArm (hi : Innermost s id (.branch head after false)) (hb : f.Bare b) :
    (elseArm id).Gives (s.on f b) () ((changed s id (.branch head f.numBlocks true)).on
      (f.newBlock.1.fallen b f.numBlocks) after) := by
  have hi' : Innermost (s.on f b) id (.branch head after false) := ⟨hi.opened, hi.scope, hi.nest⟩
  have hbare : f.newBlock.1.Bare b := by
    rw [Bare, block_newBlock]
    exact hb
  refine (gives_scope hi'.scope).bind ((gives_checkInnermost hi').bind ?_)
  exact (gives_newBlock hi.opened).bind ((gives_fallTo hbare).bind (gives_setInsertBlock.bind
    gives_modify))

theorem gives_endIf {inElse : Bool} (hi : Innermost s id (.branch head after inElse))
    (hb : f.Bare b) : (endScope id).Gives (s.on f b) ()
      ((popped s).on (f.fallen b after) after) := by
  have hi' : Innermost (s.on f b) id (.branch head after inElse) := ⟨hi.opened, hi.scope, hi.nest⟩
  refine (gives_scope hi'.scope).bind ((gives_checkInnermost hi').bind ?_)
  have hpop : pop.Gives (s.on f b) () ((popped s).on f b) := gives_pop
  exact hpop.bind ((gives_fallTo hb).bind gives_setInsertBlock)

/-- An else behind an if whose arm ended in `b`: the arm might have led to the new block. -/
theorem gives_divertExits (hs : s.closed = false) (hlt : b < f.numBlocks) (hb : f.Bare b)
    (hafter : after < f.numBlocks) (hopen : (f.block after).kind = .pending) (hne : b ≠ after)
    (hhead : b ≠ head) (hvalues : (f.block after).values = [])
    (hpreds : (f.block after).preds = [head]) :
    (divertExits ⟨head, after⟩).Gives (s.on (f.fallen b after) after) f.numBlocks
      (s.on (f.newBlock.1.fallen b f.numBlocks) after) := by
  have hnew : newBlock.Gives (s.on (f.fallen b after) after) f.numBlocks
      (s.on (f.fallen b after).newBlock.1 after) := by
    have hnew := gives_newBlock (f := f.fallen b after) (b := after) hs
    rwa [numBlocks_fallen] at hnew
  refine gives_get.bind (gives_get.bind ?_)
  by_cases hends : (f.block b).isTerminated = true
  · -- no exit leads to the block
    have hstay : ∀ c, f.fallen b c = f := fun c => by rw [fallen, if_pos hends]
    have hkeep : f.newBlock.1.fallen b f.numBlocks = f.newBlock.1 := by
      rw [fallen, block_newBlock, if_pos hends]
    rw [hstay] at hnew ⊢
    refine gives_unless (by simp [hvalues, Block.isTerminated, hopen]) (hnew.bind ?_)
    rw [hkeep]
    simp only [Session.func_on, Option.getD_some, hpreds]
    rw [List.filter_cons_of_neg (by simp), List.filter_nil, List.forIn_nil]
    exact gives_pure _
  have hp : (f.block b).kind = .pending := by simpa [Block.isTerminated] using hends
  have hp' : (f.newBlock.1.block b).kind = .pending := by rwa [block_newBlock]
  rw [fallen_pending hp] at hnew ⊢
  rw [fallen_pending hp']
  have hblock : (f.ended b .jump .missing [after]).block after = _ :=
    block_ended hlt (by simpa using hafter) (hb hp).1
  have hexits : ((f.ended b .jump .missing [after]).block after).preds.filter (· != head) = [b] := by
    rw [hblock]
    simp [hpreds, hhead]
  have hguard : ¬ (some after ≠ some after ∨
      (!((f.ended b .jump .missing [after]).block after).values.isEmpty) = true ∨
      ((f.ended b .jump .missing [after]).block after).isTerminated = true) := by
    rw [hblock]
    simp [hvalues, Block.isTerminated, hopen, Ne.symm hne]
  have hturn : ((f.ended b .jump .missing [after]).newBlock.1).replaceSucc b after f.numBlocks =
      .ok (f.newBlock.1.ended b .jump .missing [f.numBlocks]) :=
    replaceSucc_jump hlt hb hp hafter hne hvalues (by simpa [hpreds] using hhead)
  refine gives_unless hguard (hnew.bind ?_)
  simp only [Session.func_on, Option.getD_some, hexits]
  rw [List.forIn_cons]
  refine Gives.bind (Gives.bind (a := .yield ⟨⟩) ((gives_function hs).bind ?_) (gives_pure _))
    (gives_pure _)
  rw [hturn]
  exact gives_lift.bind (gives_setFunction.bind (gives_pure _))

theorem gives_beginLoop (hs : s.closed = false) (h : Site f b) :
    beginLoop.Gives (s.on f b) s.scopes.size ((pushed s (.loop f.numBlocks none)).on
      (f.newBlock.1.ended b .jump .missing [f.numBlocks]) f.numBlocks) := by
  have hsite : Site f.newBlock.1 b :=
    ⟨h.draft.newBlock, by simpa using Nat.lt_succ_of_lt h.lt, by simpa using h.pending⟩
  exact (gives_newBlock hs).bind ((gives_jumpTo hs hsite.draft.bare hsite.pending).bind
    (gives_setInsertBlock.bind gives_push))

theorem gives_loopCondition (hi : Innermost s id (.loop head none)) (h : Site f b) :
    (loopCondition id (own s t w)).Gives (s.on f b) ()
      ((changed s id (.loop head (some (f.numBlocks + 1)))).on
        (f.newBlock.1.newBlock.1.ended b .branch (.value w) [f.numBlocks, f.numBlocks + 1])
        f.numBlocks) := by
  have hi' : Innermost (s.on f b) id (.loop head none) := ⟨hi.opened, hi.scope, hi.nest⟩
  have hsite : Site f.newBlock.1.newBlock.1 b :=
    ⟨h.draft.newBlock.newBlock, by simpa using Nat.lt_succ_of_lt (Nat.lt_succ_of_lt h.lt),
      by simpa using h.pending⟩
  have hsecond := gives_newBlock (f := f.newBlock.1) (b := b) hi.opened
  rw [numBlocks_newBlock] at hsecond
  have hset : ∀ g : Func, (setConstruct id (.loop head (some (f.numBlocks + 1)))).Gives
      (s.on g b) () ((changed s id (.loop head (some (f.numBlocks + 1)))).on g b) :=
    fun g => gives_modify
  have hcond : (condition (own s t w)).Gives
      ((changed s id (.loop head (some (f.numBlocks + 1)))).on f.newBlock.1.newBlock.1 b) (.value w)
      ((changed s id (.loop head (some (f.numBlocks + 1)))).on f.newBlock.1.newBlock.1 b) :=
    gives_condition (s := changed s id (.loop head (some (f.numBlocks + 1))))
  have hs : (changed s id (.loop head (some (f.numBlocks + 1)))).closed = false := hi.opened
  refine (gives_scope hi'.scope).bind ((gives_checkInnermost hi').bind ?_)
  exact gives_sessionOf_one.bind ((gives_newBlock hi.opened).bind (hsecond.bind ((hset _).bind
    (hcond.bind ((gives_branchOn hs hsite.draft.bare hsite.pending).bind gives_setInsertBlock)))))

theorem gives_endLoop (hi : Innermost s id (.loop head (some after))) (h : Site f b) :
    (endScope id).Gives (s.on f b) ()
      ((popped s).on (f.ended b .jump .missing [head]) after) := by
  have hi' : Innermost (s.on f b) id (.loop head (some after)) := ⟨hi.opened, hi.scope, hi.nest⟩
  refine (gives_scope hi'.scope).bind ((gives_checkInnermost hi').bind ?_)
  have hpop : pop.Gives (s.on f b) () ((popped s).on f b) := gives_pop
  rw [← fallen_pending h.pending]
  exact hpop.bind ((gives_fallTo h.draft.bare).bind gives_setInsertBlock)

theorem gives_beginDo (hs : s.closed = false) (h : Site f b) :
    beginDo.Gives (s.on f b) s.scopes.size ((pushed s (.doUntil f.numBlocks)).on
      (f.newBlock.1.ended b .jump .missing [f.numBlocks]) f.numBlocks) := by
  have hsite : Site f.newBlock.1 b :=
    ⟨h.draft.newBlock, by simpa using Nat.lt_succ_of_lt h.lt, by simpa using h.pending⟩
  exact (gives_newBlock hs).bind ((gives_jumpTo hs hsite.draft.bare hsite.pending).bind
    (gives_setInsertBlock.bind gives_push))

theorem gives_doUntil (hi : Innermost s id (.doUntil head)) (h : Site f b) :
    (doUntil id (own s t w)).Gives (s.on f b) ()
      ((popped s).on (f.newBlock.1.ended b .branch (.value w) [f.numBlocks, head])
        f.numBlocks) := by
  have hi' : Innermost (s.on f b) id (.doUntil head) := ⟨hi.opened, hi.scope, hi.nest⟩
  have hsite : Site f.newBlock.1 b :=
    ⟨h.draft.newBlock, by simpa using Nat.lt_succ_of_lt h.lt, by simpa using h.pending⟩
  refine (gives_scope hi'.scope).bind ((gives_checkInnermost hi').bind ?_)
  have hpop : pop.Gives (s.on f b) () ((popped s).on f b) := gives_pop
  have hcond : (condition (own s t w)).Gives ((popped s).on f.newBlock.1 b) (.value w)
      ((popped s).on f.newBlock.1 b) := gives_condition (s := popped s)
  have hs : (popped s).closed = false := hi.opened
  exact hpop.bind (gives_sessionOf_one.bind ((gives_newBlock hs).bind (hcond.bind
    ((gives_branchOn hs hsite.draft.bare hsite.pending).bind gives_setInsertBlock))))

theorem gives_returnValue (hs : s.closed = false) (h : Site f b) (ht : t.ty = f.ret) :
    (returnValue (own s t w)).Gives (s.on f b) ()
      (s.on (f.ended b .ret (.value w) []).newBlock.1 f.numBlocks) := by
  refine (gives_function hs).bind ?_
  refine gives_unless (not_not.mpr ht) ?_
  have hnew := gives_newBlock (f := f.ended b .ret (.value w) []) (b := b) hs
  rw [numBlocks_ended] at hnew
  exact gives_sessionOf_one.bind (gives_resolve.bind ((gives_ret hs h.draft.bare h.pending).bind (hnew.bind
    gives_setInsertBlock)))

theorem gives_returnVoid (hs : s.closed = false) (h : Site f b) (hret : f.ret.isVoid = true) :
    returnVoid.Gives (s.on f b) () (s.on (f.ended b .ret .missing []).newBlock.1 f.numBlocks) := by
  refine (gives_function hs).bind ?_
  refine gives_unless (by simp [hret]) ?_
  have hnew := gives_newBlock (f := f.ended b .ret .missing []) (b := b) hs
  rw [numBlocks_ended] at hnew
  exact (gives_ret hs h.draft.bare h.pending).bind (hnew.bind gives_setInsertBlock)

end control

end BuildM

end SsaJit.Build
