import SsaJit.Build.Acquire
import SsaJit.Proofs.Build.Waiting

/-! What can be done about constructs. A handle on one outlives it and can be used at any time; a machine
that knows of each open construct only how far it has come says when that is in order. Building accepts a
step just if the machine does. A step that it accepts goes through: the insertion block has no end by then,
and neither has a block in which an open construct is gone on with later. One that it does not accept is
rejected before anything is done, and so is the end of a session in which constructs are open. -/

namespace SsaJit.Build

open Func

/-! ## The machine -/

/-- How far an open construct has come. -/
inductive Phase
  /-- Where the condition holds, and where it does not. -/
  | ifArm
  | elseArm
  /-- A loop without a condition yet, and one with it. -/
  | loopHead
  | loopBody
  | doBody
  deriving DecidableEq, Repr

def Construct.phase : Construct → Phase
  | .branch _ _ false => .ifArm
  | .branch _ _ true => .elseArm
  | .loop _ none => .loopHead
  | .loop _ (some _) => .loopBody
  | .doUntil _ => .doBody

namespace Construct

variable {k : Construct}

theorem of_ifArm (h : k.phase = .ifArm) : ∃ head after, k = .branch head after false :=
  match k, h with
  | .branch head after false, _ => ⟨head, after, rfl⟩

theorem of_arm (h : k.phase = .ifArm ∨ k.phase = .elseArm) :
    ∃ head after inElse, k = .branch head after inElse :=
  match k, h with
  | .branch head after inElse, _ => ⟨head, after, inElse, rfl⟩

theorem of_loopHead (h : k.phase = .loopHead) : ∃ header, k = .loop header none :=
  match k, h with
  | .loop header none, _ => ⟨header, rfl⟩

theorem of_loopBody (h : k.phase = .loopBody) : ∃ header after, k = .loop header (some after) :=
  match k, h with
  | .loop header (some after), _ => ⟨header, after, rfl⟩

theorem of_doBody (h : k.phase = .doBody) : ∃ body, k = .doUntil body :=
  match k, h with
  | .doUntil body, _ => ⟨body, rfl⟩

end Construct

/-- The open constructs, innermost first. -/
abbrev Stack := List (ScopeId × Phase)

/-- Something that is done with the innermost construct. -/
def Stack.onTop (st : Stack) (id : ScopeId) (go : Phase → Stack → Option Stack) : Option Stack :=
  match st with
  | [] => none
  | (top, phase) :: rest => if top = id then go phase rest else none

/-- What can be done about constructs. -/
inductive Move
  | beginIf (cond : Handle)
  | elseArm (id : ScopeId)
  | beginLoop
  | loopCondition (id : ScopeId) (cond : Handle)
  | beginDo
  | doUntil (id : ScopeId) (cond : Handle)
  | endScope (id : ScopeId)
  deriving DecidableEq, Repr

namespace Move

/-- The stack after a move that is in order, with a number for the construct that it begins. -/
def next (fresh : ScopeId) (st : Stack) : Move → Option Stack
  | beginIf _ => some ((fresh, .ifArm) :: st)
  | beginLoop => some ((fresh, .loopHead) :: st)
  | beginDo => some ((fresh, .doBody) :: st)
  | elseArm id => st.onTop id fun phase rest =>
      if phase = .ifArm then some ((id, .elseArm) :: rest) else none
  | loopCondition id _ => st.onTop id fun phase rest =>
      if phase = .loopHead then some ((id, .loopBody) :: rest) else none
  | doUntil id _ => st.onTop id fun phase rest => if phase = .doBody then some rest else none
  | endScope id => st.onTop id fun phase rest =>
      if phase = .ifArm ∨ phase = .elseArm ∨ phase = .loopBody then some rest else none

/-- Make the move. The answer is the number of the construct that it begins. -/
def act : Move → BuildM (Option ScopeId)
  | beginIf cond => do return some (← BuildM.beginIf cond)
  | elseArm id => do BuildM.elseArm id; return none
  | beginLoop => do return some (← BuildM.beginLoop)
  | loopCondition id cond => do BuildM.loopCondition id cond; return none
  | beginDo => do return some (← BuildM.beginDo)
  | doUntil id cond => do BuildM.doUntil id cond; return none
  | endScope id => do BuildM.endScope id; return none

/-- The move can be written down: its condition has a value, and its handle is one on a construct of this
session, of the kind that it is for. Whether the construct is still open, and how far it has come, is
another matter. -/
def Typed (s : Session) : Move → Prop
  | beginIf cond => cond.ref.isSome
  | elseArm id => ∃ head after inElse, s.scopes[id]? = some ⟨s.id, .branch head after inElse⟩
  | beginLoop | beginDo => True
  | loopCondition id cond => cond.ref.isSome ∧ ∃ header exit, s.scopes[id]? = some ⟨s.id, .loop header exit⟩
  | doUntil id cond => cond.ref.isSome ∧ ∃ body, s.scopes[id]? = some ⟨s.id, .doUntil body⟩
  | endScope id => (∃ head after inElse, s.scopes[id]? = some ⟨s.id, .branch head after inElse⟩) ∨
      ∃ header exit, s.scopes[id]? = some ⟨s.id, .loop header exit⟩

end Move

namespace BuildM

variable {α β : Type} {s s' s'' : Session} {act : BuildM α} {e : Fault}

theorem Gives.fails {k : α → BuildM β} {a : α} (h : act.Gives s a s') (h' : (k a).Fails s' e s'') :
    (act >>= k).Fails s e s'' :=
  h.run_bind.trans h'

theorem Fails.bind {k : α → BuildM β} (h : act.Fails s e s') : (act >>= k).Fails s e s' := h.run_bind

end BuildM

/-! ## Sessions between moves -/

/-- The blocks without an end that a construct goes on with later. -/
def Construct.exits : Construct → List BlockId
  | .branch _ after _ => [after]
  | .loop _ exit => exit.toList
  | .doUntil _ => []

/-- The open constructs by number, innermost first. -/
abbrev Frames := List (ScopeId × Construct)

def Frames.waiting (frames : Frames) : List BlockId := frames.flatMap (·.2.exits)

def Frames.stack (frames : Frames) : Stack := frames.map fun p => (p.1, p.2.phase)

/-- Building is in the open block `c` of `f`, with `frames` begun around it. -/
structure Orderly (s : Session) (frames : Frames) (f : Func) (c : BlockId) : Prop where
  site : s.At f c frames.waiting
  pending : (f.block c).kind = .pending
  nest : s.nest = frames.map Prod.fst
  scopes : ∀ p ∈ frames, s.scopes[p.1]? = some ⟨s.id, p.2⟩
  nodup : (frames.map Prod.fst).Nodup
  targets : ∀ p ∈ frames, ∀ t : Nat, t ∈ p.2.targets → t < f.numBlocks

variable {s s' : Session} {frames : Frames} {f g : Func} {c d : BlockId} {k k' : Construct} {id : ScopeId}
  {cond : Handle}

namespace Session.At

open BuildM

variable {ws : List BlockId}

theorem gives_sessionOf (s : Session) (hr : cond.ref.isSome) : ∃ i, (sessionOf [cond]).Gives s i s := by
  obtain ⟨r, hr⟩ := Option.isSome_iff_exists.mp hr
  refine ⟨r.session, ?_⟩
  have hsession : commonSession [cond] none = .ok r.session := by
    simp [commonSession, hr]
  rw [sessionOf, hsession]
  exact gives_lift

theorem gives_condition (h : s.At f c ws) (hr : cond.ref.isSome) :
    ∃ x g, (condition cond).Gives s x (s.on g c) ∧ SameEnds f g := by
  obtain ⟨r, hr⟩ := Option.isSome_iff_exists.mp hr
  unfold BuildM.condition
  rw [hr]
  exact h.gives_resolve r

/-- A branch on a condition, and building goes on in a block that waited. -/
theorem gives_fork (h : s.At f c (d :: ws)) (yes no : Nat) (hp : (f.block c).kind = .pending)
    (hr : cond.ref.isSome) (hyes : yes < f.numBlocks) (hno : no < f.numBlocks) :
    ∃ x e g, (condition cond).Gives s x (s.on e c) ∧ (branchOn x yes no).Gives (s.on e c) () (s.on g c) ∧
      g.Awaits d ws ∧ (g.block d).kind = .pending ∧ f.numBlocks ≤ g.numBlocks := by
  obtain ⟨x, e, hcond, hends⟩ := h.gives_condition hr
  have he := h.awaits.sameEnds hends
  have hpend := (hends.kind c).trans hp
  have hended : (e.ended c .branch x [yes, no]).Awaits c (d :: ws) := he.ended hpend (by simp)
    (by simpa using ⟨hyes.trans_le hends.numBlocks, hno.trans_le hends.numBlocks⟩)
  exact ⟨x, e, _, hcond, gives_branchOn h.opened he.bare hpend, hended.next,
    (hended.blank d List.mem_cons_self).pending, by simpa using hends.numBlocks⟩

/-- A jump, and building goes on in a block that waited. -/
theorem jumped {t : Nat} (h : s.At f c (d :: ws)) (hp : (f.block c).kind = .pending)
    (ht : t < f.numBlocks) : ∃ g, (jumpTo t).Gives s () (s.on g c) ∧ (fallTo t).Gives s () (s.on g c) ∧
      g.Awaits d ws ∧ (g.block d).kind = .pending ∧ f.numBlocks ≤ g.numBlocks := by
  have hjump := gives_jumpTo (s := s) (c := t) h.opened h.awaits.bare hp
  have hfall := gives_fallTo (s := s) (c := t) h.awaits.bare
  rw [fallen_pending hp, h.on] at hfall
  rw [h.on] at hjump
  have hended : (f.ended c .jump .missing [t]).Awaits c (d :: ws) :=
    h.awaits.ended hp (by simp) (by simpa using ht)
  exact ⟨_, hjump, hfall, hended.next, (hended.blank d List.mem_cons_self).pending, by simp⟩

end Session.At

namespace Orderly

open BuildM

/-- The innermost construct can be worked on. -/
theorem innermost (h : Orderly s ((id, k) :: frames) f c) : Innermost s id k :=
  ⟨h.site.opened, h.scopes _ List.mem_cons_self, by rw [h.nest]; rfl⟩

theorem pushed (h : Orderly s frames f c) (hg : g.Awaits d (k.exits ++ frames.waiting))
    (hp : (g.block d).kind = .pending) (hle : f.numBlocks ≤ g.numBlocks)
    (hk : ∀ t : Nat, t ∈ k.targets → t < g.numBlocks) :
    Orderly ((pushed s k).on g d) ((s.scopes.size, k) :: frames) g d := by
  have hlt : ∀ p ∈ frames, p.1 < s.scopes.size := fun p hp =>
    (Array.getElem?_eq_some_iff.mp (h.scopes p hp)).1
  refine ⟨⟨h.site.opened, rfl, rfl, hg⟩, hp, ?_, fun p hp => ?_, ?_, fun p hp t ht => ?_⟩
  · exact congrArg (s.scopes.size :: ·) h.nest
  · change (s.scopes.push ⟨s.id, k⟩)[p.1]? = some ⟨s.id, p.2⟩
    rcases List.mem_cons.mp hp with rfl | hp
    · exact Array.getElem?_push_size
    · rw [Array.getElem?_push, if_neg (hlt p hp).ne, h.scopes p hp]
  · refine List.nodup_cons.mpr ⟨fun hin => ?_, h.nodup⟩
    obtain ⟨p, hp, heq⟩ := List.mem_map.mp hin
    exact Nat.lt_irrefl _ (heq ▸ hlt p hp)
  · rcases List.mem_cons.mp hp with rfl | hp
    · exact hk t ht
    · exact (h.targets p hp t ht).trans_le hle

theorem changed (h : Orderly s ((id, k) :: frames) f c) (hg : g.Awaits d (k'.exits ++ frames.waiting))
    (hp : (g.block d).kind = .pending) (hle : f.numBlocks ≤ g.numBlocks)
    (hk : ∀ t : Nat, t ∈ k'.targets → t < g.numBlocks) :
    Orderly ((changed s id k').on g d) ((id, k') :: frames) g d := by
  refine ⟨⟨h.site.opened, rfl, rfl, hg⟩, hp, h.nest, fun p hp => ?_, h.nodup, fun p hp t ht => ?_⟩
  · change (s.scopes.modify id _)[p.1]? = some ⟨s.id, p.2⟩
    rw [Array.getElem?_modify]
    rcases List.mem_cons.mp hp with rfl | hp
    · rw [if_pos rfl, h.scopes _ List.mem_cons_self]
      rfl
    · have hne : id ≠ p.1 := fun heq =>
        (List.nodup_cons.mp h.nodup).1 (List.mem_map.mpr ⟨p, hp, heq.symm⟩)
      rw [if_neg hne, h.scopes p (List.mem_cons_of_mem _ hp)]
  · rcases List.mem_cons.mp hp with rfl | hp
    · exact hk t ht
    · exact (h.targets p (List.mem_cons_of_mem _ hp) t ht).trans_le hle

theorem popped (h : Orderly s ((id, k) :: frames) f c) (hg : g.Awaits d frames.waiting)
    (hp : (g.block d).kind = .pending) (hle : f.numBlocks ≤ g.numBlocks) :
    Orderly ((popped s).on g d) frames g d where
  site := ⟨h.site.opened, rfl, rfl, hg⟩
  pending := hp
  nest := congrArg List.tail h.nest
  scopes p hp := h.scopes p (List.mem_cons_of_mem _ hp)
  nodup := (List.nodup_cons.mp h.nodup).2
  targets p hp t ht := (h.targets p (List.mem_cons_of_mem _ hp) t ht).trans_le hle

/-! ### What succeeds -/

theorem beginIf (h : Orderly s frames f c) (hr : cond.ref.isSome) : ∃ k s' g d, k.phase = .ifArm ∧
    (beginIf cond).Gives s s.scopes.size s' ∧ Orderly s' ((s.scopes.size, k) :: frames) g d := by
  obtain ⟨i, hsession⟩ := Session.At.gives_sessionOf s hr
  have hyes := h.site.edit h.site.awaits.newBlock
  have hboth := hyes.edit hyes.awaits.newBlock.swap
  have hafter := hyes.gives_newBlock
  have hnum : f.newBlock.1.newBlock.1.numBlocks = f.numBlocks + 2 := by simp
  obtain ⟨x, e, g, hcond, hbranch, hg, hp, hle⟩ := hboth.gives_fork f.numBlocks
    f.newBlock.1.numBlocks (by simpa using h.pending) hr (by omega) (by simp)
  refine ⟨.branch c f.newBlock.1.numBlocks false, _, g, f.numBlocks, rfl, ?_,
    h.pushed hg hp (by omega) (by simp [Construct.targets]; omega)⟩
  exact hsession.bind (h.site.gives_newBlock.bind (hafter.bind (hboth.gives_insertBlock.bind
    (hcond.bind (hbranch.bind (gives_setInsertBlock.bind gives_push))))))

theorem elseArm {head after : BlockId} (h : Orderly s ((id, .branch head after false) :: frames) f c) :
    ∃ k s' g d, k.phase = .elseArm ∧ (elseArm id).Gives s () s' ∧ Orderly s' ((id, k) :: frames) g d := by
  have hmerge := h.site.edit h.site.awaits.newBlock.swap
  have hnew := h.site.gives_newBlock
  obtain ⟨g, -, hfall, hg, hp, hle⟩ := hmerge.jumped (t := f.numBlocks) (by simpa using h.pending) (by simp)
  have hnum : f.newBlock.1.numBlocks = f.numBlocks + 1 := by simp
  refine ⟨.branch head f.numBlocks true, _, g, after, rfl, ?_,
    h.changed hg hp (by omega) (by simp [Construct.targets]; omega)⟩
  exact (gives_scope h.innermost.scope).bind ((gives_checkInnermost h.innermost).bind
    (hnew.bind (hfall.bind (gives_setInsertBlock.bind gives_modify))))

/-- A construct is left towards the block that waits for it. -/
theorem leave {t : BlockId} (h : Orderly s ((id, k) :: frames) f c) (hexits : k.exits = [d])
    (ht : t ∈ k.targets) : ∃ s' g, (do
      checkInnermost id ⟨s.id, k⟩
      pop
      fallTo t
      setInsertBlock d).Gives s () s' ∧ Orderly s' frames g d := by
  have hwait : (BuildM.popped s).At f c (d :: frames.waiting) := by
    have hsite := h.site
    rw [Frames.waiting, List.flatMap_cons, hexits] at hsite
    exact { hsite with }
  obtain ⟨g, -, hfall, hg, hp, hle⟩ := hwait.jumped h.pending (h.targets _ List.mem_cons_self t ht)
  exact ⟨_, g, (gives_checkInnermost h.innermost).bind (gives_pop.bind (hfall.bind gives_setInsertBlock)),
    h.popped hg hp hle⟩

theorem endIf {head after : BlockId} {inElse : Bool}
    (h : Orderly s ((id, .branch head after inElse) :: frames) f c) :
    ∃ s' g d, (endScope id).Gives s () s' ∧ Orderly s' frames g d := by
  obtain ⟨s', g, hleave, hs'⟩ := h.leave rfl (t := after) List.mem_cons_self
  exact ⟨s', g, after, (gives_scope h.innermost.scope).bind hleave, hs'⟩

theorem endLoop {header after : BlockId} (h : Orderly s ((id, .loop header (some after)) :: frames) f c) :
    ∃ s' g d, (endScope id).Gives s () s' ∧ Orderly s' frames g d := by
  obtain ⟨s', g, hleave, hs'⟩ := h.leave rfl (t := header) List.mem_cons_self
  exact ⟨s', g, after, (gives_scope h.innermost.scope).bind hleave, hs'⟩

/-- Where a loop is entered, whatever its kind. -/
theorem enter (h : Orderly s frames f c) (hk : k.exits = []) (htargets : k.targets = [f.numBlocks]) :
    ∃ s' g, (do
      let b ← newBlock
      jumpTo b
      setInsertBlock b
      push k).Gives s s.scopes.size s' ∧ Orderly s' ((s.scopes.size, k) :: frames) g f.numBlocks := by
  have hheader := h.site.edit h.site.awaits.newBlock
  obtain ⟨g, hjump, -, hg, hp, hle⟩ := hheader.jumped (t := f.numBlocks) (by simpa using h.pending) (by simp)
  have hnum : f.newBlock.1.numBlocks = f.numBlocks + 1 := by simp
  refine ⟨_, g, ?_, h.pushed (by rwa [hk]) hp (by omega) (by simp [htargets]; omega)⟩
  exact h.site.gives_newBlock.bind (hjump.bind (gives_setInsertBlock.bind gives_push))

theorem beginLoop (h : Orderly s frames f c) : ∃ k s' g d, k.phase = .loopHead ∧
    beginLoop.Gives s s.scopes.size s' ∧ Orderly s' ((s.scopes.size, k) :: frames) g d := by
  obtain ⟨s', g, henter, hs'⟩ := h.enter (k := .loop f.numBlocks none) rfl rfl
  exact ⟨_, s', g, _, rfl, h.site.gives_newBlock.bind (h.site.gives_newBlock.step henter), hs'⟩

theorem beginDo (h : Orderly s frames f c) : ∃ k s' g d, k.phase = .doBody ∧
    beginDo.Gives s s.scopes.size s' ∧ Orderly s' ((s.scopes.size, k) :: frames) g d := by
  obtain ⟨s', g, henter, hs'⟩ := h.enter (k := .doUntil f.numBlocks) rfl rfl
  exact ⟨_, s', g, _, rfl, h.site.gives_newBlock.bind (h.site.gives_newBlock.step henter), hs'⟩

theorem loopCondition {header : BlockId} (h : Orderly s ((id, .loop header none) :: frames) f c)
    (hr : cond.ref.isSome) : ∃ k s' g d, k.phase = .loopBody ∧ (loopCondition id cond).Gives s () s' ∧
      Orderly s' ((id, k) :: frames) g d := by
  obtain ⟨i, hsession⟩ := Session.At.gives_sessionOf s hr
  have hbody := h.site.edit h.site.awaits.newBlock
  have hboth := hbody.edit hbody.awaits.newBlock.swap
  have hafter := hbody.gives_newBlock
  have hnum : f.newBlock.1.newBlock.1.numBlocks = f.numBlocks + 2 := by simp
  let k := Construct.loop header (some f.newBlock.1.numBlocks)
  have hset : (BuildM.changed ((s.on f.newBlock.1 c).on f.newBlock.1.newBlock.1 c) id k).At
      f.newBlock.1.newBlock.1 c (f.numBlocks :: f.newBlock.1.numBlocks :: frames.waiting) := { hboth with }
  obtain ⟨x, e, g, hcond, hbranch, hg, hp, hle⟩ := hset.gives_fork f.numBlocks
    f.newBlock.1.numBlocks (by simpa using h.pending) hr (by omega) (by simp)
  have hheader := h.targets _ List.mem_cons_self header List.mem_cons_self
  refine ⟨k, _, g, f.numBlocks, rfl, ?_, h.changed hg hp (by omega) fun t ht => ?_⟩
  · exact (gives_scope h.innermost.scope).bind ((gives_checkInnermost h.innermost).bind
      (hsession.bind (h.site.gives_newBlock.bind (hafter.bind (gives_modify.bind (hcond.bind
        (hbranch.bind gives_setInsertBlock)))))))
  · obtain rfl | rfl : t = header ∨ t = f.newBlock.1.numBlocks := by
      simpa [k, Construct.targets] using ht
    · omega
    · simp at hle ⊢
      omega

theorem doUntil {body : BlockId} (h : Orderly s ((id, .doUntil body) :: frames) f c)
    (hr : cond.ref.isSome) : ∃ s' g d, (doUntil id cond).Gives s () s' ∧ Orderly s' frames g d := by
  obtain ⟨i, hsession⟩ := Session.At.gives_sessionOf (BuildM.popped s) hr
  have hsite : (BuildM.popped s).At f c frames.waiting := { h.site with }
  have hafter := hsite.edit hsite.awaits.newBlock
  have hnum : f.newBlock.1.numBlocks = f.numBlocks + 1 := by simp
  have hbody := h.targets _ List.mem_cons_self body List.mem_cons_self
  obtain ⟨x, e, g, hcond, hbranch, hg, hp, hle⟩ := hafter.gives_fork f.numBlocks body
    (by simpa using h.pending) hr (by omega) (by omega)
  refine ⟨_, g, f.numBlocks, ?_, h.popped hg hp (by omega)⟩
  exact (gives_scope h.innermost.scope).bind ((gives_checkInnermost h.innermost).bind
    (gives_pop.bind (hsession.bind (hsite.gives_newBlock.bind (hcond.bind
      (hbranch.bind gives_setInsertBlock))))))

/-! ### What is rejected -/

/-- A construct that is not the innermost one cannot be worked on. -/
theorem notInnermost (h : Orderly s frames f c) (hout : s.nest.head? ≠ some id) :
    ∃ fault, (checkInnermost id ⟨s.id, k⟩).Fails s (.raised (.scope fault)) s := by
  have hopen := gives_live h.site.opened
  cases frames with
  | nil =>
    have hnest : s.nest = [] := h.nest
    refine ⟨.notInnermost k.name "none", gives_enter.fails (hopen.fails (gives_get.fails ?_))⟩
    rw [hnest]
    rfl
  | cons p rest =>
    have hnest : s.nest = p.1 :: rest.map Prod.fst := h.nest
    have hne : p.1 ≠ id := fun heq => hout (by rw [hnest, heq]; rfl)
    refine ⟨.notInnermost k.name p.2.name, gives_enter.fails (hopen.fails (gives_get.fails ?_))⟩
    rw [hnest]
    dsimp only
    rw [if_pos hne]
    exact (gives_scope (h.scopes p List.mem_cons_self)).fails rfl

end Orderly

/-! ## Moves -/

section onTop

variable {go : Phase → Stack → Option Stack} {st : Stack}

theorem onTop_eq_some (h : frames.stack.onTop id go = some st) :
    ∃ k rest, frames = (id, k) :: rest ∧ go k.phase (Frames.stack rest) = some st := by
  cases frames with
  | nil => exact nomatch h
  | cons p rest =>
    have h : (if p.1 = id then go p.2.phase (Frames.stack rest) else none) = some st := h
    split at h
    · next htop => exact ⟨p.2, rest, by rw [← htop], h⟩
    · exact nomatch h

theorem onTop_eq_none (h : frames.stack.onTop id go = none) :
    (frames.map Prod.fst).head? ≠ some id ∨
      ∃ k rest, frames = (id, k) :: rest ∧ go k.phase (Frames.stack rest) = none := by
  cases frames with
  | nil => exact .inl nofun
  | cons p rest =>
    have h : (if p.1 = id then go p.2.phase (Frames.stack rest) else none) = none := h
    split at h
    · next htop => exact .inr ⟨p.2, rest, by rw [← htop], h⟩
    · next htop => exact .inl fun heq => htop (Option.some.inj heq)

end onTop

namespace Move

open BuildM

variable {m : Move} {st : Stack}

theorem guarded {P : Prop} [Decidable P] {x : Option Stack} (h : (if P then x else none) = some st) :
    P ∧ x = some st := by
  split at h
  · next hP => exact ⟨hP, h⟩
  · exact nomatch h

/-- What the machine accepts succeeds, and the constructs are those of the machine again. -/
theorem accepted (h : Orderly s frames f c) (hm : m.Typed s)
    (hnext : m.next s.scopes.size frames.stack = some st) :
    ∃ a s' frames' g d, m.act.Gives s a s' ∧ Orderly s' frames' g d ∧ Frames.stack frames' = st := by
  cases m with
  | beginIf cond =>
    obtain ⟨k, s', g, d, hk, hrun, hs'⟩ := h.beginIf hm
    exact ⟨_, s', _, g, d, hrun.bind (gives_pure _), hs', by rw [← Option.some.inj hnext, ← hk]; rfl⟩
  | beginLoop =>
    obtain ⟨k, s', g, d, hk, hrun, hs'⟩ := h.beginLoop
    exact ⟨_, s', _, g, d, hrun.bind (gives_pure _), hs', by rw [← Option.some.inj hnext, ← hk]; rfl⟩
  | beginDo =>
    obtain ⟨k, s', g, d, hk, hrun, hs'⟩ := h.beginDo
    exact ⟨_, s', _, g, d, hrun.bind (gives_pure _), hs', by rw [← Option.some.inj hnext, ← hk]; rfl⟩
  | elseArm id =>
    obtain ⟨k, rest, rfl, hgo⟩ := onTop_eq_some hnext
    obtain ⟨hphase, hst⟩ := guarded hgo
    obtain ⟨head, after, rfl⟩ := Construct.of_ifArm hphase
    obtain ⟨k, s', g, d, hk, hrun, hs'⟩ := h.elseArm
    exact ⟨_, s', _, g, d, hrun.bind (gives_pure _), hs', by rw [← Option.some.inj hst, ← hk]; rfl⟩
  | loopCondition id cond =>
    obtain ⟨k, rest, rfl, hgo⟩ := onTop_eq_some hnext
    obtain ⟨hphase, hst⟩ := guarded hgo
    obtain ⟨header, rfl⟩ := Construct.of_loopHead hphase
    obtain ⟨k, s', g, d, hk, hrun, hs'⟩ := h.loopCondition hm.1
    exact ⟨_, s', _, g, d, hrun.bind (gives_pure _), hs', by rw [← Option.some.inj hst, ← hk]; rfl⟩
  | doUntil id cond =>
    obtain ⟨k, rest, rfl, hgo⟩ := onTop_eq_some hnext
    obtain ⟨hphase, hst⟩ := guarded hgo
    obtain ⟨body, rfl⟩ := Construct.of_doBody hphase
    obtain ⟨s', g, d, hrun, hs'⟩ := h.doUntil hm.1
    exact ⟨_, s', _, g, d, hrun.bind (gives_pure _), hs', Option.some.inj hst⟩
  | endScope id =>
    obtain ⟨k, rest, rfl, hgo⟩ := onTop_eq_some hnext
    obtain ⟨hphase, hst⟩ := guarded hgo
    have hend : ∃ s' g d, (BuildM.endScope id).Gives s () s' ∧ Orderly s' rest g d := by
      rcases or_assoc.mpr hphase with harm | hloop
      · obtain ⟨head, after, inElse, rfl⟩ := Construct.of_arm harm
        exact h.endIf
      · obtain ⟨header, after, rfl⟩ := Construct.of_loopBody hloop
        exact h.endLoop
    obtain ⟨s', g, d, hrun, hs'⟩ := hend
    exact ⟨_, s', _, g, d, hrun.bind (gives_pure _), hs', Option.some.inj hst⟩

/-- A construct that the machine does not go on with is either not the innermost one, or not so far. -/
theorem refused {go : Phase → Stack → Option Stack} (h : Orderly s frames f c)
    (hsc : s.scopes[id]? = some ⟨s.id, k⟩) (hgo : frames.stack.onTop id go = none) :
    (∃ fault, (checkInnermost id ⟨s.id, k⟩).Fails s (.raised (.scope fault)) s) ∨
      (checkInnermost id ⟨s.id, k⟩).Gives s () s ∧ ∃ rest, go k.phase rest = none := by
  rcases onTop_eq_none hgo with hout | ⟨k', rest, rfl, hrest⟩
  · exact .inl (h.notInnermost (by rwa [h.nest]))
  · have hk : k' = k := congrArg Scope.construct (Option.some.inj (h.innermost.scope.symm.trans hsc))
    subst hk
    exact .inr ⟨gives_checkInnermost h.innermost, _, hrest⟩

/-- What the machine does not accept is rejected as a breach of nesting, before anything is done. -/
theorem rejected (h : Orderly s frames f c) (hm : m.Typed s)
    (hnext : m.next s.scopes.size frames.stack = none) :
    ∃ fault, m.act.Fails s (.raised (.scope fault)) s := by
  cases m with
  | beginIf | beginLoop | beginDo => exact nomatch hnext
  | elseArm id =>
    obtain ⟨head, after, inElse, hsc⟩ := hm
    rcases refused h hsc hnext with ⟨fault, hfail⟩ | ⟨hcheck, rest, hgo⟩
    · exact ⟨fault, ((gives_scope hsc).fails hfail.bind).bind⟩
    cases inElse with
    | false => exact nomatch hgo
    | true =>
      refine ⟨.wrongState "else", ((gives_scope hsc).fails (hcheck.fails ?_)).bind⟩
      rfl
  | loopCondition id cond =>
    obtain ⟨-, header, exit, hsc⟩ := hm
    rcases refused h hsc hnext with ⟨fault, hfail⟩ | ⟨hcheck, rest, hgo⟩
    · exact ⟨fault, ((gives_scope hsc).fails hfail.bind).bind⟩
    cases exit with
    | none => exact nomatch hgo
    | some after =>
      refine ⟨.conditionTwice, ((gives_scope hsc).fails (hcheck.fails ?_)).bind⟩
      rfl
  | doUntil id cond =>
    obtain ⟨-, body, hsc⟩ := hm
    rcases refused h hsc hnext with ⟨fault, hfail⟩ | ⟨-, rest, hgo⟩
    · exact ⟨fault, ((gives_scope hsc).fails hfail.bind).bind⟩
    · exact nomatch hgo
  | endScope id =>
    rcases hm with ⟨head, after, inElse, hsc⟩ | ⟨header, exit, hsc⟩
    · rcases refused h hsc hnext with ⟨fault, hfail⟩ | ⟨-, rest, hgo⟩
      · exact ⟨fault, ((gives_scope hsc).fails hfail.bind).bind⟩
      · cases inElse <;> exact nomatch hgo
    -- a loop without a condition is rejected wherever it is
    cases exit with
    | none =>
      refine ⟨.noCondition, ((gives_scope hsc).fails ?_).bind⟩
      rfl
    | some after =>
      rcases refused h hsc hnext with ⟨fault, hfail⟩ | ⟨-, rest, hgo⟩
      · exact ⟨fault, ((gives_scope hsc).fails hfail.bind).bind⟩
      · exact nomatch hgo

end Move

/-! ## Building -/

/-- Building that began with `s₀` has come to `s`, where the machine has `st`. What is rejected is
recovered from; between the moves stands other code, which leaves building in an open block. -/
inductive Reached (s₀ : Session) : Session → Stack → Prop
  | start : Reached s₀ s₀ []
  | move {s : Session} {st : Stack} (m : Move) : Reached s₀ s st → m.Typed s →
      Reached s₀ (m.act.run.run s).2 ((m.next s.scopes.size st).getD st)
  | code {s s' : Session} {st : Stack} {α : Type} {act : BuildM α} {a : α} {f : Func} {c : BlockId} :
      Reached s₀ s st → act.Plain → act.Gives s a s' → s'.func = some f → s'.cursor = some c →
      (f.block c).kind = .pending → Reached s₀ s' st

theorem Reached.orderly {t : Session} {name : String} {ret : Ty} {params : List Ty} {st : Stack}
    (ht : t.closed = false) (hnest : t.nest = []) (h : Reached (t.createFunction name ret params) s st) :
    ∃ frames f c, Orderly s frames f c ∧ Frames.stack frames = st := by
  induction h with
  | start =>
    have hplaced := createFunction_placed t name ret params
    have hbegun := begun_empty name ret params
    rw [createFunction_eq] at hplaced ⊢
    obtain ⟨hlt, hbare⟩ := hplaced.cursor _ _ rfl rfl
    exact ⟨[], _, 0, ⟨⟨ht, rfl, rfl, hlt, hbare, List.nodup_singleton _, nofun⟩,
      by rw [hbegun.block], hnest, nofun, .nil, nofun⟩, rfl⟩
  | @move s st m _ hm ih =>
    obtain ⟨frames, f, c, hs, rfl⟩ := ih
    cases hnext : m.next s.scopes.size frames.stack with
    | none =>
      obtain ⟨fault, hfail⟩ := Move.rejected hs hm hnext
      rw [show m.act.run.run s = _ from hfail]
      exact ⟨frames, f, c, hs, rfl⟩
    | some st =>
      obtain ⟨a, s', frames', g, d, hrun, hs', hst⟩ := Move.accepted hs hm hnext
      rw [show m.act.run.run s = _ from hrun]
      exact ⟨frames', g, d, hs', hst⟩
  | code _ hact hrun hf hc hp ih =>
    obtain ⟨frames, g, d, hs, hst⟩ := ih
    obtain ⟨hid, g', b, hle, hat⟩ := hact.goesOn hs.site hrun
    obtain rfl := Option.some.inj (hf.symm.trans hat.func)
    obtain rfl := Option.some.inj (hc.symm.trans hat.cursor)
    obtain ⟨hnest, own, hscopes⟩ := BuildM.Code.keeps (.plain hact) hrun
    refine ⟨frames, _, _, ⟨hat, hp, hnest.trans hs.nest, fun p hp => ?_, hs.nodup,
      fun p hp t ht => (hs.targets p hp t ht).trans_le hle⟩, hst⟩
    have hsc := hs.scopes p hp
    rw [hscopes, hid, Array.getElem?_append_left (Array.getElem?_eq_some_iff.mp hsc).1, hsc]

/-! ## Acquiring -/

namespace BuildM

variable {α β : Type} {u : Session} {e : Fault}

/-- Once a session is marked as acquired, the action leaves the mark. -/
def KeepsMark (act : BuildM α) : Prop := ∀ s : Session, s.acquired = true → (act.run.run s).2.acquired = true

namespace KeepsMark

theorem pure (a : α) : KeepsMark (pure a) := fun _ h => h

theorem fail (e : Fault) : KeepsMark (throw e : BuildM α) := fun _ h => h

theorem lift (r : Outcome α) : KeepsMark (lift r) := fun _ h => h

theorem modify {p : Session → Session} (hp : ∀ s, (p s).acquired = s.acquired) :
    KeepsMark (modify p : BuildM Unit) := fun s h => (hp s).trans h

theorem bind {act : BuildM α} {k : α → BuildM β} (h : KeepsMark act) (hk : ∀ a, KeepsMark (k a)) :
    KeepsMark (act >>= k) := by
  intro s hs
  have hmid := h s hs
  cases hrun : act.run.run s with
  | mk r s' =>
    rw [hrun] at hmid
    cases r with
    | ok a =>
      rw [Gives.run_bind hrun]
      exact hk a s' hmid
    | error e =>
      rw [Fails.run_bind hrun]
      exact hmid

theorem read {k : Session → BuildM β} (hk : ∀ s, KeepsMark (k s)) : KeepsMark (get >>= k) :=
  bind (fun _ h => h) hk

theorem ite {P : Prop} [Decidable P] {x y : BuildM α} (hx : KeepsMark x) (hy : KeepsMark y) :
    KeepsMark (if P then x else y) := by
  split
  · exact hx
  · exact hy

theorem setFunction (f : Func) : KeepsMark (setFunction f) := modify fun _ => rfl

theorem function : KeepsMark function :=
  bind (read fun _ => ite (fail _) (pure _)) fun _ => read fun s => by
    cases s.func with
    | none => exact fail _
    | some f => exact pure f

theorem note (level : Log.Level) (message : String) (fields : List (String × String)) :
    KeepsMark (note level message fields) := modify fun _ => rfl

theorem giveUp (e : Failure) : KeepsMark (giveUp e : BuildM α) :=
  read fun _ => ite (fail _) (read fun _ => bind (note _ _ _) fun _ => fail _)

theorem verified (wrap : Failure → Failure) : KeepsMark (verified wrap) :=
  bind function fun _ => bind (lift _) fun _ => ite (giveUp _) (pure _)

theorem optimize : KeepsMark optimize :=
  read fun _ => bind (lift _) fun _ => bind function fun _ => bind (lift _) fun _ => setFunction _

theorem dump : KeepsMark dump := by
  refine read fun s => bind function fun f =>
    ite (bind (lift _) fun _ => bind (note _ _ _) fun _ => ite ?llvm (pure _)) (ite ?llvm (pure _))
  split
  · exact note _ _ _
  · exact note _ _ _
  · exact fail _

theorem set {t : Session} {k : PUnit → BuildM α} (h : KeepsMark (k ⟨⟩)) (ht : t.acquired = true) :
    ((MonadState.set t >>= k).run.run s).2.acquired = true := h t ht

end KeepsMark

/-- With no construct open, a session is marked as acquired, whatever comes of it. -/
theorem acquired_of_acquire (name : String) (optimizing : Bool) (hopen : u.closed = false)
    (hf : u.func = some f) (hfresh : u.acquired = false) (hnest : u.nest = []) :
    ((acquire name optimizing).run.run u).2.acquired = true := by
  unfold acquire
  rw [gives_get.run_bind, if_neg (by simp [hopen]), if_neg (by simp [hfresh]), hf, hnest]
  refine KeepsMark.set (.bind (.lift _) fun _ => .bind (.setFunction _) fun _ => .bind (.verified _) fun _ =>
    .ite (.bind .optimize fun _ => .bind (.verified _) fun _ => ?rest) ?rest) rfl
  refine .bind .dump fun _ => .bind .function fun g => ?_
  dsimp only
  split
  · exact .giveUp _
  · exact .fail _
  split
  · exact .fail _
  exact .bind (.lift _) fun r => .ite (.bind (.note _ _ _) fun _ => .pure _) (.pure _)

/-- With constructs open, acquiring is refused before anything is done. -/
theorem acquire_fails {name : String} {optimizing : Bool} (hopen : u.closed = false)
    (hf : u.func = some f) (hfresh : u.acquired = false) (hnest : u.nest ≠ []) :
    ∃ fault, (acquire name optimizing).Fails u (.failure (.scope fault)) u := by
  obtain ⟨top, rest, hnest⟩ := List.exists_cons_of_ne_nil hnest
  refine ⟨.stillOpen u.nest.length (u.scopes.getD top default).construct.name, ?_⟩
  unfold acquire
  refine gives_get.fails ?_
  rw [if_neg (by simp [hopen]), if_neg (by simp [hfresh]), hf, hnest]
  rfl

end BuildM

/-! ## The discipline -/

/-- From a session that building has come to from `s₀`, what is done about constructs follows the
machine. -/
structure Obeys (s₀ s : Session) (st : Stack) : Prop where
  nest : s.nest = st.map Prod.fst
  site : ∃ f c, s.func = some f ∧ s.cursor = some c ∧ (f.block c).kind = .pending
  accepts : ∀ m : Move, m.Typed s → ∀ st', m.next s.scopes.size st = some st' →
    ∃ a s', m.act.Gives s a s' ∧ Reached s₀ s' st'
  rejects : ∀ m : Move, m.Typed s → m.next s.scopes.size st = none →
    ∃ fault, m.act.Fails s (.raised (.scope fault)) s

/-- Wherever building has come to, a construct can be worked on just if the machine allows it, and what
it does not allow is rejected and leaves the session as it was. A session that could be acquired
otherwise is refused and left as it was just if a construct is open. -/
theorem nesting_exact {t : Session} {name : String} {ret : Ty} {params : List Ty} {st : Stack}
    (ht : t.closed = false) (hnest : t.nest = []) (h : Reached (t.createFunction name ret params) s st) :
    Obeys (t.createFunction name ret params) s st ∧
    ∀ (u : Session) (label : String) (optimizing : Bool),
      u.closed = false → u.func.isSome → u.acquired = false →
      ((∃ fault, (BuildM.acquire label optimizing).Fails u (.failure (.scope fault)) u) ↔ u.nest ≠ []) ∧
      (u.nest = [] → ((BuildM.acquire label optimizing).run.run u).2.acquired = true) := by
  refine ⟨?_, fun u label optimizing hopen hf hfresh => ?_⟩
  · obtain ⟨frames, f, c, hs, rfl⟩ := h.orderly ht hnest
    refine ⟨?_, ⟨f, c, hs.site.func, hs.site.cursor, hs.pending⟩, fun m hm st' hnext => ?_,
      fun m hm hnext => Move.rejected hs hm hnext⟩
    · rw [hs.nest, Frames.stack, List.map_map]
      rfl
    · obtain ⟨a, s', _, _, _, hrun, -, -⟩ := Move.accepted hs hm hnext
      have hmove := h.move m hm
      rw [show m.act.run.run s = _ from hrun, hnext] at hmove
      exact ⟨a, s', hrun, hmove⟩
  · obtain ⟨f, hf⟩ := Option.isSome_iff_exists.mp hf
    have hmark := BuildM.acquired_of_acquire label optimizing hopen hf hfresh
    refine ⟨⟨fun ⟨fault, hfail⟩ hclosed => ?_, BuildM.acquire_fails hopen hf hfresh⟩, hmark⟩
    have hmarked := hmark hclosed
    rw [show (BuildM.acquire label optimizing).run.run u = _ from hfail] at hmarked
    exact absurd (hfresh.symm.trans hmarked) nofun

/-- A conditional, and a loop in its arm. -/
def loopInArm : Session :=
  (Move.beginLoop.act.run.run ((Move.beginIf BuildM.flag).act.run.run BuildM.flagged).2).2

/-- The conditional cannot be gone on with, and the session cannot be acquired. -/
theorem nesting_exact_loopInArm : (Session.start {} {}).closed = false ∧ (Session.start {} {}).nest = [] ∧
    Reached BuildM.flagged loopInArm [(1, .loopHead), (0, .ifArm)] ∧
    (∃ fault, (Move.elseArm 0).act.Fails loopInArm (.raised (.scope fault)) loopInArm) ∧
    (∃ fault, (BuildM.acquire "" true).Fails loopInArm (.failure (.scope fault)) loopInArm) := by
  have hreached : Reached BuildM.flagged loopInArm [(1, .loopHead), (0, .ifArm)] :=
    .move .beginLoop (.move (.beginIf BuildM.flag) .start rfl) trivial
  obtain ⟨hobeys, hacquire⟩ := nesting_exact (t := Session.start {} {}) rfl rfl hreached
  refine ⟨rfl, rfl, hreached, hobeys.rejects (.elseArm 0) ⟨_, _, _, rfl⟩ rfl, ?_⟩
  exact (hacquire loopInArm "" true rfl rfl rfl).1.mpr nofun

end SsaJit.Build
