import SsaJit.Proofs.Build.Arms

/-! Blocks that wait. Building goes on in one block at a time, and open constructs have further ones to go
on with later, which are still without an end by then: nothing but an end of the insertion block changes
how a block ends. -/

namespace SsaJit.Func

variable {f g : Func} {b c d : BlockId} {ws : List BlockId} {x : Operand} {v : Value}

/-- The block is there, without an end. -/
structure Blank (f : Func) (b : BlockId) : Prop where
  lt : b < f.numBlocks
  pending : (f.block b).kind = .pending
  bare : f.Bare b

/-- While building is in `c`, the blocks `ws` wait without an end. -/
structure Awaits (f : Func) (c : BlockId) (ws : List BlockId) : Prop where
  lt : c < f.numBlocks
  bare : f.Bare c
  distinct : (c :: ws).Nodup
  blank : ∀ b ∈ ws, f.Blank b

/-- How blocks end is the same. -/
structure SameEnds (f g : Func) : Prop where
  numBlocks : f.numBlocks ≤ g.numBlocks
  kind : ∀ b, (g.block b).kind = (f.block b).kind
  succs : ∀ b, (g.block b).succs = (f.block b).succs
  control : ∀ b, (g.block b).control = (f.block b).control

namespace SameEnds

theorem of_blocks (h : g.blocks = f.blocks) : SameEnds f g := by
  have hblock : ∀ b, g.block b = f.block b := fun b => by rw [block, h, block]
  exact ⟨Nat.le_of_eq (congrArg Array.size h).symm, fun b => by rw [hblock], fun b => by rw [hblock],
    fun b => by rw [hblock]⟩

theorem trans {k : Func} (h : SameEnds f g) (h' : SameEnds g k) : SameEnds f k where
  numBlocks := h.numBlocks.trans h'.numBlocks
  kind b := (h'.kind b).trans (h.kind b)
  succs b := (h'.succs b).trans (h.succs b)
  control b := (h'.control b).trans (h.control b)

theorem newBlock : SameEnds f f.newBlock.1 :=
  ⟨by simp, fun _ => by simp, fun _ => by simp, fun _ => by simp⟩

/-- Another list of values in a block. -/
theorem relist (p : List ValueId → List ValueId) :
    SameEnds f (f.modifyBlock b fun blk => { blk with values := p blk.values }) := by
  refine ⟨by simp, fun c => ?_, fun c => ?_, fun c => ?_⟩ <;>
    rcases block_modifyBlock_or (f := f) (b := b) (c := c)
      (p := fun blk => { blk with values := p blk.values }) with heq | ⟨rfl, heq⟩ <;> rw [heq]

theorem appended : SameEnds f (f.appended b v) :=
  trans (g := (f.pushValue { v with block := some b }).1) (of_blocks rfl) (relist (· ++ [f.numValues]))

theorem bare (h : SameEnds f g) (hb : f.Bare b) : g.Bare b := by
  intro hp
  rw [h.kind] at hp
  rw [h.succs, h.control]
  exact hb hp

theorem blank (h : SameEnds f g) (hb : f.Blank b) : g.Blank b :=
  ⟨hb.lt.trans_le h.numBlocks, (h.kind b).trans hb.pending, h.bare hb.bare⟩

end SameEnds

theorem blank_newBlock : f.newBlock.1.Blank f.numBlocks := by
  have hblock : f.newBlock.1.block f.numBlocks = default := by
    rw [block_newBlock, block_of_le (Nat.le_refl _)]
  refine ⟨by simp, ?_, fun _ => ?_⟩
  · rw [hblock]
    rfl
  · rw [hblock]
    exact ⟨rfl, rfl⟩

namespace Awaits

theorem sameEnds (h : f.Awaits c ws) (hg : SameEnds f g) : g.Awaits c ws :=
  ⟨h.lt.trans_le hg.numBlocks, hg.bare h.bare, h.distinct, fun b hb => hg.blank (h.blank b hb)⟩

theorem swap (h : f.Awaits c (b :: d :: ws)) : f.Awaits c (d :: b :: ws) where
  lt := h.lt
  bare := h.bare
  distinct := ((List.Perm.swap d b ws).cons c).nodup h.distinct
  blank a ha := h.blank a ((List.Perm.swap b d ws).subset ha)

/-- A new block can wait, too. -/
theorem newBlock (h : f.Awaits c ws) : f.newBlock.1.Awaits c (f.numBlocks :: ws) where
  lt := (h.sameEnds .newBlock).lt
  bare := (h.sameEnds .newBlock).bare
  distinct := by
    have hfresh : f.numBlocks ∉ c :: ws := fun hin => by
      rcases List.mem_cons.mp hin with hc | hw
      · exact Nat.lt_irrefl _ (hc ▸ h.lt)
      · exact Nat.lt_irrefl _ (h.blank _ hw).lt
    exact (List.Perm.swap c f.numBlocks ws).nodup (List.nodup_cons.mpr ⟨hfresh, h.distinct⟩)
  blank b hb := by
    rcases List.mem_cons.mp hb with rfl | hb
    · exact blank_newBlock
    · exact (h.sameEnds .newBlock).blank b hb

/-- Building goes on in a block that waited. -/
theorem next (h : f.Awaits c (d :: ws)) : f.Awaits d ws where
  lt := (h.blank d List.mem_cons_self).lt
  bare := (h.blank d List.mem_cons_self).bare
  distinct := (List.nodup_cons.mp h.distinct).2
  blank b hb := h.blank b (List.mem_cons_of_mem _ hb)

/-- The insertion block is given an end. -/
theorem ended {kind : BlockKind} {ts : List BlockId} (h : f.Awaits c ws)
    (hp : (f.block c).kind = .pending) (hkind : kind ≠ .pending) (hts : ∀ t ∈ ts, t < f.numBlocks) :
    (f.ended c kind x ts).Awaits c ws := by
  have hblock : ∀ d, (f.ended c kind x ts).block d = _ := fun d =>
    block_ended h.lt hts (h.bare hp).1
  refine ⟨by simpa using h.lt, fun hpend => ?_, h.distinct, fun b hb => ?_⟩
  · rw [hblock] at hpend
    exact absurd (by simpa using hpend) hkind
  · have hbc : b ≠ c := fun heq => (List.nodup_cons.mp h.distinct).1 (heq ▸ hb)
    have hblank := h.blank b hb
    refine ⟨by simpa using hblank.lt, ?_, fun _ => ?_⟩
    · simpa [hblock, hbc] using hblank.pending
    · simpa [hblock, hbc] using hblank.bare hblank.pending

end Awaits

end SsaJit.Func

namespace SsaJit.Build

open Func

variable {α : Type} {s s' : Session} {f : Func} {c : BlockId} {ws : List BlockId}

/-- Building goes on in block `c`, and the blocks `ws` wait. -/
structure Session.At (s : Session) (f : Func) (c : BlockId) (ws : List BlockId) : Prop where
  opened : s.closed = false
  func : s.func = some f
  cursor : s.cursor = some c
  awaits : f.Awaits c ws

/-- From `s`, with function `f`, building has gone on to `s'`, and the blocks `ws` still wait. -/
def Session.GoesOn (s : Session) (f : Func) (ws : List BlockId) (s' : Session) : Prop :=
  s'.id = s.id ∧ ∃ g d, f.numBlocks ≤ g.numBlocks ∧ s'.At g d ws

theorem Session.GoesOn.trans {s'' : Session} (h : s.GoesOn f ws s')
    (h' : ∀ g d, s'.At g d ws → s'.GoesOn g ws s'') : s.GoesOn f ws s'' := by
  obtain ⟨hid, g, d, hle, hat⟩ := h
  obtain ⟨hid', k, e, hle', hat'⟩ := h' g d hat
  exact ⟨hid'.trans hid, k, e, hle.trans hle', hat'⟩

namespace Session.At

open BuildM

theorem on (h : s.At f c ws) : s.on f c = s := Session.on_self h.func h.cursor

theorem edit {g : Func} {d : BlockId} {vs : List BlockId} (h : s.At f c ws) (hg : g.Awaits d vs) :
    (s.on g d).At g d vs := ⟨h.opened, rfl, rfl, hg⟩

/-- An edit that leaves the ends of blocks alone. -/
theorem edited {g : Func} (h : s.At f c ws) (hg : SameEnds f g) : s.GoesOn f ws (s.on g c) :=
  ⟨rfl, g, c, hg.numBlocks, h.edit (h.awaits.sameEnds hg)⟩

theorem gives_function (h : s.At f c ws) : function.Gives s f s := by
  have hrun := BuildM.gives_function (f := f) (b := c) h.opened
  rwa [h.on] at hrun

theorem gives_insertBlock (h : s.At f c ws) : insertBlock.Gives s c s := by
  have hrun := BuildM.gives_insertBlock (s := s) (f := f) (b := c)
  rwa [h.on] at hrun

theorem gives_setFunction {g : Func} (h : s.At f c ws) : (setFunction g).Gives s () (s.on g c) := by
  have hrun := BuildM.gives_setFunction (s := s) (f := f) (b := c) (g := g)
  rwa [h.on] at hrun

theorem gives_newBlock (h : s.At f c ws) : newBlock.Gives s f.numBlocks (s.on f.newBlock.1 c) := by
  have hrun := BuildM.gives_newBlock (f := f) (b := c) h.opened
  rwa [h.on] at hrun

theorem emit {v : Value} {x : Operand} (h : s.At f c ws) (hrun : (emit v).Gives s x s') :
    s.GoesOn f ws s' := by
  have hrest := h.gives_insertBlock.step (h.gives_function.step hrun)
  obtain ⟨-, hrest⟩ := hrest.guarded not_gives_fail
  have hrest := h.gives_setFunction.step hrest
  obtain ⟨-, rfl⟩ := (gives_pure _).unique hrest
  exact h.edited .appended

theorem alloca {t : Ty} {n : Int} {x : Operand} (h : s.At f c ws) (hrun : (alloca t n).Gives s x s') :
    s.GoesOn f ws s' := by
  obtain ⟨entry, s₁, hlift, hrest⟩ := (h.gives_function.step hrun).of_bind
  obtain ⟨-, rfl⟩ := gives_of_lift hlift
  obtain ⟨⟨g, v⟩, s₂, hlift, hrest⟩ := hrest.of_bind
  obtain ⟨hinsert, rfl⟩ := gives_of_lift hlift
  have hrest := h.gives_setFunction.step hrest
  obtain ⟨-, rfl⟩ := (gives_pure _).unique hrest
  unfold Func.insertValue at hinsert
  split at hinsert
  · exact nomatch hinsert
  · obtain ⟨rfl, -⟩ := Prod.mk.inj (Except.ok.inj hinsert)
    exact h.edited (.trans (g := (f.pushValue _).1) (.of_blocks rfl) (.relist (·.insertIdx _ _)))

theorem globalAddr {name : String} {data : List UInt8} {align : Int} {x : Operand} (h : s.At f c ws)
    (hrun : (globalAddr name data align).Gives s x s') : s.GoesOn f ws s' := by
  obtain ⟨-, hrest⟩ := (gives_get.step hrun).guarded not_gives_fail
  have hset : At { s with module := (s.module.addGlobal name data align).1 } f c ws := { h with }
  exact hset.emit (gives_modify.step hrest)

/-- A value may be taken over from an older function, which leaves the blocks alone. -/
theorem gives_resolve (h : s.At f c ws) (r : Ref) :
    ∃ x g, (resolve r).Gives s x (s.on g c) ∧ SameEnds f g := by
  by_cases hr : r.session = s.id
  · refine ⟨.value r.id, f, gives_get.bind ?_, .of_blocks rfl⟩
    rw [if_pos hr, h.on]
    exact gives_pure _
  · have hblocks : ∀ key k, (f.adopt key k).1.blocks = f.blocks := by
      intro key k
      unfold Func.adopt
      split <;> rfl
    let taken := f.adopt r.session (s.past.getD r.session default)
    refine ⟨.foreign (taken.2 + r.id), taken.1, gives_get.bind ?_, .of_blocks (hblocks _ _)⟩
    rw [if_neg hr, h.func]
    exact h.gives_setFunction.bind (gives_pure _)

theorem resolve {r : Ref} {x : Operand} (h : s.At f c ws) (hrun : (resolve r).Gives s x s') :
    s.GoesOn f ws s' := by
  obtain ⟨y, g, hgives, hends⟩ := h.gives_resolve r
  obtain ⟨-, rfl⟩ := hgives.unique hrun
  exact h.edited hends

/-- An end that leads nowhere. -/
theorem ends {u : Unit} {e : Func → BlockId → Outcome Func} {kind : BlockKind} {x : Operand}
    (h : s.At f c ws) (hrun : (endWith e).Gives s u s')
    (he : (f.block c).kind = .pending → e f c = .ok (f.ended c kind x [])) (hkind : kind ≠ .pending) :
    s.GoesOn f ws s' := by
  obtain ⟨b, s₁, hopen, hset⟩ := hrun.of_bind
  obtain ⟨hguard, hopen⟩ := (h.gives_insertBlock.step (h.gives_function.step hopen)).guarded not_gives_fail
  obtain ⟨rfl, rfl⟩ := (gives_pure _).unique hopen
  have hp : (f.block c).kind = .pending := by simpa [Block.isTerminated] using hguard
  have hset := h.gives_function.step hset
  rw [he hp] at hset
  obtain ⟨-, rfl⟩ := h.gives_setFunction.unique (gives_lift.step hset)
  exact ⟨rfl, _, c, numBlocks_ended.ge, h.edit (h.awaits.ended hp hkind (by simp))⟩

end Session.At

/-- Code that begins and ends no constructs leaves waiting blocks alone. -/
theorem BuildM.Plain.goesOn {act : BuildM α} {a : α} (hact : Plain act) (h : s.At f c ws)
    (hrun : act.Gives s a s') : s.GoesOn f ws s' := by
  induction hact generalizing s s' f c with
  | pure a =>
    obtain ⟨-, rfl⟩ := (gives_pure _).unique hrun
    exact ⟨rfl, f, c, Nat.le_refl _, h⟩
  | bind _ _ hx hf =>
    obtain ⟨a, s₁, hfirst, hrest⟩ := hrun.of_bind
    exact (hx h hfirst).trans fun g b h₁ => hf a h₁ hrest
  | fail e => exact absurd hrun not_gives_fail
  | read _ _ hf => exact hf s h (gives_get.step hrun)
  | emit v => exact h.emit hrun
  | alloca t n => exact h.alloca hrun
  | globalAddr name data align => exact h.globalAddr hrun
  | resolve r => exact h.resolve hrun
  | ret x => exact h.ends hrun (setRet_pending h.awaits.bare) (by simp)
  | unreachable => exact h.ends hrun (setUnreachable_pending h.awaits.bare) (by simp)
  | newBlock =>
    obtain ⟨-, rfl⟩ := h.gives_newBlock.unique hrun
    exact h.edited .newBlock
  | afresh =>
    have hrest := h.gives_newBlock.step hrun
    obtain ⟨-, rfl⟩ := gives_setInsertBlock.unique hrest
    exact ⟨rfl, _, _, numBlocks_newBlock_le, h.edit h.awaits.newBlock.next⟩

end SsaJit.Build
