import SsaJit.Proofs.Build.Finish
import SsaJit.Proofs.Build.Nesting
import SsaJit.Proofs.Edges.Redirect

/-! The two forms of a conditional with an else. One gets its arms as actions: it is left behind the then
arm, and the else arm is built once all exits of the then arm have been turned from the block behind the
conditional to a new one. The other stays on the nest until the end of the else arm, and the then arm
jumps to the new block in the first place.

They come to the same because of what an arm cannot do. It works in the block that it began in and in
blocks that it made (`Func.Beyond`, `Inside`), so that of all its exits the last one alone leads to the
block behind the conditional, which has stayed empty. And it does not see the constructs that it is in,
of which the second form has one more on the nest (`Code.run_nested`). -/

namespace SsaJit.Func

variable {f g k : Func} {b c d e : BlockId} {o : Operand} {t : BlockId}

/-! ## What building from one block leaves alone -/

/-- Construction went on from block `b` of `f`, whatever `f` is like: but for that block and the entry,
which gets stack space, all blocks that there were are as before. Blocks that it worked on lead nowhere
as long as they have no end, and new ones are only reached from those. -/
structure Beyond (f : Func) (b : BlockId) (g : Func) : Prop where
  numBlocks : f.numBlocks ≤ g.numBlocks
  entry : ∀ e, g.entry? = some e → (f.numBlocks ≤ e ∨ f.entry? = some e) ∧ e < g.numBlocks
  kept : ∀ d < f.numBlocks, d ≠ b → f.entry? ≠ some d → g.block d = f.block d
  bare : ∀ d, f.Onward b d → g.Bare d
  preds : ∀ d, f.numBlocks ≤ d → ∀ p ∈ (g.block d).preds, f.Onward b p

theorem block_modifyBlock_or {p : Block → Block} : (f.modifyBlock b p).block c = f.block c ∨
    c = b ∧ (f.modifyBlock b p).block c = p (f.block b) := by
  by_cases hcb : c = b
  · subst hcb
    by_cases hc : c < f.numBlocks
    · exact .inr ⟨rfl, by rw [block_modifyBlock hc, if_pos rfl]⟩
    · have hle := Nat.le_of_not_lt hc
      exact .inl (by rw [block_of_le hle, block_of_le (by simpa using hle)])
  · exact .inl (block_modifyBlock_ne hcb)

theorem numBlocks_newBlock_le : f.numBlocks ≤ f.newBlock.1.numBlocks := by simp

namespace Beyond

theorem refl (hb : f.Bare b) (he : ∀ e, f.entry? = some e → e < f.numBlocks) : Beyond f b f where
  numBlocks := Nat.le_refl _
  entry e h := ⟨.inr h, he e h⟩
  kept _ _ _ _ := rfl
  bare d hd := by
    rcases hd with rfl | hle
    · exact hb
    · intro _
      rw [block_of_le hle]
      exact ⟨rfl, rfl⟩
  preds d hd p hp := by
    rw [block_of_le hd] at hp
    exact nomatch hp

/-- Only the blocks count. -/
theorem congr (h : Beyond f b g) (hblocks : k.blocks = g.blocks) (hlayout : k.layout = g.layout) :
    Beyond f b k := by
  have hnum : k.numBlocks = g.numBlocks := congrArg Array.size hblocks
  have hblock : ∀ d, k.block d = g.block d := fun d => by rw [block, hblocks, block]
  have hentry : k.entry? = g.entry? := congrArg List.head? hlayout
  refine ⟨hnum ▸ h.numBlocks, fun e he => ?_, fun d => ?_, fun d hd => ?_, fun d => ?_⟩
  · rw [hnum]
    exact h.entry e (hentry ▸ he)
  · rw [hblock]
    exact h.kept d
  · rw [Bare, hblock]
    exact h.bare d hd
  · rw [hblock]
    exact h.preds d

theorem modifyBlock {p : Block → Block} (h : Beyond f b g) (hd : f.Onward b d ∨ g.entry? = some d)
    (hbare : f.Onward b d → (p (g.block d)).kind = .pending →
      (p (g.block d)).succs = [] ∧ (p (g.block d)).control = .missing)
    (hpreds : ∀ q ∈ (p (g.block d)).preds, q ∈ (g.block d).preds ∨ f.Onward b q) :
    Beyond f b (g.modifyBlock d p) where
  numBlocks := by simpa using h.numBlocks
  entry e he := by simpa using h.entry e he
  kept c hc hcb hce := by
    rcases block_modifyBlock_or (f := g) (b := d) (c := c) (p := p) with heq | ⟨rfl, -⟩
    · rw [heq, h.kept c hc hcb hce]
    · exfalso
      rcases hd with (rfl | hle) | he
      · exact hcb rfl
      · exact Nat.lt_irrefl _ (hc.trans_le hle)
      · rcases (h.entry c he).1 with hle | hold
        · exact Nat.lt_irrefl _ (hc.trans_le hle)
        · exact hce hold
  bare c hc := by
    rcases block_modifyBlock_or (f := g) (b := d) (c := c) (p := p) with heq | ⟨rfl, heq⟩
    · rw [Bare, heq]
      exact h.bare c hc
    · rw [Bare, heq]
      exact hbare hc
  preds c hc q hq := by
    rcases block_modifyBlock_or (f := g) (b := d) (c := c) (p := p) with heq | ⟨rfl, heq⟩
    · exact h.preds c hc q (heq ▸ hq)
    · exact (hpreds q (heq ▸ hq)).elim (h.preds c hc q) id

/-- A change of what a block lists. -/
theorem relist {p : List ValueId → List ValueId} (h : Beyond f b g)
    (hd : f.Onward b d ∨ g.entry? = some d) :
    Beyond f b (g.modifyBlock d fun blk => { blk with values := p blk.values }) :=
  h.modifyBlock hd (h.bare d) fun _ hq => .inl hq

theorem appended {x : Value} (h : Beyond f b g) (hc : f.Onward b c) : Beyond f b (g.appended c x) :=
  relist (g := (g.pushValue { x with block := some c }).1) (p := (· ++ [g.numValues]))
    (h.congr rfl rfl) (.inl hc)

theorem newBlock (h : Beyond f b g) : Beyond f b g.newBlock.1 where
  numBlocks := by simpa using Nat.le_succ_of_le h.numBlocks
  entry e he := by
    change (g.layout ++ [g.numBlocks]).head? = some e at he
    rw [numBlocks_newBlock]
    cases hl : g.layout with
    | nil =>
      obtain rfl : g.numBlocks = e := by simpa [hl] using he
      exact ⟨.inl h.numBlocks, Nat.lt_succ_self _⟩
    | cons a l =>
      obtain ⟨hor, hlt⟩ := h.entry e (by simpa [ Func.entry?, hl] using he)
      exact ⟨hor, Nat.lt_succ_of_lt hlt⟩
  kept d hd hdb hde := block_newBlock.trans (h.kept d hd hdb hde)
  bare d hd := by
    rw [Bare, block_newBlock]
    exact h.bare d hd
  preds d hd := by
    rw [block_newBlock]
    exact h.preds d hd

/-- An end that leads to new blocks. -/
theorem ended {kind : BlockKind} {ts : List BlockId} (h : Beyond f b g) (hc : f.Onward b c)
    (hlt : c < g.numBlocks) (hp : (g.block c).kind = .pending) (hkind : kind ≠ .pending)
    (hts : ∀ t ∈ ts, f.numBlocks ≤ t ∧ t < g.numBlocks) : Beyond f b (g.ended c kind o ts) := by
  have hblock : ∀ d, (g.ended c kind o ts).block d = _ := fun d =>
    block_ended hlt (fun t ht => (hts t ht).2) (h.bare c hc hp).1
  refine ⟨by simpa using h.numBlocks, fun e he => ?_, fun d hd hdb hde => ?_, fun d hd => ?_,
    fun d hd q hq => ?_⟩
  · rw [numBlocks_ended]
    exact h.entry e (by rwa [ Func.entry?, layout_ended] at he)
  · have hdc : d ≠ c := by
      rintro rfl
      exact hc.elim hdb fun hle => Nat.lt_irrefl _ (hd.trans_le hle)
    have hnot : ts.count d = 0 := List.count_eq_zero.mpr fun hin =>
      Nat.lt_irrefl _ (hd.trans_le (hts d hin).1)
    rw [hblock, ← h.kept d hd hdb hde]
    simp [hdc, hnot]
  · rw [Bare, hblock]
    by_cases hdc : d = c
    · simp [hdc, hkind]
    · simpa [hdc, Bare] using h.bare d hd
  · rw [hblock] at hq
    rcases List.mem_append.mp hq with hold | hnew
    · exact h.preds d hd q hold
    · rw [(List.mem_replicate.mp hnew).2]
      exact hc

/-- Stack space in the entry. -/
theorem inserted {x : Value} {i : Int} {v : ValueId} (h : Beyond f b g) (he : g.entry? = some c)
    (hrun : g.insertValue c i x = .ok (k, v)) : Beyond f b k ∧ k.numBlocks = g.numBlocks := by
  unfold insertValue at hrun
  split at hrun
  · exact nomatch hrun
  · obtain ⟨rfl, -⟩ := Prod.mk.inj (Except.ok.inj hrun)
    have hpush := h.congr (k := (g.pushValue { x with block := some c }).1) rfl rfl
    exact ⟨hpush.relist (.inr he), numBlocks_modifyBlock⟩

theorem fallen (h : Beyond f b g) (hc : f.Onward b c) (hlt : c < g.numBlocks)
    (ht : f.numBlocks ≤ t ∧ t < g.numBlocks) : Beyond f b (g.fallen c t) := by
  unfold Func.fallen
  split
  · exact h
  · next hopen =>
    exact h.ended hc hlt (by simpa [Block.isTerminated] using hopen) (by simp) (by simpa using ht)

theorem dropped {i : Int} (h : Beyond f b g) (hc : f.Onward b c) (hrun : g.removePred c i = .ok k) :
    Beyond f b k ∧ k.numBlocks = g.numBlocks ∧ ∀ d, (k.block d).kind = (g.block d).kind := by
  unfold removePred at hrun
  split at hrun
  · exact nomatch hrun
  obtain ⟨preds, hpreds, hrun⟩ := Outcome.bind_eq_ok.mp hrun
  have hsub : ∀ q ∈ preds, q ∈ (g.block c).preds := by
    unfold dropAt at hpreds
    split at hpreds
    · obtain rfl := Except.ok.inj hpreds
      exact fun q hq => List.mem_of_mem_eraseIdx hq
    · exact nomatch hpreds
  have hless := h.modifyBlock (p := fun blk => { blk with preds }) (.inl hc) (h.bare c)
    fun q hq => .inl (hsub q hq)
  -- the phis lose an argument each, which no block shows
  have hsame := Outcome.foldlM_relates (R := fun k k' : Func => k'.blocks = k.blocks ∧ k'.layout = k.layout)
    (fun _ => ⟨rfl, rfl⟩) (fun _ _ _ h₁ h₂ => ⟨h₂.1.trans h₁.1, h₂.2.trans h₁.2⟩)
    (fun x _ m m' hm => by
      dsimp only at hm
      split at hm
      · obtain ⟨args, -, hm⟩ := Outcome.bind_eq_ok.mp hm
        obtain rfl := Except.ok.inj hm
        exact ⟨rfl, rfl⟩
      · obtain rfl := Except.ok.inj hm
        exact ⟨rfl, rfl⟩) hrun
  refine ⟨hless.congr hsame.1 hsame.2, (congrArg Array.size hsame.1).trans numBlocks_modifyBlock,
    fun d => ?_⟩
  rw [block, hsame.1]
  rcases block_modifyBlock_or (f := g) (b := c) (c := d) (p := fun blk => { blk with preds }) with
    heq | ⟨rfl, heq⟩
  · exact congrArg Block.kind heq
  · exact (congrArg Block.kind heq).trans rfl

theorem repointed {p repl : BlockId} {i : Nat} (h : Beyond f b g) (hp : f.Onward b p)
    (hends : (g.block p).kind ≠ .pending) (hrepl : f.numBlocks ≤ repl) :
    Beyond f b (g.repointed p repl i) ∧ (g.repointed p repl i).numBlocks = g.numBlocks := by
  have hsuccs := h.modifyBlock (p := fun blk => { blk with succs := blk.succs.set i repl }) (.inl hp)
    (fun _ hpend => absurd hpend hends) fun _ hq => .inl hq
  refine ⟨hsuccs.modifyBlock (.inl (.inr hrepl)) (hsuccs.bare repl) fun q hq => ?_, by
    simp [Func.repointed]⟩
  rcases List.mem_append.mp hq with hold | hnew
  · exact .inl hold
  · obtain rfl := List.mem_singleton.mp hnew
    exact .inr hp

/-- An edge of a block that was worked on, turned from one new block towards another. -/
theorem replaceSucc {p old repl : BlockId} (h : Beyond f b g) (hp : f.Onward b p)
    (hold : f.numBlocks ≤ old) (hrepl : f.numBlocks ≤ repl)
    (hrun : g.replaceSucc p old repl = .ok k) : Beyond f b k ∧ k.numBlocks = g.numBlocks := by
  have hturned : ∀ (m : Func) (i : Nat) (incoming : List Operand), Beyond f b m →
      (m.block p).kind ≠ .pending → Beyond f b ((m.repointed p repl i).extendPhis repl incoming) ∧
      ((m.repointed p repl i).extendPhis repl incoming).numBlocks = m.numBlocks := by
    intro m i incoming hm hends
    obtain ⟨hrep, hnum⟩ := hm.repointed (i := i) hp hends hrepl
    have hphis := extend_foldl_frame (f := m.repointed p repl i)
      (l := ((m.repointed p repl i).phiIds repl).zip incoming)
    rw [← extendPhis_eq] at hphis
    exact ⟨hrep.congr hphis.1 hphis.2.1, (congrArg Array.size hphis.1).trans hnum⟩
  unfold Func.replaceSucc at hrun
  split at hrun
  · obtain rfl := Except.ok.inj hrun
    exact ⟨h, rfl⟩
  next i hi =>
  -- a block with an edge has an end
  have hends : (g.block p).kind ≠ .pending := fun hpend => by
    rw [(h.bare p hp hpend).1] at hi
    exact nomatch hi
  dsimp only at hrun
  split at hrun
  · obtain rfl := Except.ok.inj hrun
    exact hturned g i [] h hends
  · obtain ⟨incoming, -, hrun⟩ := Outcome.bind_eq_ok.mp hrun
    obtain ⟨m, hdrop, hrun⟩ := Outcome.bind_eq_ok.mp hrun
    obtain ⟨hm, hnum, hkind⟩ := h.dropped (.inr hold) hdrop
    obtain rfl := Except.ok.inj hrun
    obtain ⟨hk, hnum'⟩ := hturned m i incoming hm (by rwa [hkind])
    exact ⟨hk, hnum'.trans hnum⟩

end Beyond

end SsaJit.Func

namespace SsaJit.Build

open Func

variable {α : Type} {s s' : Session} {f g : Func} {c t : BlockId} {id : ScopeId}

/-- The blocks that a construct goes on with later. -/
def Construct.targets : Construct → List BlockId
  | .branch _ after _ => [after]
  | .loop header exit => header :: exit.toList
  | .doUntil body => [body]

/-- Where code was started: the session, its function and block then, and how many constructs there
were. -/
structure Origin where
  session : SessionId
  func : Func
  block : BlockId
  scopes : Nat

/-- A block that is new since then. -/
def Origin.New (o : Origin) (f : Func) (t : Nat) : Prop := o.func.numBlocks ≤ t ∧ t < f.numBlocks

theorem Origin.New.mono {o : Origin} (h : o.New f t) (hle : f.numBlocks ≤ g.numBlocks) : o.New g t :=
  ⟨h.1, h.2.trans_le hle⟩

/-- Code from `o` on is in block `c` of `f`: it went on from its block to new ones, and the constructs
that it began lead to new blocks. -/
structure Inside (o : Origin) (s : Session) (f : Func) (c : BlockId) : Prop where
  id : s.id = o.session
  opened : s.closed = false
  func : s.func = some f
  cursor : s.cursor = some c
  beyond : o.func.Beyond o.block f
  onward : o.func.Onward o.block c
  lt : c < f.numBlocks
  size : o.scopes ≤ s.scopes.size
  targets : ∀ id, o.scopes ≤ id → ∀ sc, s.scopes[id]? = some sc → ∀ t ∈ sc.construct.targets, o.New f t

namespace BuildM

theorem not_gives_fail {e : Fault} {a : α} : ¬ (throw e : BuildM α).Gives s a s' :=
  fun h => nomatch congrArg Prod.fst h

theorem gives_of_lift {r : Outcome α} {a : α} (h : (lift r).Gives s a s') : r = .ok a ∧ s = s' := by
  obtain ⟨hr, rfl⟩ := Prod.mk.inj h
  exact ⟨hr, rfl⟩

/-- A guard that lets pass. -/
theorem Gives.guarded {P : Prop} [Decidable P] {stop act : BuildM α} {a : α}
    (h : (if P then stop else act).Gives s a s') (hstop : ¬ stop.Gives s a s') :
    ¬ P ∧ act.Gives s a s' := by
  by_cases hP : P
  · rw [if_pos hP] at h
    exact absurd h hstop
  · rw [if_neg hP] at h
    exact ⟨hP, h⟩

theorem gives_of_scope {sc : Scope} (h : (scope id).Gives s sc s') :
    s.scopes[id]? = some sc ∧ s = s' := by
  have h := gives_get.step h
  split at h
  · next sc' hsc =>
    obtain ⟨rfl, rfl⟩ := (gives_pure _).unique h
    exact ⟨hsc, rfl⟩
  · exact absurd h not_gives_fail

theorem gives_of_enter {i : SessionId} {u : Unit} (h : (enter i).Gives s u s') :
    i = s.id ∧ s = s' := by
  obtain ⟨hi, h⟩ := (gives_get.step h).guarded not_gives_fail
  exact ⟨not_not.mp hi, ((gives_pure _).unique h).2⟩

theorem gives_of_checkInnermost {sc : Scope} {u : Unit} (hs : s.closed = false)
    (h : (checkInnermost id sc).Gives s u s') :
    sc.session = s.id ∧ s.nest.head? = some id ∧ s = s' := by
  obtain ⟨_, s₁, henter, hrun⟩ := h.of_bind
  obtain ⟨hsession, rfl⟩ := gives_of_enter henter
  have hrun := (gives_live hs).step hrun
  have hrun := gives_get.step hrun
  split at hrun
  · exact absurd hrun not_gives_fail
  · next top rest hnest =>
    by_cases htop : top = id
    · rw [if_neg (not_not.mpr htop)] at hrun
      obtain ⟨-, rfl⟩ := (gives_pure _).unique hrun
      exact ⟨hsession, by rw [hnest, htop, List.head?_cons], rfl⟩
    · rw [if_pos htop] at hrun
      obtain ⟨inner, s₂, -, hrun⟩ := hrun.of_bind
      exact absurd hrun not_gives_fail

end BuildM

/-- Building can go on: the insertion block exists, as the entry does, and leads nowhere as long as it
has no end. -/
structure Session.Placed (s : Session) : Prop where
  entry : ∀ f, s.func = some f → ∀ e, f.entry? = some e → e < f.numBlocks
  cursor : ∀ f c, s.func = some f → s.cursor = some c → c < f.numBlocks ∧ f.Bare c

theorem Session.Placed.inside (hs : s.Placed) (hopen : s.closed = false) (hf : s.func = some f)
    (hc : s.cursor = some c) : Inside ⟨s.id, f, c, s.scopes.size⟩ s f c where
  id := rfl
  opened := hopen
  func := hf
  cursor := hc
  beyond := .refl (hs.cursor f c hf hc).2 (hs.entry f hf)
  onward := .inl rfl
  lt := (hs.cursor f c hf hc).1
  size := Nat.le_refl _
  targets id hid sc hsc := by
    rw [Array.getElem?_eq_none hid] at hsc
    exact nomatch hsc

theorem Session.on_self (hf : s.func = some f) (hc : s.cursor = some c) : s.on f c = s := by
  cases s
  obtain rfl : _ = some f := hf
  obtain rfl : _ = some c := hc
  rfl

theorem Session.Placed.nested (hs : s.Placed) (n : List ScopeId) (cs : Array Scope) :
    (s.nested n cs).Placed := ⟨hs.entry, hs.cursor⟩

theorem createFunction_placed (s : Session) (name : String) (ret : Ty) (params : List Ty) :
    (s.createFunction name ret params).Placed := by
  have hbegun := begun_empty name ret params
  have hlt : 0 < (Func.empty name ret params).numBlocks := by
    rw [hbegun.numBlocks]
    exact Nat.one_pos
  rw [createFunction_eq]
  refine ⟨fun f hf e he => ?_, fun f c hf hc => ?_⟩
  · obtain rfl := Option.some.inj hf
    rw [ Func.entry?, hbegun.layout] at he
    obtain rfl := Option.some.inj he
    exact hlt
  · obtain rfl := Option.some.inj hf
    obtain rfl := Option.some.inj hc
    exact ⟨hlt, hbegun.draft.bare⟩

namespace Inside

open BuildM

variable {o : Origin}

theorem on (h : Inside o s f c) : s.on f c = s := Session.on_self h.func h.cursor

theorem bare (h : Inside o s f c) : f.Bare c := h.beyond.bare c h.onward

theorem placed (h : Inside o s f c) : s.Placed where
  entry g hg e he := by
    obtain rfl := Option.some.inj (h.func.symm.trans hg)
    exact (h.beyond.entry e he).2
  cursor g b hg hb := by
    obtain rfl := Option.some.inj (h.func.symm.trans hg)
    obtain rfl := Option.some.inj (h.cursor.symm.trans hb)
    exact ⟨h.lt, h.bare⟩

/-- Code that is started from here. -/
theorem restart (h : Inside o s f c) : Inside ⟨s.id, f, c, s.scopes.size⟩ s f c :=
  h.placed.inside h.opened h.func h.cursor

/-- The function was edited. -/
theorem edit (h : Inside o s f c) (hg : o.func.Beyond o.block g) (hnum : f.numBlocks ≤ g.numBlocks) :
    Inside o (s.on g c) g c where
  id := h.id
  opened := h.opened
  func := rfl
  cursor := rfl
  beyond := hg
  onward := h.onward
  lt := h.lt.trans_le hnum
  size := h.size
  targets id hid sc hsc t ht := (h.targets id hid sc hsc t ht).mono hnum

/-- Building goes on in a new block. -/
theorem move (h : Inside o s f c) (ht : o.New f t) : Inside o (s.on f t) f t :=
  { h with func := rfl, cursor := rfl, onward := .inr ht.1, lt := ht.2 }

theorem gives_newBlock (h : Inside o s f c) : newBlock.Gives s f.numBlocks (s.on f.newBlock.1 c) := by
  have hrun := BuildM.gives_newBlock (f := f) (b := c) h.opened
  rwa [h.on] at hrun

theorem newBlock (h : Inside o s f c) : Inside o (s.on f.newBlock.1 c) f.newBlock.1 c :=
  h.edit h.beyond.newBlock (by simp)

theorem gives_insertBlock (h : Inside o s f c) : insertBlock.Gives s c s := by
  have hrun := BuildM.gives_insertBlock (s := s) (f := f) (b := c)
  rwa [h.on] at hrun

theorem gives_setInsertBlock (h : Inside o s f c) : (setInsertBlock t).Gives s () (s.on f t) := by
  have hrun := BuildM.gives_setInsertBlock (s := s) (f := f) (b := c) (c := t)
  rwa [h.on] at hrun

theorem gives_function (h : Inside o s f c) : function.Gives s f s := by
  have hrun := BuildM.gives_function (f := f) (b := c) h.opened
  rwa [h.on] at hrun

theorem gives_setFunction (h : Inside o s f c) : (setFunction g).Gives s () (s.on g c) := by
  have hrun := BuildM.gives_setFunction (s := s) (f := f) (b := c) (g := g)
  rwa [h.on] at hrun

theorem gives_fallTo (h : Inside o s f c) : (fallTo t).Gives s () (s.on (f.fallen c t) c) := by
  have hrun := BuildM.gives_fallTo (s := s) (c := t) h.bare
  rwa [h.on] at hrun

theorem fallTo (h : Inside o s f c) (ht : o.New f t) :
    Inside o (s.on (f.fallen c t) c) (f.fallen c t) c :=
  h.edit (h.beyond.fallen h.onward h.lt ht) (by simp)

/-- The block was given an end that leads to new blocks. -/
theorem ends {u : Unit} {e : Func → BlockId → Outcome Func} {kind : BlockKind} {x : Operand}
    {ts : List BlockId} (h : Inside o s f c) (hrun : (endWith e).Gives s u s')
    (he : (f.block c).kind = .pending → e f c = .ok (f.ended c kind x ts)) (hkind : kind ≠ .pending)
    (hts : ∀ t ∈ ts, o.New f t) : (f.block c).kind = .pending ∧
      s' = s.on (f.ended c kind x ts) c ∧ Inside o s' (f.ended c kind x ts) c := by
  obtain ⟨b, s₁, hopen, hset⟩ := hrun.of_bind
  have hopen := h.gives_function.step hopen
  have hopen := h.gives_insertBlock.step hopen
  obtain ⟨hpending, rfl, rfl⟩ : (f.block c).kind = .pending ∧ c = b ∧ s = s₁ := by
    by_cases hends : (f.block c).isTerminated = true
    · rw [if_pos hends] at hopen
      obtain ⟨_, _, hstop, -⟩ := hopen.of_bind
      exact absurd hstop not_gives_fail
    · rw [if_neg hends] at hopen
      exact ⟨by simpa [Block.isTerminated] using hends, (gives_pure _).unique hopen⟩
  have hset := h.gives_function.step hset
  rw [he hpending] at hset
  obtain ⟨-, rfl⟩ := h.gives_setFunction.unique (gives_lift.step hset)
  exact ⟨hpending, rfl, h.edit (h.beyond.ended h.onward h.lt hpending hkind hts) (by simp)⟩

theorem branchOn {u : Unit} {x : Operand} {yes no : BlockId} (h : Inside o s f c)
    (hrun : (branchOn x yes no).Gives s u s') (hyes : o.New f yes) (hno : o.New f no) :
    (f.block c).kind = .pending ∧ s' = s.on (f.ended c .branch x [yes, no]) c ∧
      Inside o s' (f.ended c .branch x [yes, no]) c :=
  h.ends hrun (setBranch_pending h.bare) (by simp) (by simp [hyes, hno])

/-- Taking over an older function leaves the blocks alone. -/
theorem resolve {r : Ref} {x : Operand} (h : Inside o s f c) (hrun : (resolve r).Gives s x s') :
    ∃ g, g.blocks = f.blocks ∧ g.layout = f.layout ∧ s' = s.on g c ∧ Inside o s' g c := by
  have hrun := gives_get.step hrun
  split at hrun
  · obtain ⟨-, rfl⟩ := (gives_pure _).unique hrun
    exact ⟨f, rfl, rfl, h.on.symm, h⟩
  · rw [h.func] at hrun
    have hadopt : ∀ key k, (f.adopt key k).1.blocks = f.blocks ∧ (f.adopt key k).1.layout = f.layout := by
      intro key k
      unfold Func.adopt
      split <;> exact ⟨rfl, rfl⟩
    obtain ⟨hblocks, hlayout⟩ := hadopt r.session (s.past.getD r.session default)
    have hset := h.gives_setFunction.step hrun
    obtain ⟨-, rfl⟩ := (gives_pure _).unique hset
    exact ⟨_, hblocks, hlayout, rfl, h.edit (h.beyond.congr hblocks hlayout)
      (Nat.le_of_eq (congrArg Array.size hblocks).symm)⟩

/-- A condition, which may be taken over from an older session. -/
theorem condition {cond : Handle} {x : Operand} (h : Inside o s f c)
    (hrun : (condition cond).Gives s x s') :
    ∃ g, g.blocks = f.blocks ∧ g.layout = f.layout ∧ s' = s.on g c ∧ Inside o s' g c := by
  unfold BuildM.condition at hrun
  split at hrun
  · exact h.resolve hrun
  · exact absurd hrun not_gives_fail

/-! ### Constructs -/

theorem push {k : Construct} (h : Inside o s f c) (hk : ∀ t ∈ k.targets, o.New f t) :
    Inside o (pushed s k) f c where
  id := h.id
  opened := h.opened
  func := h.func
  cursor := h.cursor
  beyond := h.beyond
  onward := h.onward
  lt := h.lt
  size := by simpa [pushed] using Nat.le_succ_of_le h.size
  targets id hid sc hsc t ht := by
    change (s.scopes.push ⟨s.id, k⟩)[id]? = some sc at hsc
    rw [Array.getElem?_push] at hsc
    split at hsc
    · obtain rfl := Option.some.inj hsc
      exact hk t ht
    · exact h.targets id hid sc hsc t ht

theorem pop (h : Inside o s f c) : Inside o (popped s) f c :=
  { h with }

theorem change {k : Construct} (h : Inside o s f c) (id : ScopeId) (hk : ∀ t ∈ k.targets, o.New f t) :
    Inside o (changed s id k) f c where
  id := h.id
  opened := h.opened
  func := h.func
  cursor := h.cursor
  beyond := h.beyond
  onward := h.onward
  lt := h.lt
  size := by simpa [changed] using h.size
  targets i hi sc hsc t ht := by
    change (s.scopes.modify id _)[i]? = some sc at hsc
    rw [Array.getElem?_modify] at hsc
    split at hsc
    · obtain ⟨sc', -, rfl⟩ := Option.map_eq_some_iff.mp hsc
      exact hk t ht
    · exact h.targets i hi sc hsc t ht

theorem beginIf {cond : Handle} (h : Inside o s f c) (hrun : (beginIf cond).Gives s id s') :
    id = s.scopes.size ∧ (f.block c).kind = .pending ∧ ∃ (g : Func) (x : Operand),
      g.blocks = f.newBlock.1.newBlock.1.blocks ∧ g.layout = f.newBlock.1.newBlock.1.layout ∧
      s' = (pushed s (.branch c (f.numBlocks + 1) false)).on
        (g.ended c .branch x [f.numBlocks, f.numBlocks + 1]) f.numBlocks ∧
      Inside o s' (g.ended c .branch x [f.numBlocks, f.numBlocks + 1]) f.numBlocks := by
  obtain ⟨_, s₁, hsession, hrest⟩ := hrun.of_bind
  obtain ⟨-, rfl⟩ := gives_of_lift hsession
  have hnew := h.newBlock.gives_newBlock
  rw [numBlocks_newBlock] at hnew
  have hrest := hnew.step (h.gives_newBlock.step hrest)
  have hrest := h.newBlock.newBlock.gives_insertBlock.step hrest
  obtain ⟨x, s₂, hcond, hrest⟩ := hrest.of_bind
  obtain ⟨g, hblocks, hlayout, rfl, hg⟩ := h.newBlock.newBlock.condition hcond
  have hnum : g.numBlocks = f.numBlocks + 2 := by
    have hsize : g.numBlocks = f.newBlock.1.newBlock.1.numBlocks := congrArg Array.size hblocks
    simpa using hsize
  obtain ⟨_, s₃, hbranch, hrest⟩ := hrest.of_bind
  have hle := h.beyond.numBlocks
  obtain ⟨hpending, rfl, hg⟩ := hg.branchOn hbranch ⟨hle, by omega⟩ ⟨Nat.le_succ_of_le hle, by omega⟩
  have hrest := hg.gives_setInsertBlock.step hrest
  obtain ⟨rfl, rfl⟩ := gives_push.unique hrest
  refine ⟨rfl, ?_, g, x, hblocks, hlayout, rfl, ?_⟩
  · rwa [block, hblocks, ← block, block_newBlock, block_newBlock] at hpending
  · exact (hg.move ⟨hle, by simp; omega⟩).push (by simp [Construct.targets, Origin.New]; omega)

/-- A new block is new since the code was started, too. -/
theorem new (h : Inside o s f c) : o.New f.newBlock.1 f.numBlocks :=
  ⟨h.beyond.numBlocks, by simp⟩

theorem elseArm {u : Unit} (h : Inside o s f c) (hid : o.scopes ≤ id)
    (hrun : (elseArm id).Gives s u s') : ∃ g b, Inside o s' g b := by
  obtain ⟨sc, s₁, hscope, hrest⟩ := hrun.of_bind
  obtain ⟨hsc, rfl⟩ := gives_of_scope hscope
  have htargets := h.targets id hid sc hsc
  cases hk : sc.construct with
  | branch head after inElse =>
    rw [hk] at hrest htargets
    obtain ⟨_, s₂, hinner, hrest⟩ := hrest.of_bind
    obtain ⟨-, -, rfl⟩ := gives_of_checkInnermost h.opened hinner
    cases inElse with
    | true =>
      obtain ⟨_, _, hstop, -⟩ := hrest.of_bind
      exact absurd hstop not_gives_fail
    | false =>
      have hrest := h.gives_newBlock.step hrest
      have hg := h.newBlock.fallTo h.new
      have hrest := h.newBlock.gives_fallTo.step hrest
      have hrest := hg.gives_setInsertBlock.step hrest
      obtain ⟨-, rfl⟩ := gives_modify.unique hrest
      have hafter : o.New (f.newBlock.1.fallen c f.numBlocks) after :=
        (htargets after (by simp [Construct.targets])).mono (by simp)
      have hmerge : o.New (f.newBlock.1.fallen c f.numBlocks) f.numBlocks := h.new.mono (by simp)
      exact ⟨_, _, (hg.move hafter).change id (by simpa [Construct.targets] using hmerge)⟩
  | loop | doUntil =>
    rw [hk] at hrest
    exact absurd hrest not_gives_fail

theorem elseClause {e : ElseClause} (h : Inside o s f c) (hid : o.scopes ≤ id)
    (hrun : (elseClause id).Gives s e s') : o.New f e.after ∧ s = s' := by
  obtain ⟨sc, s₁, hscope, hrest⟩ := hrun.of_bind
  obtain ⟨hsc, rfl⟩ := gives_of_scope hscope
  have htargets := h.targets id hid sc hsc
  cases hk : sc.construct with
  | branch head after inElse =>
    rw [hk] at hrest htargets
    obtain ⟨rfl, rfl⟩ := (gives_pure _).unique hrest
    exact ⟨htargets after (by simp [Construct.targets]), rfl⟩
  | loop | doUntil =>
    rw [hk] at hrest
    exact absurd hrest not_gives_fail

/-- The insertion block jumps to a new block, where a loop begins. -/
theorem enterLoop {k : Construct} (h : Inside o s f c) (hk : k.targets = [f.numBlocks])
    (hrun : (do
      BuildM.jumpTo f.numBlocks
      setInsertBlock f.numBlocks
      BuildM.push k).Gives (s.on f.newBlock.1 c) id s') :
    id = s.scopes.size ∧ ∃ g b, Inside o s' g b := by
  obtain ⟨_, s₁, hjump, hrest⟩ := hrun.of_bind
  obtain ⟨-, rfl, hg⟩ := h.newBlock.ends hjump (setJump_pending h.newBlock.bare) (by simp)
    (by simpa using h.new)
  have hrest := hg.gives_setInsertBlock.step hrest
  obtain ⟨rfl, rfl⟩ := gives_push.unique hrest
  have hnew : o.New (f.newBlock.1.ended c .jump .missing [f.numBlocks]) f.numBlocks :=
    h.new.mono (by simp)
  exact ⟨rfl, _, _, (hg.move hnew).push (by simpa [hk] using hnew)⟩

theorem beginLoop (h : Inside o s f c) (hrun : beginLoop.Gives s id s') :
    id = s.scopes.size ∧ ∃ g b, Inside o s' g b :=
  h.enterLoop rfl (h.gives_newBlock.step hrun)

theorem beginDo (h : Inside o s f c) (hrun : beginDo.Gives s id s') :
    id = s.scopes.size ∧ ∃ g b, Inside o s' g b :=
  h.enterLoop rfl (h.gives_newBlock.step hrun)

/-- A branch on a condition to two blocks, and building goes on in one of them. -/
theorem fork {cond : Handle} {yes no next : BlockId} {u : Unit} (h : Inside o s f c)
    (hyes : o.New f yes) (hno : o.New f no) (hnext : o.New f next)
    (hrun : (do
      BuildM.branchOn (← BuildM.condition cond) yes no
      setInsertBlock next).Gives s u s') : ∃ g b, Inside o s' g b := by
  obtain ⟨x, s₁, hcond, hrest⟩ := hrun.of_bind
  obtain ⟨g, hblocks, -, rfl, hg⟩ := h.condition hcond
  have hnum : g.numBlocks = f.numBlocks := congrArg Array.size hblocks
  obtain ⟨_, s₂, hbranch, hrest⟩ := hrest.of_bind
  obtain ⟨-, rfl, hg⟩ := hg.branchOn hbranch (hyes.mono hnum.ge) (hno.mono hnum.ge)
  obtain ⟨-, rfl⟩ := hg.gives_setInsertBlock.unique hrest
  exact ⟨_, _, hg.move (hnext.mono (by simp [hnum]))⟩

theorem loopCondition {cond : Handle} {u : Unit} (h : Inside o s f c) (hid : o.scopes ≤ id)
    (hrun : (loopCondition id cond).Gives s u s') : ∃ g b, Inside o s' g b := by
  obtain ⟨sc, s₁, hscope, hrest⟩ := hrun.of_bind
  obtain ⟨hsc, rfl⟩ := gives_of_scope hscope
  have htargets := h.targets id hid sc hsc
  cases hk : sc.construct with
  | loop header exit =>
    rw [hk] at hrest htargets
    obtain ⟨_, s₂, hinner, hrest⟩ := hrest.of_bind
    obtain ⟨-, -, rfl⟩ := gives_of_checkInnermost h.opened hinner
    cases exit with
    | some after =>
      obtain ⟨_, _, hstop, -⟩ := hrest.of_bind
      exact absurd hstop not_gives_fail
    | none =>
      obtain ⟨_, s₃, hsession, hrest⟩ := hrest.of_bind
      obtain ⟨-, rfl⟩ := gives_of_lift hsession
      have hrest := h.gives_newBlock.step hrest
      have hrest := h.newBlock.gives_newBlock.step hrest
      have hrest := gives_modify.step hrest
      have hbody : o.New f.newBlock.1.newBlock.1 f.numBlocks := h.new.mono (by simp)
      have hafter := h.newBlock.new
      have hheader : o.New f.newBlock.1.newBlock.1 header :=
        (htargets header (by simp [Construct.targets])).mono
          (numBlocks_newBlock_le.trans numBlocks_newBlock_le)
      have hset := h.newBlock.newBlock.change (k := .loop header (some f.newBlock.1.numBlocks)) id
        (List.forall_mem_cons.mpr ⟨hheader, List.forall_mem_singleton.mpr hafter⟩)
      exact hset.fork hbody hafter hbody hrest
  | branch | doUntil =>
    rw [hk] at hrest
    exact absurd hrest not_gives_fail

theorem doUntil {cond : Handle} {u : Unit} (h : Inside o s f c) (hid : o.scopes ≤ id)
    (hrun : (doUntil id cond).Gives s u s') : ∃ g b, Inside o s' g b := by
  obtain ⟨sc, s₁, hscope, hrest⟩ := hrun.of_bind
  obtain ⟨hsc, rfl⟩ := gives_of_scope hscope
  have htargets := h.targets id hid sc hsc
  cases hk : sc.construct with
  | doUntil body =>
    rw [hk] at hrest htargets
    obtain ⟨_, s₂, hinner, hrest⟩ := hrest.of_bind
    obtain ⟨-, -, rfl⟩ := gives_of_checkInnermost h.opened hinner
    have hrest := gives_pop.step hrest
    obtain ⟨_, s₃, hsession, hrest⟩ := hrest.of_bind
    obtain ⟨-, rfl⟩ := gives_of_lift hsession
    have hrest := h.pop.gives_newBlock.step hrest
    exact h.pop.newBlock.fork h.new ((htargets body (by simp [Construct.targets])).mono (by simp))
      h.new hrest
  | branch | loop =>
    rw [hk] at hrest
    exact absurd hrest not_gives_fail

/-- A construct is left: the insertion block falls to one of its blocks and building goes on in one. -/
theorem leave {sc : Scope} {u : Unit} {next : BlockId} (h : Inside o s f c) (ht : o.New f t)
    (hnext : o.New f next) (hrun : (do
      BuildM.checkInnermost id sc
      BuildM.pop
      BuildM.fallTo t
      BuildM.setInsertBlock next).Gives s u s') : ∃ g b, Inside o s' g b := by
  obtain ⟨_, s₁, hinner, hrest⟩ := hrun.of_bind
  obtain ⟨-, -, rfl⟩ := gives_of_checkInnermost h.opened hinner
  have hrest := gives_pop.step hrest
  have hrest := h.pop.gives_fallTo.step hrest
  have hg := h.pop.fallTo ht
  obtain ⟨-, rfl⟩ := hg.gives_setInsertBlock.unique hrest
  exact ⟨_, _, hg.move (hnext.mono (by simp))⟩

theorem endScope {u : Unit} (h : Inside o s f c) (hid : o.scopes ≤ id)
    (hrun : (endScope id).Gives s u s') : ∃ g b, Inside o s' g b := by
  obtain ⟨sc, s₁, hscope, hrest⟩ := hrun.of_bind
  obtain ⟨hsc, rfl⟩ := gives_of_scope hscope
  have htargets := h.targets id hid sc hsc
  cases hk : sc.construct with
  | branch head after inElse =>
    rw [hk] at hrest htargets
    have hafter := htargets after (by simp [Construct.targets])
    exact h.leave hafter hafter hrest
  | loop header exit =>
    rw [hk] at hrest htargets
    cases exit with
    | none => exact absurd hrest not_gives_fail
    | some after =>
      exact h.leave (htargets header (by simp [Construct.targets]))
        (htargets after (by simp [Construct.targets])) hrest
  | doUntil =>
    rw [hk] at hrest
    exact absurd hrest not_gives_fail

/-- Exits of blocks that were worked on, turned to another new block. -/
theorem turnExits {old repl : BlockId} {l : List BlockId} {u : PUnit} (h : Inside o s f c)
    (hl : ∀ p ∈ l, o.func.Onward o.block p) (hold : o.func.numBlocks ≤ old)
    (hrepl : o.func.numBlocks ≤ repl)
    (hrun : (forIn l PUnit.unit fun p _ => do
      setFunction (← lift ((← function).replaceSucc p old repl))
      return .yield PUnit.unit : BuildM PUnit).Gives s u s') :
    ∃ g, g.numBlocks = f.numBlocks ∧ Inside o s' g c := by
  induction l generalizing s f with
  | nil =>
    obtain ⟨-, rfl⟩ := (gives_pure _).unique hrun
    exact ⟨f, rfl, h⟩
  | cons p l ih =>
    rw [List.forIn_cons] at hrun
    obtain ⟨r, s₁, hfirst, hrest⟩ := hrun.of_bind
    have hfirst := h.gives_function.step hfirst
    obtain ⟨g, s₂, hlift, hfirst⟩ := hfirst.of_bind
    obtain ⟨hturn, rfl⟩ := gives_of_lift hlift
    have hfirst := h.gives_setFunction.step hfirst
    obtain ⟨rfl, rfl⟩ := (gives_pure _).unique hfirst
    obtain ⟨hg, hnum⟩ := h.beyond.replaceSucc (hl p List.mem_cons_self) hold hrepl hturn
    obtain ⟨k, hnum', hk⟩ := ih (h.edit hg hnum.ge) (fun q hq => hl q (List.mem_cons_of_mem _ hq)) hrest
    exact ⟨k, hnum'.trans hnum, hk⟩

theorem divertExits {e : ElseClause} (h : Inside o s f c) (he : o.func.numBlocks ≤ e.after)
    (hrun : (divertExits e).Gives s t s') : ∃ g, o.New g t ∧ Inside o s' g c := by
  have hrest := gives_get.step hrun
  have hrest := gives_get.step hrest
  rw [h.func] at hrest
  dsimp only at hrest
  split at hrest
  · obtain ⟨_, _, hstop, -⟩ := hrest.of_bind
    exact absurd hstop not_gives_fail
  · have hrest := h.gives_newBlock.step hrest
    obtain ⟨_, s₁, hturn, hrest⟩ := hrest.of_bind
    obtain ⟨rfl, rfl⟩ := (gives_pure _).unique hrest
    obtain ⟨g, hnum, hg⟩ := h.newBlock.turnExits (fun p hp =>
      h.beyond.preds e.after he p (List.mem_of_mem_filter hp)) he h.new.1 hturn
    exact ⟨g, h.new.mono hnum.ge, hg⟩

/-! ### Code -/

theorem emit {v : Value} {x : Operand} (h : Inside o s f c) (hrun : (emit v).Gives s x s') :
    ∃ g, Inside o s' g c := by
  have hrest := h.gives_function.step hrun
  have hrest := h.gives_insertBlock.step hrest
  by_cases hends : (f.block c).isTerminated = true
  · rw [if_pos hends] at hrest
    obtain ⟨_, _, hstop, -⟩ := hrest.of_bind
    exact absurd hstop not_gives_fail
  · rw [if_neg hends] at hrest
    have hrest := h.gives_setFunction.step hrest
    obtain ⟨-, rfl⟩ := (gives_pure _).unique hrest
    exact ⟨_, h.edit (h.beyond.appended h.onward) (Nat.le_of_eq numBlocks_appended.symm)⟩

theorem alloca {t : Ty} {n : Int} {x : Operand} (h : Inside o s f c)
    (hrun : (alloca t n).Gives s x s') : ∃ g, Inside o s' g c := by
  have hrest := h.gives_function.step hrun
  obtain ⟨entry, s₁, hlift, hrest⟩ := hrest.of_bind
  obtain ⟨hentry, rfl⟩ := gives_of_lift hlift
  obtain ⟨⟨g, v⟩, s₂, hlift, hrest⟩ := hrest.of_bind
  obtain ⟨hinsert, rfl⟩ := gives_of_lift hlift
  have hrest := h.gives_setFunction.step hrest
  obtain ⟨-, rfl⟩ := (gives_pure _).unique hrest
  have hentry : f.entry? = some entry := by
    unfold Func.entry at hentry
    split at hentry
    · next b l hl =>
      obtain rfl := Except.ok.inj hentry
      rw [ Func.entry?, hl, List.head?_cons]
    · cases hentry
  obtain ⟨hg, hnum⟩ := h.beyond.inserted hentry hinsert
  exact ⟨g, h.edit hg hnum.ge⟩

theorem globalAddr {name : String} {data : List UInt8} {align : Int} {x : Operand}
    (h : Inside o s f c) (hrun : (globalAddr name data align).Gives s x s') :
    ∃ g, Inside o s' g c := by
  have hrest := gives_get.step hrun
  rw [if_neg (by simp [h.opened])] at hrest
  have hset : Inside o { s with module := (s.module.addGlobal name data align).1 } f c := { h with }
  exact hset.emit (gives_modify.step hrest)

section arms

variable {σ : Type} {x : σ}

theorem ifThen {cond : Handle} {yes : StateT σ BuildM Unit} {r : ElseClause × σ} (h : Inside o s f c)
    (hyes : ∀ {s s' f c x r}, Inside o s f c → (yes.run x).Gives s r s' → ∃ g b, Inside o s' g b)
    (hrun : ((ifThen cond yes).run x).Gives s r s') :
    (∃ g b, Inside o s' g b) ∧ o.func.numBlocks ≤ r.1.after := by
  rw [ifThen_run] at hrun
  obtain ⟨id, s₁, hbegin, hrest⟩ := hrun.of_bind
  obtain ⟨rfl, -, g, y, -, -, -, hg⟩ := h.beginIf hbegin
  obtain ⟨e, s₂, hclause, hrest⟩ := hrest.of_bind
  obtain ⟨he, rfl⟩ := hg.elseClause h.size hclause
  obtain ⟨r', s₃, hyes', hrest⟩ := hrest.of_bind
  obtain ⟨k, b, hk⟩ := hyes hg hyes'
  obtain ⟨_, s₄, hend, hrest⟩ := hrest.of_bind
  obtain ⟨rfl, rfl⟩ := (gives_pure _).unique hrest
  exact ⟨hk.endScope h.size hend, he.1⟩

theorem orElse {e : ElseClause} {no : StateT σ BuildM Unit} {r : Unit × σ} (h : Inside o s f c)
    (hno : ∀ {o s s' f c x r}, Inside o s f c → (no.run x).Gives s r s' → ∃ g b, Inside o s' g b)
    (he : o.func.numBlocks ≤ e.after) (hrun : ((orElse e no).run x).Gives s r s') :
    ∃ g b, Inside o s' g b := by
  rw [orElse_run] at hrun
  obtain ⟨merge, s₁, hdivert, hrest⟩ := hrun.of_bind
  obtain ⟨g, hmerge, hg⟩ := h.divertExits he hdivert
  obtain ⟨r', s₂, hno', hrest⟩ := hrest.of_bind
  obtain ⟨k, b, hk⟩ := hno hg hno'
  obtain ⟨k', b', hk'⟩ := hno hg.restart hno'
  obtain rfl : k = k' := Option.some.inj (hk.func.symm.trans hk'.func)
  have hmerge := hmerge.mono hk'.beyond.numBlocks
  have hrest := hk.gives_fallTo.step hrest
  have hfall := hk.fallTo hmerge
  have hrest := hfall.gives_setInsertBlock.step hrest
  obtain ⟨-, rfl⟩ := (gives_pure _).unique hrest
  exact ⟨_, _, hfall.move (hmerge.mono (by simp))⟩

end arms

end Inside

namespace BuildM

variable {o : Origin}

theorem Plain.inside {act : BuildM α} {a : α} (hact : Plain act) (h : Inside o s f c)
    (hrun : act.Gives s a s') : ∃ g b, Inside o s' g b := by
  induction hact generalizing s s' f c with
  | pure a =>
    obtain ⟨-, rfl⟩ := (gives_pure _).unique hrun
    exact ⟨f, c, h⟩
  | bind _ _ hx hf =>
    obtain ⟨a, s₁, hfirst, hrest⟩ := hrun.of_bind
    obtain ⟨g, b, h₁⟩ := hx h hfirst
    exact hf a h₁ hrest
  | fail e => exact absurd hrun not_gives_fail
  | read _ _ hf => exact hf s h (gives_get.step hrun)
  | emit v => exact (h.emit hrun).imp fun _ h => ⟨_, h⟩
  | alloca t n => exact (h.alloca hrun).imp fun _ h => ⟨_, h⟩
  | globalAddr name data align => exact (h.globalAddr hrun).imp fun _ h => ⟨_, h⟩
  | resolve r =>
    obtain ⟨g, -, -, -, hg⟩ := h.resolve hrun
    exact ⟨g, c, hg⟩
  | ret x => exact ⟨_, _, (h.ends hrun (setRet_pending h.bare) (by simp) (by simp)).2.2⟩
  | unreachable =>
    exact ⟨_, _, (h.ends hrun (setUnreachable_pending h.bare) (by simp) (by simp)).2.2⟩
  | newBlock =>
    obtain ⟨-, rfl⟩ := h.gives_newBlock.unique hrun
    exact ⟨_, _, h.newBlock⟩
  | afresh =>
    have hmove := h.gives_newBlock.step hrun
    obtain ⟨-, rfl⟩ := h.newBlock.gives_setInsertBlock.unique hmove
    exact ⟨_, _, h.newBlock.move h.new⟩

/-- Code stays in the blocks that it began. -/
theorem Code.inside {st : List ScopeId} {act : BuildM α} {post : α → List ScopeId} {a : α}
    (hact : Code st act post) (h : Inside o s f c) (hst : ∀ id ∈ st, o.scopes ≤ id)
    (hrun : act.Gives s a s') : (∃ g b, Inside o s' g b) ∧ ∀ id ∈ post a, o.scopes ≤ id := by
  induction hact generalizing o s s' f c with
  | plain hx => exact ⟨hx.inside h hrun, hst⟩
  | pure a =>
    obtain ⟨rfl, rfl⟩ := (gives_pure _).unique hrun
    exact ⟨⟨f, c, h⟩, hst⟩
  | bind _ _ hx hf =>
    obtain ⟨a, s₁, hfirst, hrest⟩ := hrun.of_bind
    obtain ⟨⟨g, b, h₁⟩, hmid⟩ := hx h hst hfirst
    exact hf a h₁ hmid hrest
  | fail e => exact absurd hrun not_gives_fail
  | beginIf cond =>
    obtain ⟨rfl, -, g, x, -, -, -, hg⟩ := h.beginIf hrun
    exact ⟨⟨_, _, hg⟩, List.forall_mem_cons.mpr ⟨h.size, hst⟩⟩
  | elseArm id => exact ⟨h.elseArm (hst id List.mem_cons_self) hrun, hst⟩
  | elseClause id =>
    obtain ⟨-, rfl⟩ := h.elseClause (hst id List.mem_cons_self) hrun
    exact ⟨⟨f, c, h⟩, hst⟩
  | beginLoop =>
    obtain ⟨rfl, hg⟩ := h.beginLoop hrun
    exact ⟨hg, List.forall_mem_cons.mpr ⟨h.size, hst⟩⟩
  | loopCondition id cond => exact ⟨h.loopCondition (hst id List.mem_cons_self) hrun, hst⟩
  | beginDo =>
    obtain ⟨rfl, hg⟩ := h.beginDo hrun
    exact ⟨hg, List.forall_mem_cons.mpr ⟨h.size, hst⟩⟩
  | doUntil id cond =>
    exact ⟨h.doUntil (hst id List.mem_cons_self) hrun, fun i hi => hst i (List.mem_cons_of_mem _ hi)⟩
  | endScope id =>
    exact ⟨h.endScope (hst id List.mem_cons_self) hrun, fun i hi => hst i (List.mem_cons_of_mem _ hi)⟩
  | ifElse cond x _ _ _ hyes hbetween hno =>
    refine ⟨?_, by simp⟩
    obtain ⟨r, s₁, hif, hrest⟩ := hrun.of_bind
    obtain ⟨⟨g, b, h₁⟩, hafter⟩ := h.ifThen (fun h hrun => (hyes _ h (by simp) hrun).1) hif
    obtain ⟨r', s₂, hmid, hrest⟩ := hrest.of_bind
    obtain ⟨⟨g, b, h₂⟩, -⟩ := hbetween r.2 h₁ (by simp) hmid
    exact h₂.orElse (fun h hrun => (hno _ h (by simp) hrun).1) hafter hrest
  | under outer _ hx =>
    obtain ⟨hg, hpost⟩ := hx h (fun id hid => hst id (List.mem_append_left _ hid)) hrun
    refine ⟨hg, fun id hid => ?_⟩
    rcases List.mem_append.mp hid with hin | hout
    · exact hpost id hin
    · exact hst id (List.mem_append_right _ hout)

/-- Building can go on wherever code has come to since a function was begun. -/
theorem Code.placed {act : BuildM α} {post : α → List ScopeId} {a : α} {name : String} {ret : Ty}
    {params : List Ty} (hact : Code [] act post) (hopen : s.closed = false)
    (hrun : act.Gives (s.createFunction name ret params) a s') : s'.Placed := by
  have hbegun := createFunction_placed s name ret params
  rw [createFunction_eq] at hrun hbegun
  obtain ⟨⟨g, b, h⟩, -⟩ := hact.inside (hbegun.inside hopen rfl rfl) (by simp) hrun
  exact h.placed

/-! ## Two forms of a conditional -/

section forms

variable {m : Type → Type} [Monad m] [MonadLiftT BuildM m]

/-- A conditional with an else that gets its arms as actions. -/
def ifElse (cond : Handle) (yes no : m Unit) : m Unit := do
  let clause ← ifThen cond yes
  orElse clause no

/-- A conditional with an else that is begun before its arms, gone on with between them and ended
behind them. -/
def scopedIfElse (cond : Handle) (yes no : m Unit) : m Unit := do
  let id ← beginIf cond
  yes
  elseArm id
  no
  endScope id

end forms

section runs

variable {σ : Type} {x : σ} {cond : Handle} {yes no : StateT σ BuildM Unit}

theorem ifElse_run : (ifElse cond yes no).run x = do
    let id ← beginIf cond
    let clause ← elseClause id
    let r ← yes.run x
    endScope id
    let merge ← divertExits clause
    let r' ← no.run r.2
    fallTo merge
    setInsertBlock merge
    return ((), r'.2) := by
  simp [ifElse, ifThen_run, orElse_run]

theorem scopedIfElse_run : (scopedIfElse cond yes no).run x = do
    let id ← beginIf cond
    let r ← yes.run x
    elseArm id
    let r' ← no.run r.2
    endScope id
    return ((), r'.2) := by
  simp [scopedIfElse]

end runs

theorem gives_of_newBlock {b : BlockId} (h : newBlock.Gives s b s') :
    ∃ f, s.closed = false ∧ s.func = some f ∧ s' = { s with func := some f.newBlock.1 } := by
  obtain ⟨f, s₁, hfunc, hrest⟩ := h.of_bind
  obtain ⟨_, s₂, hlive, hfunc⟩ := hfunc.of_bind
  obtain ⟨hopen, hpure⟩ := (gives_get.step hlive).guarded not_gives_fail
  obtain ⟨-, rfl⟩ := (gives_pure _).unique hpure
  have hfunc := gives_get.step hfunc
  split at hfunc
  · next f' hf =>
    obtain ⟨rfl, rfl⟩ := (gives_pure _).unique hfunc
    have hrest := gives_modify.step hrest
    obtain ⟨-, rfl⟩ := (gives_pure _).unique hrest
    exact ⟨f', by simpa using hopen, hf, rfl⟩
  · exact absurd hfunc not_gives_fail

/-- A conditional is only begun where building can go on. -/
theorem gives_of_beginIf {cond : Handle} (h : (beginIf cond).Gives s id s') :
    s.closed = false ∧ ∃ f c, s.func = some f ∧ s.cursor = some c := by
  obtain ⟨_, s₁, hsession, hrest⟩ := h.of_bind
  obtain ⟨-, rfl⟩ := gives_of_lift hsession
  obtain ⟨_, s₂, hyes, hrest⟩ := hrest.of_bind
  obtain ⟨f, hopen, hf, rfl⟩ := gives_of_newBlock hyes
  obtain ⟨_, s₃, hafter, hrest⟩ := hrest.of_bind
  obtain ⟨_, -, -, rfl⟩ := gives_of_newBlock hafter
  obtain ⟨c, s₄, hcursor, -⟩ := hrest.of_bind
  have hcursor := gives_get.step hcursor
  split at hcursor
  · next b hb => exact ⟨hopen, f, b, hf, hb⟩
  · exact absurd hcursor not_gives_fail

end BuildM

/-- The arm of a conditional begins: `after`, to be built from later, is empty and only reached from
the block of the condition. -/
structure Parted (s : Session) (f : Func) (c head after : BlockId) : Prop where
  inside : Inside ⟨s.id, f, c, s.scopes.size⟩ s f c
  lt : after < f.numBlocks
  ne : after ≠ c
  head_lt : head < f.numBlocks
  head_ne : head ≠ c
  entry : f.entry? ≠ some after
  block : f.block after = { preds := [head] }

theorem Inside.parted {o : Origin} {cond : Handle} (h : Inside o s f c)
    (hrun : (BuildM.beginIf cond).Gives s id s') : id = s.scopes.size ∧ ∃ g,
      s' = (BuildM.pushed s (.branch c (f.numBlocks + 1) false)).on g f.numBlocks ∧
      Parted s' g f.numBlocks c (f.numBlocks + 1) := by
  obtain ⟨rfl, hpending, g, x, hblocks, hlayout, hs', hg⟩ := h.beginIf hrun
  have hnum : g.numBlocks = f.numBlocks + 2 := by
    have hsize : g.numBlocks = f.newBlock.1.newBlock.1.numBlocks := congrArg Array.size hblocks
    simpa using hsize
  have hold : ∀ d, g.block d = f.block d := fun d => by
    rw [block, hblocks, ← block, block_newBlock, block_newBlock]
  refine ⟨rfl, _, hs', hg.restart, by simp [hnum], by simp, ?_, ?_, ?_, ?_⟩
  · simpa [hnum] using Nat.lt_add_right 2 h.lt
  · exact h.lt.ne
  · have hentry : g.entry? = Func.entry? f.newBlock.1 := by
      rw [ Func.entry?, hlayout]
      cases hl : f.layout <;> simp [ Func.entry?, Func.newBlock, hl]
    intro he
    rw [ Func.entry?, layout_ended, ← Func.entry?, hentry] at he
    have hlt := (h.newBlock.beyond.entry (f.numBlocks + 1) he).2
    simp at hlt
  · have hc : c < g.numBlocks := by simpa [hnum] using Nat.lt_add_right 2 h.lt
    rw [block_ended hc (by simp [hnum]) (by rw [hold]; exact (h.bare hpending).1), hold,
      block_of_le (Nat.le_succ _)]
    have hne : f.numBlocks + 1 ≠ c := (Nat.lt_succ_of_lt h.lt).ne'
    simp [hne, default, instInhabitedBlock.default]

/-- Between the arms: the session in which the second one begins. -/
def between (s : Session) (f : Func) (c after : BlockId) : Session :=
  s.on (f.newBlock.1.fallen c f.numBlocks) after

/-- A construct's entry when the else arm begins. -/
def Scope.inElse (head merge : BlockId) (sc : Scope) : Scope :=
  { sc with construct := .branch head merge true }

section between

variable {head after : BlockId} {c₁ : BlockId} {s₁ : Session} {f₁ : Func} {n : List ScopeId}

/-- What the arm was built from it left alone. -/
theorem Parted.after_eq (hp : Parted s₁ f₁ c₁ head after)
    (h : Inside ⟨s₁.id, f₁, c₁, s₁.scopes.size⟩ s f c) : f.block after = { preds := [head] } :=
  (h.beyond.kept after hp.lt hp.ne hp.entry).trans hp.block

theorem Parted.cursor_ne (hp : Parted s₁ f₁ c₁ head after)
    (h : Inside ⟨s₁.id, f₁, c₁, s₁.scopes.size⟩ s f c) : c ≠ after ∧ c ≠ head := by
  have haway : ∀ b < f₁.numBlocks, b ≠ c₁ → c ≠ b := by
    rintro b hlt hne rfl
    exact h.onward.elim hne fun hle => Nat.lt_irrefl _ (hlt.trans_le hle)
  exact ⟨haway after hp.lt hp.ne, haway head hp.head_lt hp.head_ne⟩

/-- An if that is ended and given an else. -/
theorem Parted.gives_diverted (hp : Parted s₁ f₁ c₁ head after)
    (h : Inside ⟨s₁.id, f₁, c₁, s₁.scopes.size⟩ s f c) (hnest : s.nest = id :: n)
    (hsc : s.scopes[id]? = some ⟨s.id, .branch head after false⟩) :
    (BuildM.endScope id).Gives s () ((BuildM.popped s).on (f.fallen c after) after) ∧
      (BuildM.divertExits ⟨head, after⟩).Gives ((BuildM.popped s).on (f.fallen c after) after) f.numBlocks
        ((between s f c after).nested n s.scopes) := by
  have hinner : BuildM.Innermost s id (.branch head after false) :=
    ⟨h.opened, hsc, by rw [hnest, List.head?_cons]⟩
  have hend := BuildM.gives_endIf (b := c) hinner h.bare
  rw [h.on] at hend
  have hafter := hp.after_eq h
  obtain ⟨hne, hhead⟩ := hp.cursor_ne h
  have hdivert := BuildM.gives_divertExits (s := BuildM.popped s) (b := c) (f := f) h.opened h.lt h.bare
    (hp.lt.trans_le h.beyond.numBlocks) (by rw [hafter]) hne hhead (by rw [hafter]) (by rw [hafter])
  refine ⟨hend, ?_⟩
  have hsame : (between s f c after).nested n s.scopes =
      (BuildM.popped s).on (f.newBlock.1.fallen c f.numBlocks) after := by
    simp [between, Session.nested, Session.on, BuildM.popped, hnest]
  rw [hsame]
  exact hdivert

/-- An if that goes on with its else. -/
theorem Inside.gives_elseArm {o : Origin} (h : Inside o s f c) (hnest : s.nest = id :: n)
    (hsc : s.scopes[id]? = some ⟨s.id, .branch head after false⟩) :
    (BuildM.elseArm id).Gives s () ((between s f c after).nested (id :: n)
      (s.scopes.modify id (Scope.inElse head f.numBlocks))) := by
  have hinner : BuildM.Innermost s id (.branch head after false) :=
    ⟨h.opened, hsc, by rw [hnest, List.head?_cons]⟩
  have hrun := BuildM.gives_elseArm (b := c) hinner h.bare
  rw [h.on] at hrun
  have hsame : (between s f c after).nested (id :: n) (s.scopes.modify id (Scope.inElse head f.numBlocks)) =
      (BuildM.changed s id (.branch head f.numBlocks true)).on (f.newBlock.1.fallen c f.numBlocks) after := by
    simp [between, Session.nested, Session.on, BuildM.changed, hnest]
    rfl
  rw [hsame]
  exact hrun

/-- The end of an else behind code that left block `c`. -/
theorem Inside.gives_endElse {o : Origin} {cs cs' : Array Scope} {merge : BlockId}
    (h : Inside o (s.nested n cs) f c) (hsc : cs'[id]? = some ⟨s.id, .branch head merge true⟩) :
    (BuildM.endScope id).Gives (s.nested (id :: n) cs') ()
      ((s.on (f.fallen c merge) merge).nested n cs') := by
  have hinner : BuildM.Innermost (s.nested (id :: n) cs') id (.branch head merge true) :=
    ⟨h.opened, hsc, rfl⟩
  have hrun := BuildM.gives_endIf (b := c) hinner h.bare
  rwa [Session.on_self (show (s.nested (id :: n) cs').func = _ from h.func) h.cursor] at hrun

/-- The else arm begins in the block after the then arm, which is still empty. -/
theorem Parted.placed (hp : Parted s₁ f₁ c₁ head after)
    (h : Inside ⟨s₁.id, f₁, c₁, s₁.scopes.size⟩ s f c) : (between s f c after).Placed := by
  have hbeyond := (h.newBlock.fallTo h.new).beyond
  refine ⟨fun g hg e he => ?_, fun g b hg hb => ?_⟩
  · obtain rfl := Option.some.inj hg
    exact (hbeyond.entry e he).2
  · obtain rfl := Option.some.inj hg
    obtain rfl := Option.some.inj hb
    refine ⟨hp.lt.trans_le hbeyond.numBlocks, ?_⟩
    rw [Bare, hbeyond.kept after hp.lt hp.ne hp.entry, hp.block]
    exact fun _ => ⟨rfl, rfl⟩

end between

namespace BuildM

/-- What code does from a session on. -/
theorem Code.run_nested {act : BuildM α} {post : α → List ScopeId} (h : Code [] act post) (s : Session)
    (k : Nat) : ∃ (r : Except Fault α) (s' : Session) (own : Array Scope) (st : List ScopeId),
      (∀ a, r = .ok a → st = post a) ∧ ∀ (n : List ScopeId) (cs : Array Scope), cs.size = k →
        act.run.run (s.nested n cs) = (r, s'.nested (st ++ n) (cs ++ own)) := by
  obtain ⟨r, s', own, st, -, hok, hrun⟩ := h.framed s k #[] (by simp [Among])
  exact ⟨r, s', own, st, fun a ha => (hok a ha).1, fun n cs hcs => by simpa using hrun n cs hcs⟩

/-- Code that closes what it opens leaves the nest as it was, and the constructs that there were. -/
theorem Code.keeps {act : BuildM α} {a : α} (h : Code [] act fun _ => []) (hrun : act.Gives s a s') :
    s'.nest = s.nest ∧ ∃ own, s'.scopes = s.scopes ++ own := by
  obtain ⟨r, t, own, st, hst, hnested⟩ := h.run_nested s s.scopes.size
  obtain ⟨rfl, rfl⟩ := Prod.mk.inj (hrun.symm.trans (hnested s.nest s.scopes rfl))
  obtain rfl := hst a rfl
  exact ⟨rfl, own, rfl⟩

/-- Two runs agree but for construct `id`: they give the same answer, or fail alike, and come to the same
session but for its nest and constructs. With an answer, both come to the nest `n`, and know the same of
all other constructs. -/
structure AgreeBut (id : ScopeId) (n : List ScopeId) (p q : Except Fault α × Session) : Prop where
  answer : p.1 = q.1
  session : q.2 = p.2.nested q.2.nest q.2.scopes
  nest : ∀ a, p.1 = .ok a → p.2.nest = n ∧ q.2.nest = n
  scopes : ∀ a, p.1 = .ok a → ∀ i ≠ id, p.2.scopes[i]? = q.2.scopes[i]?

variable {σ : Type} {yes no : StateT σ BuildM Unit}

/-- The forms agree from the end of the then arm on. Both turn what leaves it to a new block and build the
else arm from the block behind the conditional: one when it has already left the conditional, the other
within it, which the arm does not see. -/
theorem elseArm_forms {head after : BlockId} {c₁ : BlockId} {s₁ : Session} {f₁ : Func} {n : List ScopeId}
    (hno : ∀ x, Code [] (no.run x) fun _ => []) (hp : Parted s₁ f₁ c₁ head after)
    (h : Inside ⟨s₁.id, f₁, c₁, s₁.scopes.size⟩ s f c) (hnest : s.nest = id :: n)
    (hsc : s.scopes[id]? = some ⟨s.id, .branch head after false⟩) (x : σ) :
    AgreeBut id n
      ((do
        endScope id
        let merge ← divertExits ⟨head, after⟩
        let r ← no.run x
        fallTo merge
        setInsertBlock merge
        return ((), r.2) : BuildM (Unit × σ)).run.run s)
      ((do
        elseArm id
        let r ← no.run x
        endScope id
        return ((), r.2) : BuildM (Unit × σ)).run.run s) := by
  obtain ⟨hend, hdivert⟩ := hp.gives_diverted h hnest hsc
  rw [hend.run_bind, hdivert.run_bind, (h.gives_elseArm hnest hsc).run_bind]
  obtain ⟨r, t, own, st, hst, hrun⟩ := (hno x).run_nested (between s f c after) s.scopes.size
  have hfirst := hrun n s.scopes rfl
  have hsecond := hrun (id :: n) (s.scopes.modify id (Scope.inElse head f.numBlocks)) (by simp)
  cases r with
  | error e =>
    rw [Fails.run_bind hfirst, Fails.run_bind hsecond]
    exact ⟨rfl, rfl, nofun, nofun⟩
  | ok r =>
  obtain rfl := hst r rfl
  simp only [List.nil_append] at hfirst hsecond
  have hstart := (hp.placed h).nested n s.scopes
  obtain ⟨⟨g, d, hg⟩, -⟩ := (hno x).inside (hstart.inside h.opened rfl rfl) (by simp) hfirst
  have hlt : id < s.scopes.size := (Array.getElem?_eq_some_iff.mp hsc).1
  have hsc' : (s.scopes.modify id (Scope.inElse head f.numBlocks) ++ own)[id]? =
      some ⟨t.id, .branch head f.numBlocks true⟩ := by
    have hid : t.id = s.id := hg.id
    rw [Array.getElem?_append_left (by simpa using hlt), Array.getElem?_modify, if_pos rfl, hsc, hid]
    rfl
  have hmoved := hg.gives_fallTo (t := f.numBlocks)
  rw [Gives.run_bind hfirst, Gives.run_bind hsecond, hmoved.run_bind, (hg.gives_endElse hsc').run_bind]
  refine ⟨rfl, rfl, fun _ _ => ⟨rfl, rfl⟩, fun _ _ i hi => ?_⟩
  change (s.scopes ++ own)[i]? = (s.scopes.modify id (Scope.inElse head f.numBlocks) ++ own)[i]?
  simp only [Array.getElem?_append, Array.size_modify, Array.getElem?_modify, if_neg (Ne.symm hi)]

/-- A conditional with an else comes to the same in both forms, whatever code its arms are: the same
function, insertion block and nest, or the same failure. -/
theorem ifElse_forms (hyes : ∀ x, Code [] (yes.run x) fun _ => [])
    (hno : ∀ x, Code [] (no.run x) fun _ => []) (cond : Handle) (x : σ) (hs : s.Placed) :
    AgreeBut s.scopes.size s.nest (((ifElse cond yes no).run x).run.run s)
      (((scopedIfElse cond yes no).run x).run.run s) := by
  rw [ifElse_run, scopedIfElse_run]
  cases hbegin : (beginIf cond).run.run s with
  | mk r s₁ =>
  cases r with
  | error e =>
    rw [Fails.run_bind hbegin, Fails.run_bind hbegin]
    exact ⟨rfl, rfl, nofun, nofun⟩
  | ok id =>
  obtain ⟨hopen, f, c, hf, hc⟩ := gives_of_beginIf hbegin
  obtain ⟨rfl, g, hs₁, hparted⟩ := (hs.inside hopen hf hc).parted hbegin
  have hscopes : s₁.scopes = s.scopes.push ⟨s₁.id, .branch c (f.numBlocks + 1) false⟩ := by
    rw [hs₁]
    rfl
  have hsc : s₁.scopes[s.scopes.size]? = some ⟨s₁.id, .branch c (f.numBlocks + 1) false⟩ := by
    rw [hscopes]
    simp
  rw [Gives.run_bind hbegin, Gives.run_bind hbegin, (gives_elseClause hsc).run_bind]
  cases hthen : (yes.run x).run.run s₁ with
  | mk r s₂ =>
  cases r with
  | error e =>
    rw [Fails.run_bind hthen, Fails.run_bind hthen]
    exact ⟨rfl, rfl, nofun, nofun⟩
  | ok r =>
  obtain ⟨⟨f₂, b, h₂⟩, -⟩ := (hyes x).inside hparted.inside (by simp) hthen
  obtain ⟨hnest, own, hown⟩ := (hyes x).keeps hthen
  have hnest : s₂.nest = s.scopes.size :: s.nest := by
    rw [hnest, hs₁]
    rfl
  have hsc₂ : s₂.scopes[s.scopes.size]? = some ⟨s₂.id, .branch c (f.numBlocks + 1) false⟩ := by
    rw [hown, Array.getElem?_append_left (by simp [hscopes]), hsc, h₂.id]
  rw [Gives.run_bind hthen, Gives.run_bind hthen]
  exact elseArm_forms hno hparted h₂ hnest hsc₂ r.2

/-- A new function with a flag for its parameter. -/
def flagged : Session := (Session.start {} {}).createFunction "wait" .void [.i1]

/-- The flag. -/
def flag : Handle := ⟨.bool, some ⟨0, 0⟩⟩

/-- An arm that returns. -/
def leaving : StateT Nat BuildM Unit := returnVoid

/-- An arm with a loop; the program that builds counts its bodies. -/
def waiting : StateT Nat BuildM Unit := do
  let _ ← newVariable .int
  whileLoop (pure flag) (modify (· + 1))

/-- Of the arms of a conditional, one returns and the other loops. -/
theorem ifElse_forms_return : (∀ x, Code [] (leaving.run x) fun _ => []) ∧
    (∀ x, Code [] (waiting.run x) fun _ => []) ∧ flagged.Placed ∧
    AgreeBut 0 [] (((ifElse flag leaving waiting).run 0).run.run flagged)
      (((scopedIfElse flag leaving waiting).run 0).run.run flagged) ∧
    (((ifElse flag leaving waiting).run 0).run.run flagged).1 = .ok ((), 1) := by
  have hleaving : ∀ x, Code [] (leaving.run x) fun _ => [] := fun x => .lift (.plain inferInstance)
  have hwaiting : ∀ x, Code [] (waiting.run x) fun _ => [] := fun x => by
    rw [waiting, StateT.run_bind]
    exact .bind (.lift (.plain inferInstance)) fun r =>
      .whileLoop (fun _ => .plain (.pure _)) fun _ => .plain (.pure _)
  have hflagged : flagged.Placed := createFunction_placed _ _ _ _
  exact ⟨hleaving, hwaiting, hflagged, ifElse_forms hleaving hwaiting flag 0 hflagged, rfl⟩

end BuildM

end SsaJit.Build
