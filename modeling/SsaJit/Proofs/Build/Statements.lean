import SsaJit.Proofs.Build.Pieces

/-! What the builder makes of statements. Each is built from one open block on and leaves another to
build on from; in whatever the function grows to, the code between the two does what the statement
does. Blocks behind a return are built as well, and nothing reaches them. -/

namespace SsaJit.Build

open Func BuildM

variable {α β : Type} {s s' s'' : Session} {f g F : Func} {b c d : BlockId} {v w a : ValueId}
  {t ret : SType} {params vars vars' vars'' Γ : List SType} {ρ ρ' ρ'' ω : List Variable}
  {args : Nat → UInt64} {σ : Store} {st st' : regionInterp.State} {x i : Nat} {id : SessionId}

/-! ## Statements -/

/-- Where construction stands: the session, its function, the open block and the variables. -/
structure Stage where
  session : Session
  func : Func
  block : BlockId
  spaces : List Variable

namespace Stage

def state (S : Stage) : Session := S.session.on S.func S.block

def last (S : Stage) : Place := .last S.func S.block

/-- Construction can go on. -/
structure Ready (S : Stage) (params : List SType) (ret : SType) (vars : List SType) : Prop where
  opened : S.session.closed = false
  site : Site S.func S.block
  decl : Declares S.func S.session.id params vars S.spaces
  ret : S.func.ret = ret.ty

end Stage

/-- From the stage `S` to the stage `S'`, the action builds code that does what `A` says. -/
structure Compiles (params : List SType) (ret : SType) (act : ProgramM Unit)
    (A : (Nat → UInt64) → Behaviour) (vars : List SType) (S : Stage) (vars' : List SType)
    (S' : Stage) : Prop where
  builds : Builds act S.state S.spaces () S'.state S'.spaces
  ready : S'.Ready params ret vars'
  same : SameNest S.session S'.session
  later : Later S.block S.func S'.func
  onward : S.func.Onward S.block S'.block
  vars : vars <+: vars'
  spaces : S.spaces <+: S'.spaces
  code : ∀ F Γ ω args, Completes S'.func S.session.id params vars' S'.spaces F Γ ω →
    Does F (Rep F params Γ ω args) S.last S'.last (A args)

section statements

variable {S S' S'' : Stage} {act act' : ProgramM Unit} {A B : (Nat → UInt64) → Behaviour}

theorem compiles_skip (hS : S.Ready params ret vars) :
    Compiles params ret (pure ()) (fun _ σ r => r = .next σ) vars S vars S where
  builds := builds_pure ()
  ready := hS
  same := .refl _
  later := .refl _ _
  onward := .inl rfl
  vars := List.prefix_rfl
  spaces := List.prefix_rfl
  code _ _ _ _ _ := .stay

theorem Compiles.seq (h₁ : Compiles params ret act A vars S vars' S')
    (h₂ : Compiles params ret act' B vars' S' vars'' S'') :
    Compiles params ret (do act; act') (fun args => (A args).andThen (B args)) vars S vars'' S'' where
  builds := h₁.builds.bind h₂.builds
  ready := h₂.ready
  same := h₁.same.trans h₂.same
  later := h₁.later.trans h₂.later h₁.onward
  onward := by
    rcases h₂.onward with h | h
    · rw [h]
      exact h₁.onward
    · exact .inr (h₁.later.grows.numBlocks.trans h)
  vars := h₁.vars.trans h₂.vars
  spaces := h₁.spaces.trans h₂.spaces
  code F Γ ω args hF := by
    have hfirst := h₁.code F Γ ω args (hF.earlier h₂.later.grows h₂.vars h₂.spaces)
    exact hfirst.andThen (h₂.code F Γ ω args (h₁.same.id ▸ hF))

theorem space_spaceFor (ht : t.isWord = true) : Space (spaceFor t) := by
  refine ⟨rfl, rfl, rfl, ?_⟩
  cases t <;> first | decide | simp [SType.isWord, SType.isBitwise, SType.isInteger, SType.numClass,
    SType.isVector, SType.ty, Ty.isVector] at ht

/-- One more variable. -/
theorem Declares.spaced (hdecl : Declares f id params vars ρ) (hf : f.Draft)
    (ht : t.isWord = true) : Declares (f.spaced (spaceFor t)) id params (vars ++ [t])
      (ρ ++ [⟨id, t, f.numValues⟩]) := by
  have hx := space_spaceFor ht
  have hgrow := hdecl.grow (growsTo_spaced hf hx) hf (hf.spaced hx)
  refine ⟨hgrow.param, fun x t' hx' => ?_, by simp [hdecl.length], ?_⟩
  · rw [List.getElem?_append] at hx' ⊢
    split at hx'
    case isTrue hlt =>
      rw [if_pos (hdecl.length ▸ hlt)]
      exact hgrow.var x t' hx'
    case isFalse hge =>
      have hsub : x - vars.length = 0 := by
        have := (List.getElem?_eq_some_iff.mp hx').1
        simpa using this
      rw [hsub] at hx'
      obtain rfl : t = t' := Option.some.inj hx'
      rw [if_neg (hdecl.length ▸ hge), hdecl.length, hsub]
      refine ⟨f.numValues, rfl, ht, ?_, ?_⟩
      · rw [heads_spaced hf hx, if_pos rfl]
        simp
      · rw [value_spaced_new]
        exact ⟨rfl, rfl, rfl⟩
  · rw [List.map_append, List.nodup_append]
    refine ⟨hdecl.nodup, by simp, fun a ha b hb => ?_⟩
    obtain ⟨v, hv, rfl⟩ := List.mem_map.mp ha
    obtain rfl : b = f.numValues := by simpa using hb
    exact Nat.ne_of_lt (hf.value_lt (Draft.mem_heads.mp (hdecl.addr_mem hv)).1)

theorem compiles_declare (hS : S.Ready params ret vars) (ht : t.isWord = true) :
    ∃ S', Compiles params ret (do let v ← newVariable t; modify (· ++ [v]))
      (fun _ σ r => r = .next σ) vars S (vars ++ [t]) S' := by
  obtain ⟨s, f, b, ρ⟩ := S
  have hx := space_spaceFor ht
  have hf := hS.site.draft
  have hblock : ((f.spaced (spaceFor t)).block b).kind = (f.block b).kind := by
    rw [block_spaced hf]
    by_cases hb : b = 0 <;> simp [hb]
  refine ⟨⟨s, f.spaced (spaceFor t), b, ρ ++ [⟨s.id, t, f.numValues⟩]⟩, ?_⟩
  exact {
    builds := (builds_lift (gives_newVariable hS.opened hf)).bind (gives_pure _)
    ready := ⟨hS.opened, ⟨hf.spaced hx, Nat.lt_of_lt_of_le hS.site.lt (growsTo_spaced hf hx).numBlocks,
      hblock.trans hS.site.pending⟩, hS.decl.spaced hf ht, hS.ret⟩
    same := .refl _
    later := (Later.refl _ _).spaced hf hx
    onward := .inl rfl
    vars := List.prefix_append _ _
    spaces := List.prefix_append _ _
    code := fun F Γ ω args hF => by
      have hlast : Place.last (f.spaced (spaceFor t)) b = .last f b := by
        rw [Place.last, body_spaced hf hx, Place.last]
      rw [Stage.last, Stage.last, hlast]
      exact .stay }

theorem compiles_assign (hS : S.Ready params ret vars) (hx : vars[x]? = some t)
    (e : Expr params vars t) :
    ∃ S', Compiles params ret (do
        let ρ ← get
        let h ← e.build ρ
        storeVariable (ρ.getD x default) h 0 false)
      (fun args σ r => r = .next (Function.update σ x (e.eval args σ))) vars S vars S' := by
  obtain ⟨s, f, b, ρ⟩ := S
  obtain ⟨g, v, he⟩ := e.evaluates hS.opened hS.site hS.decl
  have hg := he.grown.site
  have hdecl := hS.decl.grow he.grown.later.grows hS.site.draft hg.draft
  obtain ⟨a, ha, -, hhead, hop, hty, -⟩ := hdecl.var x t hx
  have hρ : ρ.getD x default = ⟨s.id, t, a⟩ := by simp [List.getD_eq_getElem?_getD, ha]
  have hfresh := fresh_storing (t := t) he.offered.usable hhead hop hty
  have hstore := Grown.appended hg hfresh
  have hgives : (storeVariable (ρ.getD x default) (own s t v) 0 false).Gives (s.on g b) ()
      (s.on (g.appended b (storing t v a)) b) := by
    rw [hρ]
    exact gives_storeVariable hS.opened hg (he.offered.type.trans e.word.ty.symm)
  refine ⟨⟨s, g.appended b (storing t v a), b, ρ⟩, ?_⟩
  exact {
    builds := builds_get.bind ((builds_lift he.gives).bind (builds_lift hgives))
    ready := ⟨hS.opened, hstore.site, hdecl.grow hstore.later.grows hg.draft hstore.site.draft,
      ((he.grown.trans hstore).later.grows.ret).trans hS.ret⟩
    same := .refl _
    later := (he.grown.trans hstore).later
    onward := .inl rfl
    vars := List.prefix_rfl
    spaces := List.prefix_rfl
    code := fun F Γ ω args hF => .change fun σ st hrep => by
      have hFg := hF.earlier hstore.later.grows List.prefix_rfl List.prefix_rfl
      obtain ⟨st₁, hrep₁, hval, hpass₁⟩ := he.passes hFg hrep
      have hΓ : Γ[x]? = some t := by
        obtain ⟨rest, rfl⟩ := hF.vars
        rw [List.getElem?_append_left (List.getElem?_eq_some_iff.mp hx).1, hx]
      have hω : ω[x]? = some ⟨s.id, t, a⟩ := by
        obtain ⟨rest, rfl⟩ := hF.spaces
        rw [List.getElem?_append_left (List.getElem?_eq_some_iff.mp ha).1, ha]
      obtain ⟨hregion, hbytes, -⟩ := hrep₁.var x t _ hΓ hω
      have hexec := exec_storing hg hfresh hF.grows hval hregion he.offered.type
        (by rw [hbytes, length_leBytes])
      have hpass₂ := hstore.passes hF.grows (by
        rw [numValues_appended, Nat.add_sub_cancel_left]
        exact foldlM_one hexec)
      have hfit := ((hrep₁.narrow hFg.vars hFg.spaces).of_params hFg.grows.params.symm).fit hdecl
      exact ⟨0, _, hrep₁.written hF.decl hΓ hω (e.eval_fits hfit), hpass₁.trans hpass₂⟩ }

theorem isVoid_of_isWord (ht : t.isWord = true) : t.ty.isVoid = false := by
  cases t <;> first | rfl | simp [SType.isWord, SType.isBitwise, SType.isInteger, SType.numClass] at ht

/-- The block that what follows a return is built in. -/
theorem Site.behindRet {o : Operand} (hg : Site g b) (hclose : g.Closing b .ret o []) :
    Site (g.ended b .ret o []).newBlock.1 g.numBlocks := by
  have hnew := Site.ofNew (hclose.draft hg.draft)
  rwa [numBlocks_ended] at hnew

theorem compiles_give (hS : S.Ready params ret vars) (e : Expr params vars ret) :
    ∃ S', Compiles params ret (do
        let h ← e.build (← get)
        returnValue h)
      (fun args σ r => r = .returned (some (e.eval args σ))) vars S vars S' := by
  obtain ⟨g, v, he⟩ := e.evaluates hS.opened hS.site hS.decl
  have hg := he.grown.site
  have hret : ret.ty = g.ret := (he.grown.later.grows.ret.trans hS.ret).symm
  have hclose : g.Closing S.block .ret (.value v) [] := by
    refine ⟨hg.lt, hg.pending, by simp, rfl, ?_⟩
    rw [if_neg (by simp), ← hret]
    exact ⟨isVoid_of_isWord e.isWord, v, rfl, he.offered.usable,
      he.offered.type.trans e.word.ty.symm⟩
  have hsite := hg.behindRet hclose
  have hgrow := (hclose.grows hg.draft).trans growsTo_newBlock
  have hgrows := he.grown.later.grows.trans hgrow
  refine ⟨⟨S.session, (g.ended S.block .ret (.value v) []).newBlock.1, g.numBlocks, S.spaces⟩, ?_⟩
  exact {
    builds := builds_get.bind ((builds_lift he.gives).bind
      (builds_lift (gives_returnValue hS.opened hg hret)))
    ready := ⟨hS.opened, hsite, hS.decl.grow hgrows hS.site.draft hsite.draft,
      hgrows.ret.trans hS.ret⟩
    same := .refl _
    later := (he.grown.later.ended hg.draft (.inl rfl) hclose (by simp)).newBlock
    onward := .inr he.grown.later.grows.numBlocks
    vars := List.prefix_rfl
    spaces := List.prefix_rfl
    code := fun F Γ ω args hF => by
      have hend := ended_of_closing hclose hg.draft (growsTo_newBlock.trans hF.grows)
      have hFg := hF.earlier hgrow List.prefix_rfl List.prefix_rfl
      refine ⟨fun _ _ _ _ h => (nomatch h), fun σ st w hrep hw => ?_, fun σ _ _ _ _ _ => ⟨_, rfl⟩⟩
      obtain ⟨st₁, hrep₁, hval, hpass⟩ := he.passes hFg hrep
      obtain rfl := Result.returned.inj hw
      refine ⟨1 + 0, st₁.mem, hpass.ends ?_⟩
      have hret := endsFrom_ret st₁ hend.kind rfl
      rw [hend.last, hend.control, if_neg (by simp), Interp.State.get, Interp.read, hval] at hret
      exact hret }

theorem compiles_giveNothing (hS : S.Ready params ret vars) (hret : ret = .void) :
    ∃ S', Compiles params ret returnVoid (fun _ _ r => r = .returned none) vars S vars S' := by
  have hvoid : S.func.ret.isVoid = true := by rw [hS.ret, hret]; rfl
  have hclose : S.func.Closing S.block .ret .missing [] :=
    ⟨hS.site.lt, hS.site.pending, by simp, rfl, by rw [if_pos rfl]; exact hvoid⟩
  have hsite := hS.site.behindRet hclose
  have hgrow := (hclose.grows hS.site.draft).trans growsTo_newBlock
  refine ⟨⟨S.session, (S.func.ended S.block .ret .missing []).newBlock.1, S.func.numBlocks,
    S.spaces⟩, ?_⟩
  exact {
    builds := builds_lift (gives_returnVoid hS.opened hS.site hvoid)
    ready := ⟨hS.opened, hsite, hS.decl.grow hgrow hS.site.draft hsite.draft, hgrow.ret.trans hS.ret⟩
    same := .refl _
    later := ((Later.refl _ _).ended hS.site.draft (.inl rfl) hclose (by simp)).newBlock
    onward := .inr (Nat.le_refl _)
    vars := List.prefix_rfl
    spaces := List.prefix_rfl
    code := fun F Γ ω args hF => by
      have hend := ended_of_closing hclose hS.site.draft (growsTo_newBlock.trans hF.grows)
      refine ⟨fun _ _ _ _ h => (nomatch h), fun σ st w hrep hw => ?_, fun σ _ _ _ _ _ => ⟨_, rfl⟩⟩
      obtain rfl := Result.returned.inj hw
      have hret := endsFrom_ret st hend.kind rfl
      rw [hend.last, hend.control, if_pos rfl] at hret
      exact ⟨1, st.mem, hret⟩ }

/-- Code with a jump behind it. -/
theorem Compiles.thenJump (h : Compiles params ret act A vars S vars' S')
    (hclose : S'.func.Closing S'.block .jump .missing [d])
    (hF : Completes (S'.func.ended S'.block .jump .missing [d]) S.session.id params vars' S'.spaces
      F Γ ω) : Does F (Rep F params Γ ω args) S.last (.top d) (A args) := by
  have hdraft := h.ready.site.draft
  have hcode := h.code F Γ ω args
    (hF.earlier (hclose.grows hdraft) List.prefix_rfl List.prefix_rfl)
  exact hcode.jump ((ended_of_closing hclose hdraft hF.grows).goes hF.draft)

/-- A condition and the arm where it holds. The construct is still open. -/
structure Arm (params : List SType) (ret : SType) (act : ProgramM Unit)
    (A : (Nat → UInt64) → Behaviour) (vars : List SType) (S : Stage) (e : Expr params vars .bool)
    (g : Func) (v : ValueId) (vars' : List SType) (S' : Stage) : Prop where
  ready : S.Ready params ret vars
  cond : Evaluates S.session S.func S.block S.spaces e g v
  arm : Compiles params ret act A vars
    ⟨pushed S.session (.branch S.block (g.numBlocks + 1) false), forked g S.block v, g.numBlocks,
      S.spaces⟩ vars' S'
  spared : Spared (forked g S.block v) (g.numBlocks + 1) S'.func S'.block

theorem arm_built (hS : S.Ready params ret vars) (e : Expr params vars .bool)
    (hact : ∀ S, S.Ready params ret vars → ∃ S', Compiles params ret act A vars S vars' S') :
    ∃ g v S', Arm params ret act A vars S e g v vars' S' := by
  obtain ⟨g, v, he⟩ := e.evaluates hS.opened hS.site hS.decl
  have hg := he.grown.site
  have hlater := he.grown.later.trans (later_forked hg he.offered) (.inl rfl)
  have hyes := site_forked_yes hg he.offered
  obtain ⟨S', hcompiles⟩ := hact ⟨pushed S.session (.branch S.block (g.numBlocks + 1) false),
      forked g S.block v, g.numBlocks, S.spaces⟩
    ⟨hS.opened, hyes, hS.decl.grow hlater.grows hS.site.draft hyes.draft,
      hlater.grows.ret.trans hS.ret⟩
  refine ⟨g, v, S', hS, he, hcompiles, ?_⟩
  exact spared (site_forked_no hg he.offered) (Nat.succ_ne_zero _)
    (body_forked hg he.offered (Nat.le_succ _)) (Nat.succ_ne_self _) hcompiles.ready.site.draft
    hcompiles.later hcompiles.onward

namespace Arm

variable {e : Expr params vars .bool} (h : Arm params ret act A vars S e g v vars' S')
include h

theorem site : Site g S.block := h.cond.grown.site

theorem numBlocks_le : S.func.numBlocks ≤ g.numBlocks := h.cond.grown.later.grows.numBlocks

theorem later_forked : Later S.block S.func (forked g S.block v) :=
  h.cond.grown.later.trans (Build.later_forked h.site h.cond.offered) (.inl rfl)

theorem later : Later S.block S.func S'.func :=
  h.later_forked.trans h.arm.later (.inr h.numBlocks_le)

theorem onward : S.func.Onward S.block S'.block :=
  onward_new h.arm.onward h.later_forked.grows.numBlocks h.numBlocks_le

/-- The arm is no more built in the block of the condition. -/
theorem block_ne : S'.block ≠ S.block := by
  have hlt := h.ready.site.lt
  have hge : g.numBlocks ≤ S'.block := by
    rcases h.arm.onward with hc | hc
    · exact Nat.le_of_eq hc.symm
    · exact Nat.le_trans (Build.later_forked h.site h.cond.offered).grows.numBlocks hc
  exact Nat.ne_of_gt (Nat.lt_of_lt_of_le hlt (h.numBlocks_le.trans hge))

theorem innermost : Innermost S'.session S.session.scopes.size
    (.branch S.block (g.numBlocks + 1) false) :=
  SameNest.innermost h.ready.opened h.arm.same

theorem closing : S'.func.Closing S'.block .jump .missing [g.numBlocks + 1] :=
  h.arm.ready.site.closing h.spared.site.lt (Nat.succ_ne_zero _)

theorem builds : Builds (BuildM.ifThen (own S.session .bool v) act) (S.session.on g S.block) S.spaces
    ⟨S.block, g.numBlocks + 1⟩ ((popped S'.session).on
      (S'.func.ended S'.block .jump .missing [g.numBlocks + 1]) (g.numBlocks + 1)) S'.spaces := by
  have hscope : ((pushed S.session (.branch S.block (g.numBlocks + 1) false)).on
      (forked g S.block v) g.numBlocks).scopes[S.session.scopes.size]? =
        some ⟨S.session.id, .branch S.block (g.numBlocks + 1) false⟩ := by
    simp [pushed, Session.on]
  have hsite := h.arm.ready.site
  have hend := gives_endIf (b := S'.block) h.innermost hsite.draft.bare
  rw [fallen_pending hsite.pending] at hend
  exact (builds_lift (gives_beginIf h.ready.opened h.site)).bind
    ((builds_lift (gives_elseClause hscope)).bind (h.arm.builds.bind
      ((builds_lift hend).bind (builds_pure _))))

/-- The arm begins where the branch leads. -/
theorem start : Stage.last ⟨pushed S.session (.branch S.block (g.numBlocks + 1) false),
    forked g S.block v, g.numBlocks, S.spaces⟩ = .top g.numBlocks :=
  last_of_nil (body_forked h.site h.cond.offered (Nat.le_refl _))

theorem tests {k : Func} (hk : GrowsTo S'.func k)
    (hF : Completes k S.session.id params vars' S'.spaces F Γ ω) :
    Tests F (Rep F params Γ ω args) S.last (e.eval args) (.top g.numBlocks)
      (.top (g.numBlocks + 1)) :=
  tests_forked h.site h.cond (hF.earlier (h.arm.later.grows.trans hk) h.arm.vars h.arm.spaces)

end Arm

theorem compiles_ifThen (hS : S.Ready params ret vars) (e : Expr params vars .bool)
    (hact : ∀ S, S.Ready params ret vars → ∃ S', Compiles params ret act A vars S vars' S') :
    ∃ S', Compiles params ret (do
        let h ← e.build (← get)
        let _ ← BuildM.ifThen h act)
      (fun args => .either (e.eval args) (A args) fun σ r => r = .next σ) vars S vars' S' := by
  obtain ⟨g, v, S₁, h⟩ := arm_built hS e hact
  have hdraft := h.arm.ready.site.draft
  have hgrow := h.closing.grows hdraft
  have hsite := h.spared.site.beside h.closing h.spared.ne.symm
  refine ⟨⟨popped S₁.session, S₁.func.ended S₁.block .jump .missing [g.numBlocks + 1],
    g.numBlocks + 1, S₁.spaces⟩, ?_⟩
  exact {
    builds := builds_get.bind ((builds_lift h.cond.gives).bind (h.builds.bind (builds_pure ())))
    ready := ⟨h.innermost.opened, hsite, h.arm.same.id ▸ h.arm.ready.decl.grow hgrow hdraft hsite.draft,
      (h.later.grows.trans hgrow).ret.trans hS.ret⟩
    same := h.arm.same.popped
    later := h.later.ended hdraft h.onward h.closing (by simpa using Nat.le_succ_of_le h.numBlocks_le)
    onward := .inr (Nat.le_succ_of_le h.numBlocks_le)
    vars := h.arm.vars
    spaces := h.arm.spaces
    code := fun F Γ ω args hF => by
      have harm : Does F (Rep F params Γ ω args) _ _ _ := h.arm.thenJump h.closing hF
      rw [h.start] at harm
      have hafter : Stage.last ⟨popped S₁.session,
          S₁.func.ended S₁.block .jump .missing [g.numBlocks + 1], g.numBlocks + 1, S₁.spaces⟩ =
            .top (g.numBlocks + 1) := last_of_nil ((h.closing.body hdraft).trans h.spared.body)
      rw [hafter]
      exact .either (h.tests hgrow hF) harm .stay }

/-- Two arms: the first is turned to where the second ends. -/
theorem compiles_ifElse (hS : S.Ready params ret vars) (e : Expr params vars .bool)
    (hact : ∀ S, S.Ready params ret vars → ∃ S', Compiles params ret act A vars S vars' S')
    (hact' : ∀ S, S.Ready params ret vars' → ∃ S', Compiles params ret act' B vars' S vars'' S') :
    ∃ S', Compiles params ret (do
        let h ← e.build (← get)
        let clause ← BuildM.ifThen h act
        orElse clause act')
      (fun args => .either (e.eval args) (A args) (B args)) vars S vars'' S' := by
  obtain ⟨g, v, S₁, h⟩ := arm_built hS e hact
  have hsite₁ := h.arm.ready.site
  have hdivert := gives_divertExits (s := popped S₁.session) h.innermost.opened hsite₁.lt
    hsite₁.draft.bare h.spared.site.lt h.spared.site.pending h.spared.ne h.block_ne h.spared.values
    (h.spared.preds.trans (preds_forked_no h.site h.cond.offered))
  rw [fallen_pending hsite₁.pending, fallen_pending (by simpa using hsite₁.pending)] at hdivert
  have hhead := later_headed hsite₁
  have hafter : Site (headed S₁.func S₁.block) (g.numBlocks + 1) :=
    h.spared.site.newBlock.beside (closing_headed hsite₁) h.spared.ne.symm
  have hlater : Later S.block S.func (headed S₁.func S₁.block) := h.later.trans hhead h.onward
  obtain ⟨S₂, hB⟩ := hact' ⟨popped S₁.session, headed S₁.func S₁.block, g.numBlocks + 1, S₁.spaces⟩
    ⟨h.innermost.opened, hafter, h.arm.ready.decl.grow hhead.grows hsite₁.draft hafter.draft,
      hhead.grows.ret.trans h.arm.ready.ret⟩
  have hdraft₂ := hB.ready.site.draft
  have hfall : (fallTo S₁.func.numBlocks).Gives (S₂.session.on S₂.func S₂.block) () _ :=
    gives_fallTo hdraft₂.bare
  rw [fallen_pending hB.ready.site.pending] at hfall
  have hmerge := spared (site_headed hsite₁) (Nat.ne_of_gt hsite₁.draft.pos) (body_headed hsite₁)
    (Nat.ne_of_gt h.spared.site.lt) hdraft₂ hB.later hB.onward
  have hclose := hB.ready.site.closing hmerge.site.lt (Nat.ne_of_gt hsite₁.draft.pos)
  have hgrow := hclose.grows hdraft₂
  have hsite := hmerge.site.beside hclose hmerge.ne.symm
  have hle : S.func.numBlocks ≤ S₁.func.numBlocks := h.later.grows.numBlocks
  refine ⟨⟨S₂.session, S₂.func.ended S₂.block .jump .missing [S₁.func.numBlocks],
    S₁.func.numBlocks, S₂.spaces⟩, ?_⟩
  exact {
    builds := builds_get.bind ((builds_lift h.cond.gives).bind (h.builds.bind
      ((builds_lift hdivert).bind (hB.builds.bind ((builds_lift hfall).bind
        (builds_lift gives_setInsertBlock))))))
    ready := ⟨hB.ready.opened, hsite, hB.ready.decl.grow hgrow hdraft₂ hsite.draft,
      hgrow.ret.trans hB.ready.ret⟩
    same := h.arm.same.popped.trans hB.same
    later := (hlater.trans hB.later (.inr (Nat.le_succ_of_le h.numBlocks_le))).ended hdraft₂
      (onward_new hB.onward hlater.grows.numBlocks (Nat.le_succ_of_le h.numBlocks_le)) hclose
      (by simpa using hle)
    onward := .inr hle
    vars := h.arm.vars.trans hB.vars
    spaces := h.arm.spaces.trans hB.spaces
    code := fun F Γ ω args hF => by
      have hFhead := (hF.earlier hgrow List.prefix_rfl List.prefix_rfl).earlier hB.later.grows
        hB.vars hB.spaces
      have harm := h.arm.code F Γ ω args (hFhead.earlier hhead.grows List.prefix_rfl List.prefix_rfl)
      rw [h.start] at harm
      have helse : Does F (Rep F params Γ ω args) _ _ _ :=
        hB.thenJump hclose (h.arm.same.popped.id ▸ hF)
      have hno : (headed S₁.func S₁.block).body (g.numBlocks + 1) = [] := by
        rw [headed, (closing_headed hsite₁).body hsite₁.draft.newBlock, body_newBlock]
        exact h.spared.body
      rw [Stage.last, last_of_nil hno] at helse
      rw [Stage.last, Stage.last, last_of_nil ((hclose.body hdraft₂).trans hmerge.body)]
      exact .either (h.tests hhead.grows hFhead)
        (harm.jump (goes_headed hsite₁ hF.draft hFhead.grows)) helse }

/-! ## Loops -/

theorem compiles_whileLoop {P : (Nat → UInt64) → Behaviour} {pre : ProgramM Unit}
    (hS : S.Ready params ret vars)
    (hpre : ∀ S, S.Ready params ret vars → ∃ S', Compiles params ret pre P vars S vars' S')
    (e : Expr params vars' .bool)
    (hact : ∀ S, S.Ready params ret vars' → ∃ S', Compiles params ret act B vars' S vars'' S') :
    ∃ S', Compiles params ret (BuildM.whileLoop (do pre; e.build (← get)) act)
      (fun args => .while (P args) (e.eval args) (B args)) vars S vars'' S' := by
  have hhead := later_headed hS.site
  have hsite := site_headed hS.site
  -- the header
  obtain ⟨S₁, hP⟩ := hpre ⟨pushed S.session (.loop S.func.numBlocks none),
      headed S.func S.block, S.func.numBlocks, S.spaces⟩
    ⟨hS.opened, hsite, hS.decl.grow hhead.grows hS.site.draft hsite.draft,
      hhead.grows.ret.trans hS.ret⟩
  obtain ⟨g, v, he⟩ := e.evaluates hP.ready.opened hP.ready.site hP.ready.decl
  have hg := he.grown.site
  have hfork := he.grown.later.trans (later_forked hg he.offered) (.inl rfl)
  have hyes := site_forked_yes hg he.offered
  have hinner := SameNest.innermost hS.opened hP.same
  have hsame := hP.same.changed (.loop S.func.numBlocks (some (g.numBlocks + 1)))
  -- the body
  obtain ⟨S₂, hB⟩ := hact ⟨changed S₁.session S.session.scopes.size
      (.loop S.func.numBlocks (some (g.numBlocks + 1))), forked g S₁.block v, g.numBlocks, S₁.spaces⟩
    ⟨hP.ready.opened, hyes, hP.ready.decl.grow hfork.grows hP.ready.site.draft hyes.draft,
      hfork.grows.ret.trans hP.ready.ret⟩
  have hdraft₂ := hB.ready.site.draft
  have hfall : (fallTo S₁.func.numBlocks).Gives (S₂.session.on S₂.func S₂.block) () _ :=
    gives_fallTo hdraft₂.bare
  rw [fallen_pending hB.ready.site.pending] at hfall
  have hafter := spared (site_forked_no hg he.offered) (Nat.succ_ne_zero _)
    (body_forked hg he.offered (Nat.le_succ _)) (Nat.succ_ne_self _) hdraft₂ hB.later hB.onward
  have hlater₁ : Later S.block S.func S₁.func := hhead.trans hP.later (.inr (Nat.le_refl _))
  have hlaterFork := hlater₁.trans hfork (onward_new hP.onward hhead.grows.numBlocks (Nat.le_refl _))
  have hle : S.func.numBlocks ≤ g.numBlocks :=
    hlater₁.grows.numBlocks.trans he.grown.later.grows.numBlocks
  have hlater₂ := hlaterFork.trans hB.later (.inr hle)
  have hclose : S₂.func.Closing S₂.block .jump .missing [S.func.numBlocks] :=
    hB.ready.site.closing (Nat.lt_of_lt_of_le hsite.lt
      ((hP.later.grows.trans hfork.grows).trans hB.later.grows).numBlocks)
      (Nat.ne_of_gt hS.site.draft.pos)
  have hgrow := hclose.grows hdraft₂
  have hsite₂ := hafter.site.beside hclose hafter.ne.symm
  refine ⟨⟨popped S₂.session, S₂.func.ended S₂.block .jump .missing [S.func.numBlocks],
    g.numBlocks + 1, S₂.spaces⟩, ?_⟩
  exact {
    builds := (builds_lift (gives_beginLoop hS.opened hS.site)).bind
      ((hP.builds.bind (builds_get.bind (builds_lift he.gives))).bind
        ((builds_lift (gives_loopCondition hinner hg)).bind (hB.builds.bind (builds_lift
          (gives_endLoop (SameNest.innermost hS.opened (hsame.trans hB.same)) hB.ready.site)))))
    ready := ⟨hB.ready.opened, hsite₂, hB.ready.decl.grow hgrow hdraft₂ hsite₂.draft,
      hgrow.ret.trans hB.ready.ret⟩
    same := (hsame.trans hB.same).popped
    later := hlater₂.ended hdraft₂ (onward_new hB.onward hlaterFork.grows.numBlocks hle) hclose
      (by simp)
    onward := .inr (Nat.le_succ_of_le hle)
    vars := hP.vars.trans hB.vars
    spaces := hP.spaces.trans hB.spaces
    code := fun F Γ ω args hF => by
      have hFfork := (hF.earlier hgrow List.prefix_rfl List.prefix_rfl).earlier hB.later.grows
        hB.vars hB.spaces
      have hF₁ := hFfork.earlier hfork.grows List.prefix_rfl List.prefix_rfl
      have hFhead := hF₁.earlier hP.later.grows hP.vars hP.spaces
      have hcond := hP.code F Γ ω args hF₁
      have hbody : Does F (Rep F params Γ ω args) _ _ _ :=
        hB.thenJump hclose (hP.same.id ▸ hF)
      rw [Stage.last, last_of_nil (body_headed hS.site)] at hcond
      rw [Stage.last, last_of_nil (body_forked hg he.offered (Nat.le_refl _))] at hbody
      rw [Stage.last, Stage.last, last_of_nil ((hclose.body hdraft₂).trans hafter.body)]
      exact .behindJump (goes_headed hS.site hF.draft hFhead.grows)
        (.while hcond (tests_forked hg he hFfork) hbody) }

theorem compiles_repeatUntil {P : (Nat → UInt64) → Behaviour} {pre : ProgramM Unit}
    (hS : S.Ready params ret vars)
    (hact : ∀ S, S.Ready params ret vars → ∃ S', Compiles params ret act B vars S vars' S')
    (hpre : ∀ S, S.Ready params ret vars' → ∃ S', Compiles params ret pre P vars' S vars'' S')
    (e : Expr params vars'' .bool) :
    ∃ S', Compiles params ret (BuildM.repeatUntil act (do pre; e.build (← get)))
      (fun args => .until ((B args).andThen (P args)) (e.eval args)) vars S vars'' S' := by
  have hhead := later_headed hS.site
  have hsite := site_headed hS.site
  obtain ⟨S₁, hB⟩ := hact ⟨pushed S.session (.doUntil S.func.numBlocks),
      headed S.func S.block, S.func.numBlocks, S.spaces⟩
    ⟨hS.opened, hsite, hS.decl.grow hhead.grows hS.site.draft hsite.draft,
      hhead.grows.ret.trans hS.ret⟩
  obtain ⟨S₂, hP⟩ := hpre S₁ hB.ready
  have hround := hB.seq hP
  obtain ⟨g, v, he⟩ := e.evaluates hP.ready.opened hP.ready.site hP.ready.decl
  have hg := he.grown.site
  have hinner := SameNest.innermost hS.opened hround.same
  have hlater₂ : Later S.block S.func S₂.func := hhead.trans hround.later (.inr (Nat.le_refl _))
  have honward := onward_new (b := S.block) hround.onward hhead.grows.numBlocks (Nat.le_refl _)
  have hlater := hlater₂.trans he.grown.later honward
  have hback : S.func.numBlocks < g.numBlocks := Nat.lt_of_lt_of_le hsite.lt
    (hround.later.grows.trans he.grown.later.grows).numBlocks
  have hclose : g.newBlock.1.Closing S₂.block .branch (.value v) [g.numBlocks, S.func.numBlocks] := by
    refine ⟨hg.newBlock.lt, hg.newBlock.pending, ?_, ⟨_, _, rfl⟩, v, rfl,
      widens_newBlock.usable hg.draft he.offered.usable, by rw [value_newBlock]; exact he.offered.type⟩
    simp only [List.mem_cons, List.not_mem_nil, or_false, numBlocks_newBlock]
    rintro t (rfl | rfl)
    · exact ⟨Nat.ne_of_gt hg.draft.pos, Nat.lt_succ_self _⟩
    · exact ⟨Nat.ne_of_gt hS.site.draft.pos, Nat.lt_succ_of_lt hback⟩
  have hdraft := hg.draft.newBlock
  have hgrow : GrowsTo g (g.newBlock.1.ended S₂.block .branch (.value v)
      [g.numBlocks, S.func.numBlocks]) := growsTo_newBlock.trans (hclose.grows hdraft)
  have hsite₂ := (Site.ofNew hg.draft).beside hclose (Nat.ne_of_gt hg.lt)
  refine ⟨⟨popped S₂.session, g.newBlock.1.ended S₂.block .branch (.value v)
    [g.numBlocks, S.func.numBlocks], g.numBlocks, S₂.spaces⟩, ?_⟩
  exact {
    builds := (builds_lift (gives_beginDo hS.opened hS.site)).bind (hB.builds.bind
      ((hP.builds.bind (builds_get.bind (builds_lift he.gives))).bind
        (builds_lift (gives_doUntil hinner hg))))
    ready := ⟨hP.ready.opened, hsite₂, hP.ready.decl.grow (he.grown.later.grows.trans hgrow)
      hP.ready.site.draft hsite₂.draft, (he.grown.later.grows.trans hgrow).ret.trans hP.ready.ret⟩
    same := hround.same.popped
    later := hlater.newBlock.ended hdraft honward hclose (by simpa using hlater.grows.numBlocks)
    onward := .inr hlater.grows.numBlocks
    vars := hround.vars
    spaces := hround.spaces
    code := fun F Γ ω args hF => by
      have hFg := hF.earlier hgrow List.prefix_rfl List.prefix_rfl
      have hF₂ := hFg.earlier he.grown.later.grows List.prefix_rfl List.prefix_rfl
      have hFhead := hF₂.earlier hround.later.grows hround.vars hround.spaces
      have hbody := hround.code F Γ ω args hF₂
      have hend := ended_of_closing hclose hdraft hF.grows
      have htests : Tests F (Rep F params Γ ω args) S₂.last (e.eval args) _ _ :=
        hend.tests body_newBlock he hFg
      rw [Stage.last, last_of_nil (body_headed hS.site)] at hbody
      have hnew := body_newBlock.trans (body_new (Nat.le_refl g.numBlocks))
      rw [Stage.last, Stage.last, last_of_nil ((hclose.body hdraft).trans hnew)]
      exact .behindJump (goes_headed hS.site hF.draft hFhead.grows) (.until hbody htests) }

/-- Every statement is built as code that does what it does. -/
theorem Stmt.compiles {vars vars' : List SType} (p : Stmt params ret vars vars') (S : Stage)
    (hS : S.Ready params ret vars) :
    ∃ S', Compiles params ret p.build (fun args => p.does args) vars S vars' S' := by
  induction p generalizing S with
  | skip => exact ⟨S, compiles_skip hS⟩
  | declare t ht => exact compiles_declare hS ht
  | assign x hx e => exact compiles_assign hS hx e
  | seq p q ihp ihq =>
    obtain ⟨S₁, hp⟩ := ihp S hS
    obtain ⟨S₂, hq⟩ := ihq S₁ hp.ready
    exact ⟨S₂, hp.seq hq⟩
  | ifThen c p ih => exact compiles_ifThen hS c ih
  | ifElse c p q ihp ihq => exact compiles_ifElse hS c ihp ihq
  | whileLoop pre c body ihpre ihbody => exact compiles_whileLoop hS ihpre c ihbody
  | forLoop pre c body step ihpre ihbody ihstep =>
    refine compiles_whileLoop hS ihpre c fun S hS => ?_
    obtain ⟨S₁, hbody⟩ := ihbody S hS
    obtain ⟨S₂, hstep⟩ := ihstep S₁ hbody.ready
    exact ⟨S₂, hbody.seq hstep⟩
  | doUntil body pre c ihbody ihpre => exact compiles_repeatUntil hS ihbody ihpre c
  | give e => exact compiles_give hS e
  | giveNothing hret => exact compiles_giveNothing hS hret

end statements

end SsaJit.Build
