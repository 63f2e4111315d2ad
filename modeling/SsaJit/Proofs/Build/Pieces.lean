import SsaJit.Proofs.Build.Behaviour
import SsaJit.Proofs.Build.Expressions

/-! The pieces of which statements are built: actions on a session and its variables, instructions that
write variables, ends of blocks, and the blocks that an arm or a loop begins with. Each is followed into
the function that construction ends with. -/

namespace SsaJit.Build

open Func BuildM

variable {α β : Type} {s s' s'' : Session} {f g F : Func} {b c d : BlockId} {v w a : ValueId}
  {t ret : SType} {params vars vars' vars'' Γ : List SType} {ρ ρ' ρ'' ω : List Variable}
  {args : Nat → UInt64} {σ : Store} {st st' : regionInterp.State} {x i : Nat} {id : SessionId}

/-! ## Building with variables -/

/-- The action succeeds with `a` and leaves the session `s'` and the variables `ρ'`. -/
def Builds (act : ProgramM α) (s : Session) (ρ : List Variable) (a : α) (s' : Session)
    (ρ' : List Variable) : Prop :=
  (act.run ρ).Gives s (a, ρ') s'

theorem Builds.bind {act : ProgramM α} {k : α → ProgramM β} {a : α} {r : β}
    (h : Builds act s ρ a s' ρ') (h' : Builds (k a) s' ρ' r s'' ρ'') :
    Builds (act >>= k) s ρ r s'' ρ'' := by
  unfold Builds
  rw [StateT.run_bind]
  exact Gives.bind h h'

theorem builds_lift {act : BuildM α} {a : α} (h : act.Gives s a s') :
    Builds (liftM act) s ρ a s' ρ :=
  h.bind (gives_pure (a, ρ))

theorem builds_pure (a : α) : Builds (pure a) s ρ a s ρ := gives_pure (a, ρ)

theorem builds_get : Builds get s ρ ρ s ρ := gives_pure (ρ, ρ)

/-! ## Sessions that go on -/

/-- Both are the same session, with the same constructs open; those begun before are as they were. -/
structure SameNest (s s' : Session) : Prop where
  id : s'.id = s.id
  closed : s'.closed = s.closed
  nest : s'.nest = s.nest
  size : s.scopes.size ≤ s'.scopes.size
  scopes : ∀ i < s.scopes.size, s'.scopes[i]? = s.scopes[i]?

namespace SameNest

theorem refl (s : Session) : SameNest s s := ⟨rfl, rfl, rfl, Nat.le_refl _, fun _ _ => rfl⟩

theorem trans (h₁ : SameNest s s') (h₂ : SameNest s' s'') : SameNest s s'' :=
  ⟨h₂.id.trans h₁.id, h₂.closed.trans h₁.closed, h₂.nest.trans h₁.nest, h₁.size.trans h₂.size,
    fun i hi => (h₂.scopes i (hi.trans_le h₁.size)).trans (h₁.scopes i hi)⟩

/-- The construct that was begun last. -/
theorem innermost {k : Construct} (hs : s.closed = false) (h : SameNest (pushed s k) s') :
    Innermost s' s.scopes.size k where
  opened := h.closed.trans hs
  scope := by
    rw [h.scopes s.scopes.size (by simp [pushed]), h.id]
    simp [pushed]
  nest := by rw [h.nest]; rfl

/-- A construct that was begun and ended. -/
theorem popped {k : Construct} (h : SameNest (pushed s k) s') : SameNest s (popped s') where
  id := h.id
  closed := h.closed
  nest := by
    change s'.nest.tail = _
    rw [h.nest]
    rfl
  size := Nat.le_trans (by simp [pushed]) h.size
  scopes i hi := by
    refine (h.scopes i (by simpa [pushed] using Nat.lt_succ_of_lt hi)).trans ?_
    simp [pushed, Array.getElem?_push, Nat.ne_of_lt hi]

/-- Giving the construct that was begun last another state is as if it had been begun so. -/
theorem changed {k : Construct} (h : SameNest (pushed s k) s') (k' : Construct) :
    SameNest (pushed s k') (changed s' s.scopes.size k') where
  id := h.id
  closed := h.closed
  nest := h.nest
  size := by
    have := h.size
    simpa [pushed, BuildM.changed] using this
  scopes i hi := by
    have hi' : i < (pushed s k).scopes.size := by simpa [pushed] using hi
    have hold := h.scopes i hi'
    simp only [BuildM.changed, Array.getElem?_modify]
    rw [hold]
    by_cases hlast : i = s.scopes.size
    · subst hlast
      simp [pushed]
    · simp [pushed, Array.getElem?_push, hlast, Ne.symm hlast]

end SameNest

/-! ## Instructions in the finished function -/

/-- What a function under construction becomes: `F`, with the variables `Γ` at `ω`. -/
structure Completes (g : Func) (id : SessionId) (params vars : List SType) (ρ : List Variable)
    (F : Func) (Γ : List SType) (ω : List Variable) : Prop where
  draft : F.Draft
  decl : Declares F id params Γ ω
  grows : GrowsTo g F
  vars : vars <+: Γ
  spaces : ρ <+: ω

theorem Completes.earlier (hF : Completes g id params vars' ρ' F Γ ω) (hfg : GrowsTo f g)
    (hvars : vars <+: vars') (hρ : ρ <+: ρ') : Completes f id params vars ρ F Γ ω :=
  ⟨hF.draft, hF.decl, hfg.trans hF.grows, hvars.trans hF.vars, hρ.trans hF.spaces⟩

theorem Grown.body_drop (hg : Grown b f g) (hF : GrowsTo g F) :
    ∃ rest, (F.body b).drop (f.body b).length =
      List.range' f.numValues (g.numValues - f.numValues) ++ rest := by
  obtain ⟨rest, hrest⟩ := hF.grown b
  refine ⟨rest, ?_⟩
  rw [← hrest, hg.body, List.append_assoc, List.drop_left]

theorem Grown.passes (hg : Grown b f g) (hF : GrowsTo g F)
    (hrun : (List.range' f.numValues (g.numValues - f.numValues)).foldlM F.exec st = .ok st') :
    Passes F 0 (.last f b) st (.last g b) st' := by
  obtain ⟨rest, hrest⟩ := hg.body_drop hF
  have hpass := passes_straight hrest hrun
  rwa [← List.length_append, ← hg.body] at hpass

/-- The instructions that were added are no heads. -/
theorem Grown.heads (hg : Grown b f g) (hF : GrowsTo g F) :
    ∀ u ∈ F.heads 0, u < f.numValues ∨ g.numValues ≤ u := by
  intro u hu
  by_contra hout
  obtain ⟨hge, hlt⟩ := not_or.mp hout
  have hmem : u ∈ List.range' f.numValues (g.numValues - f.numValues) := by
    have hnum := hg.later.grows.numValues
    rw [List.mem_range'_1]
    exact ⟨Nat.le_of_not_lt hge, by rw [Nat.add_sub_cancel' hnum]; exact Nat.lt_of_not_le hlt⟩
  have hbody : u ∈ F.body b := (hF.grown b).subset (by rw [hg.body]; exact List.mem_append_right _ hmem)
  have hhead := (Draft.mem_heads.mp hu).2
  rw [(Draft.mem_body.mp hbody).2] at hhead
  cases hhead

/-- The code of an expression. -/
theorem Evaluates.passes {e : Expr params vars t} (he : Evaluates s f b ρ e g v)
    (hF : Completes g id params vars ρ F Γ ω) (hrep : Rep F params Γ ω args σ st) :
    ∃ st', Rep F params Γ ω args σ st' ∧ st'.env v = .lanes [e.eval args σ] ∧
      Passes F 0 (.last f b) st (.last g b) st' := by
  have hparams := (he.grown.later.grows.trans hF.grows).params
  have hold : Rep f params vars ρ args σ st :=
    (hrep.narrow hF.vars hF.spaces).of_params hparams.symm
  obtain ⟨st', hrun, hkeep, hval⟩ := he.runs F hF.grows st _ ⟨args, σ, hold, rfl⟩
  exact ⟨st', hrep.beside hF.decl hkeep (he.grown.heads hF.grows), hval,
    he.grown.passes hF.grows hrun⟩

/-! ## Assignments -/

/-- The instruction that writes a variable. -/
def storing (t : SType) (v a : ValueId) : Value :=
  { op := .store, type := .void, args := [.value v, .value a], aux := alignFor t.ty 0 }

theorem gives_storeVariable (hs : s.closed = false) (hf : Site f b)
    (ht : (f.value v).type = t.ty) :
    (storeVariable ⟨s.id, t, a⟩ (own s t v) 0 false).Gives (s.on f b) ()
      (s.on (f.appended b (storing t v a)) b) := by
  refine gives_sessionOf_one.bind (gives_unless (by simp) ?_)
  have henter : (enter s.id).Gives (s.on f b) () (s.on f b) := gives_enter (s := s.on f b)
  refine henter.bind (Gives.bind (a := .value f.numValues) (gives_typeOf.bind ?_) (gives_pure ()))
  rw [ht]
  exact gives_emit hs hf.pending

theorem fresh_storing (hv : f.Usable b v) (ha : a ∈ f.heads 0) (hop : (f.value a).op = .alloca)
    (hty : (f.value a).type = .ptr) : f.Fresh b (storing t v a) := by
  refine ⟨by simp [storing], by simp [storing], usable_two hv ⟨by rw [hop]; decide, .inl ha⟩, ?_⟩
  simp [storing, WellTyped, Op.isBinary, Op.isCast, operandType, hty]

/-- The state with a variable's space rewritten. -/
def written (st : regionInterp.State) (a : ValueId) (bs : List UInt8) : regionInterp.State :=
  { st with mem := { st.mem with bytes := Function.update st.mem.bytes a bs } }

theorem Rep.written {u : Variable} {r : UInt64} (h : Rep F params Γ ω args σ st)
    (hdecl : Declares F id params Γ ω) (hx : Γ[x]? = some t) (hu : ω[x]? = some u)
    (hr : t.ty.elemKind.cut r = r) :
    Rep F params Γ ω args (Function.update σ x r)
      (written st u.addr (leBytes t.ty.elemKind.size r)) where
  arg := h.arg
  var y t' v hy hv := by
    by_cases hyx : y = x
    · subst hyx
      obtain rfl : t = t' := Option.some.inj (hx.symm.trans hy)
      obtain rfl : u = v := Option.some.inj (hu.symm.trans hv)
      refine ⟨(h.var y t u hx hu).1, ?_, ?_⟩
      · simp [Build.written]
      · rwa [Function.update_self]
    · have hne : v.addr ≠ u.addr := fun heq => hyx (by
        have hmap : ∀ {z : Nat} {v : Variable}, ω[z]? = some v →
            (ω.map (·.addr))[z]? = some v.addr := fun hz => by rw [List.getElem?_map, hz]; rfl
        obtain ⟨hlt, hget⟩ := List.getElem?_eq_some_iff.mp (hmap hv)
        obtain ⟨hlt', hget'⟩ := List.getElem?_eq_some_iff.mp (hmap hu)
        exact (hdecl.nodup.getElem_inj_iff).mp (hget.trans (heq.trans hget'.symm)))
      rw [Function.update_of_ne hyx]
      refine ⟨(h.var y t' v hy hv).1, ?_, (h.var y t' v hy hv).2.2⟩
      simp only [Build.written, Function.update_of_ne hne]
      exact (h.var y t' v hy hv).2.1

theorem exec_storing {r : UInt64} {k : Kind} (hf : Site f b) (hx : f.Fresh b (storing t v a))
    (hF : GrowsTo (f.appended b (storing t v a)) F) (hv : st.env v = .lanes [r])
    (ha : st.env a = .region a) (hty : (f.value v).type = .scalar k)
    (hbytes : (st.mem.bytes a).length = k.size) :
    F.exec st f.numValues = .ok (written st a (leBytes k.size r)) := by
  have hstore := Regions.store_scalar (a := r) hbytes
  have hmeans : st.mem.exec? f.numValues (storing t v a).bare
      ((storing t v a).args.map f.operandType) ((storing t v a).args.map st.get) =
        some (.lanes [], (written st a (leBytes k.size r)).mem) := by
    simp [storing, Value.bare, operandType, hty, Interp.State.get, Interp.read, hv, ha,
      Regions.exec?, hstore, written]
  rw [exec_appended hf hx hF, Regions.perform_some (by simp [storing, Value.bare]) hmeans]
  rfl

/-! ## Ends of blocks in the finished function -/

/-- A block that does not exist yet computes nothing. -/
theorem body_new (h : f.numBlocks ≤ b) : f.body b = [] :=
  List.eq_nil_iff_forall_not_mem.mpr fun _ hv =>
    absurd (Draft.lt_of_mem_values (Draft.mem_body.mp hv).1) (Nat.not_lt.mpr h)

theorem kind_new (h : f.numBlocks ≤ b) : (f.block b).kind = .pending := by
  rw [block_of_le h]
  rfl

theorem last_of_nil (h : f.body b = []) : Place.last f b = .top b := by
  rw [Place.last, h]
  rfl

/-- A block that was given its end. -/
structure Ended (g F : Func) (c : BlockId) (kind : BlockKind) (control : Operand)
    (ts : List BlockId) : Prop where
  lt : c < F.numBlocks
  last : Place.last F c = .last g c
  kind : (F.block c).kind = kind
  control : (F.block c).control = control
  succs : (F.block c).succs = ts

theorem ended_of_closing {kind : BlockKind} {control : Operand} {ts : List BlockId}
    (hclose : g.Closing c kind control ts) (hg : g.Draft)
    (hF : GrowsTo (g.ended c kind control ts) F) : Ended g F c kind control ts := by
  have hblock := hclose.block (c := c) hg
  obtain ⟨hbody, hkind, hcontrol, hsuccs⟩ := hF.ended c (by
    rw [hblock]
    simpa using hclose.kind_ne)
  refine ⟨Nat.lt_of_lt_of_le (by simpa using hclose.lt) hF.numBlocks, ?_, ?_, ?_, ?_⟩
  · rw [Place.last, hbody, hclose.body hg, Place.last]
  · rw [hkind, hblock]
    simp
  · rw [hcontrol, hblock]
    simp
  · rw [hsuccs, hblock]
    simp

theorem Ended.goes {inv : Store → regionInterp.State → Prop}
    (h : Ended g F c .jump .missing [d]) (hF : F.Draft) : Goes F inv (.last g c) (.top d) :=
  fun _ st hinv => ⟨st, hinv, h.last ▸ passes_jump hF h.lt h.kind h.succs⟩

/-- A condition and the branch on it. -/
theorem Ended.tests {e : Expr params vars .bool} {k : Func} {yes no : BlockId}
    (h : Ended k F b .branch (.value v) [yes, no]) (hk : k.body b = g.body b)
    (he : Evaluates s f b ρ e g v) (hF : Completes g id params vars ρ F Γ ω) :
    Tests F (Rep F params Γ ω args) (.last f b) (e.eval args) (.top yes) (.top no) := by
  intro σ st hrep
  obtain ⟨st₁, hrep₁, hval, hpass₁⟩ := he.passes hF hrep
  have hlast : Place.last F b = .last g b := by rw [h.last, Place.last, Place.last, hk]
  have hpass₂ := passes_branch hF.draft h.lt h.kind h.succs h.control hval
  rw [hlast] at hpass₂
  exact ⟨st₁, hrep₁, hpass₁.trans hpass₂⟩

/-! ## Blocks for the parts of a statement -/

/-- The function with a block that ends in a jump to a new one. -/
def headed (f : Func) (b : BlockId) : Func := f.newBlock.1.ended b .jump .missing [f.numBlocks]

/-- The function with a block that ends in a branch to two new ones. -/
def forked (f : Func) (b : BlockId) (v : ValueId) : Func :=
  f.newBlock.1.newBlock.1.ended b .branch (.value v) [f.numBlocks, f.numBlocks + 1]

/-- A block beside the one that is given its end. -/
theorem Site.beside {kind : BlockKind} {control : Operand} {ts : List BlockId} (hf : Site f d)
    (hclose : f.Closing c kind control ts) (hne : d ≠ c) : Site (f.ended c kind control ts) d := by
  refine ⟨hclose.draft hf.draft, by simpa using hf.lt, ?_⟩
  rw [hclose.block hf.draft]
  simpa [hne] using hf.pending

theorem Site.newBlock (hf : Site f b) : Site f.newBlock.1 b :=
  ⟨hf.draft.newBlock, by simpa using Nat.lt_succ_of_lt hf.lt, by simpa using hf.pending⟩

theorem Site.ofNew (hf : f.Draft) : Site f.newBlock.1 f.numBlocks :=
  ⟨hf.newBlock, by simp, by rw [block_newBlock]; exact kind_new (Nat.le_refl _)⟩

/-- A jump to a block that is there. -/
theorem Site.closing (hf : Site f b) (hd : d < f.numBlocks) (hne : d ≠ 0) :
    f.Closing b .jump .missing [d] :=
  ⟨hf.lt, hf.pending, by simp [hd, hne], ⟨d, rfl⟩, rfl⟩

section headed

variable (hf : Site f b)
include hf

theorem closing_headed : f.newBlock.1.Closing b .jump .missing [f.numBlocks] :=
  hf.newBlock.closing (by simp) (Nat.ne_of_gt hf.draft.pos)

theorem later_headed : Later b f (headed f b) :=
  (Later.refl b f).newBlock.ended hf.draft.newBlock (.inl rfl) (closing_headed hf) (by simp)

theorem site_headed : Site (headed f b) f.numBlocks :=
  (Site.ofNew hf.draft).beside (closing_headed hf) (Nat.ne_of_gt hf.lt)

theorem body_headed : (headed f b).body f.numBlocks = [] := by
  rw [headed, (closing_headed hf).body hf.draft.newBlock, body_newBlock]
  exact body_new (Nat.le_refl _)

end headed

/-- The jump to the new block, in the finished function. -/
theorem goes_headed {inv : Store → regionInterp.State → Prop} (hf : Site f b) (hF : F.Draft)
    (hgrow : GrowsTo (headed f b) F) : Goes F inv (.last f b) (.top f.numBlocks) := by
  have hgoes : Goes F inv _ _ :=
    (ended_of_closing (closing_headed hf) hf.draft.newBlock hgrow).goes hF
  rwa [Place.last, body_newBlock] at hgoes

section forked

variable (hf : Site f b) (hv : Offered f b v .i1)
include hf hv

theorem closing_forked : f.newBlock.1.newBlock.1.Closing b .branch (.value v)
    [f.numBlocks, f.numBlocks + 1] := by
  have hpos := hf.draft.pos
  refine ⟨hf.newBlock.newBlock.lt, hf.newBlock.newBlock.pending, ?_, ⟨_, _, rfl⟩, v, rfl, ?_, ?_⟩
  · simp only [List.mem_cons, List.not_mem_nil, or_false, numBlocks_newBlock]
    rintro t (rfl | rfl)
    · exact ⟨Nat.ne_of_gt hpos, Nat.lt_succ_of_lt (Nat.lt_succ_self _)⟩
    · exact ⟨Nat.succ_ne_zero _, Nat.lt_succ_self _⟩
  · exact widens_newBlock.usable hf.draft.newBlock (widens_newBlock.usable hf.draft hv.usable)
  · simpa using hv.type

theorem later_forked : Later b f (forked f b v) :=
  (Later.refl b f).newBlock.newBlock.ended hf.draft.newBlock.newBlock (.inl rfl)
    (closing_forked hf hv) (by simp)

theorem site_forked_yes : Site (forked f b v) f.numBlocks :=
  (Site.ofNew hf.draft).newBlock.beside (closing_forked hf hv) (Nat.ne_of_gt hf.lt)

theorem site_forked_no : Site (forked f b v) (f.numBlocks + 1) := by
  have hnew := Site.ofNew hf.draft.newBlock
  rw [numBlocks_newBlock] at hnew
  exact hnew.beside (closing_forked hf hv) (Nat.ne_of_gt (Nat.lt_succ_of_lt hf.lt))

theorem body_forked (hd : f.numBlocks ≤ d) : (forked f b v).body d = [] := by
  rw [forked, (closing_forked hf hv).body hf.draft.newBlock.newBlock, body_newBlock, body_newBlock]
  exact body_new hd

theorem preds_forked_no : ((forked f b v).block (f.numBlocks + 1)).preds = [b] := by
  rw [forked, (closing_forked hf hv).block hf.draft.newBlock.newBlock, block_newBlock, block_newBlock,
    block_of_le (Nat.le_succ _)]
  have hnone : (default : Block).preds = [] := rfl
  simp [hnone]

end forked

/-- The condition and the branch, in the finished function. -/
theorem tests_forked {e : Expr params vars .bool} {g : Func} (hg : Site g b)
    (he : Evaluates s f b ρ e g v) (hF : Completes (forked g b v) id params vars ρ F Γ ω) :
    Tests F (Rep F params Γ ω args) (.last f b) (e.eval args) (.top g.numBlocks)
      (.top (g.numBlocks + 1)) := by
  have hend := ended_of_closing (closing_forked hg he.offered) hg.draft.newBlock.newBlock hF.grows
  refine hend.tests ?_ he (hF.earlier (later_forked hg he.offered).grows List.prefix_rfl
    List.prefix_rfl)
  rw [body_newBlock, body_newBlock]

/-- Building from a new block stays in new blocks. -/
theorem onward_new {n : BlockId} (h : g.Onward n c) (hfg : f.numBlocks ≤ g.numBlocks)
    (hn : f.numBlocks ≤ n) : f.Onward b c := by
  rcases h with rfl | h
  · exact .inr hn
  · exact .inr (Nat.le_trans hfg h)

/-- What was built up to block `c` left the empty block `d` as it was. -/
structure Spared (k : Func) (d : BlockId) (g : Func) (c : BlockId) : Prop where
  site : Site g d
  body : g.body d = []
  values : (g.block d).values = []
  preds : (g.block d).preds = (k.block d).preds
  ne : c ≠ d

theorem spared {k : Func} (hk : Site k d) (hzero : d ≠ 0) (hbody : k.body d = []) (hne : d ≠ b)
    (hg : g.Draft) (hlater : Later b k g) (honward : k.Onward b c) : Spared k d g c := by
  have hnil : g.body d = [] := (hlater.others _ hk.lt hne).2.trans hbody
  refine ⟨⟨hg, Nat.lt_of_lt_of_le hk.lt hlater.grows.numBlocks, hlater.pending hk.lt hne hk.pending⟩,
    hnil, (hg.values_eq hzero).trans hnil, hlater.preds _ hk.lt, ?_⟩
  rcases honward with rfl | h
  · exact Ne.symm hne
  · exact Nat.ne_of_gt (Nat.lt_of_lt_of_le hk.lt h)

end SsaJit.Build
