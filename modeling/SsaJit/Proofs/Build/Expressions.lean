import SsaJit.Proofs.Build.Operators

/-! What the builder makes of expressions. While a program is built, its function knows a parameter for
each of the program's and stack space for each of its variables; while the function runs, these hold
what the program's do. An expression is then built as instructions that compute its value. -/

namespace SsaJit.Build

open Func BuildM

variable {s : Session} {f g : Func} {b : BlockId} {v w a : ValueId} {t : SType} {k : Kind}
  {params vars : List SType} {ρ : List Variable} {args : Nat → UInt64} {σ : Store}
  {st st' : regionInterp.State} {c : SessionId} {n m x i : Nat}

/-- The function has the parameters of a program, and stack space for its variables. -/
structure Declares (f : Func) (c : SessionId) (params vars : List SType) (ρ : List Variable) :
    Prop where
  param : ∀ (i : Nat) (t : SType), params[i]? = some t → ∃ a, f.paramValues[i]? = some a ∧
    a ∈ f.heads 0 ∧ (f.value a).type = t.ty ∧ (f.value a).op = .param ∧ (f.value a).aux = Int64.ofNat i
  var : ∀ (x : Nat) (t : SType), vars[x]? = some t → ∃ a, ρ[x]? = some ⟨c, t, a⟩ ∧ t.isWord = true ∧
    a ∈ f.heads 0 ∧ (f.value a).op = .alloca ∧ (f.value a).type = .ptr ∧
    (f.value a).aux = Int64.ofNat t.ty.size
  length : ρ.length = vars.length
  nodup : (ρ.map (·.addr)).Nodup

namespace Declares

theorem grow (h : Declares f c params vars ρ) (hfg : GrowsTo f g) (hf : f.Draft) (hg : g.Draft) :
    Declares g c params vars ρ where
  param i t hi := by
    obtain ⟨a, ha, hhead, hval⟩ := h.param i t hi
    have hsame := hfg.value a (hf.value_lt (Draft.mem_heads.mp hhead).1)
    exact ⟨a, by rw [hfg.params, ha], hfg.mem_heads hf hg hhead, by rwa [hsame]⟩
  var x t hx := by
    obtain ⟨a, ha, hword, hhead, hval⟩ := h.var x t hx
    have hsame := hfg.value a (hf.value_lt (Draft.mem_heads.mp hhead).1)
    exact ⟨a, ha, hword, hfg.mem_heads hf hg hhead, by rwa [hsame]⟩
  length := h.length
  nodup := h.nodup

/-- The space of a variable. -/
theorem addr_mem (h : Declares f c params vars ρ) {v : Variable} (hv : v ∈ ρ) :
    v.addr ∈ f.heads 0 := by
  obtain ⟨x, hx, rfl⟩ := List.getElem_of_mem hv
  have hlt : x < vars.length := h.length ▸ hx
  obtain ⟨a, ha, -, hhead, -⟩ := h.var x _ (List.getElem?_eq_getElem hlt)
  rw [List.getElem?_eq_getElem hx] at ha
  rw [Option.some.inj ha]
  exact hhead

end Declares

/-- The parameters and the variables hold what the program's do. -/
structure Rep (f : Func) (params vars : List SType) (ρ : List Variable) (args : Nat → UInt64)
    (σ : Store) (st : regionInterp.State) : Prop where
  arg : ∀ (i : Nat) (t : SType) (a : ValueId), params[i]? = some t → f.paramValues[i]? = some a →
    t.isWord = true → st.env a = .lanes [args i] ∧ t.ty.elemKind.cut (args i) = args i
  var : ∀ (x : Nat) (t : SType) (v : Variable), vars[x]? = some t → ρ[x]? = some v →
    st.env v.addr = .region v.addr ∧ st.mem.bytes v.addr = leBytes t.ty.elemKind.size (σ x) ∧ t.ty.elemKind.cut (σ x) = σ x

namespace Rep

/-- What is computed beside them does not change them. -/
theorem beside (h : Rep f params vars ρ args σ st) (hdecl : Declares f c params vars ρ)
    (hkeep : Keeps n m st st') (hheads : ∀ u ∈ f.heads 0, u < n ∨ m ≤ u) :
    Rep f params vars ρ args σ st' where
  arg i t a hi ha ht := by
    obtain ⟨a', ha', hhead, -⟩ := hdecl.param i t hi
    obtain rfl : a' = a := Option.some.inj (ha'.symm.trans ha)
    rw [hkeep.others a' (hheads a' hhead)]
    exact h.arg i t a' hi ha ht
  var x t v hx hv := by
    rw [hkeep.others v.addr (hheads v.addr (hdecl.addr_mem (List.mem_of_getElem? hv))), hkeep.mem]
    exact h.var x t v hx hv

theorem keep (h : Rep f params vars ρ args σ st) (hdecl : Declares f c params vars ρ) (hf : f.Draft)
    (hkeep : Keeps f.numValues m st st') : Rep f params vars ρ args σ st' :=
  h.beside hdecl hkeep fun _ hu => .inl (hf.value_lt (Draft.mem_heads.mp hu).1)

/-- Of fewer variables. -/
theorem narrow {vars' : List SType} {ρ' : List Variable} (h : Rep f params vars' ρ' args σ st)
    (hvars : vars <+: vars') (hρ : ρ <+: ρ') : Rep f params vars ρ args σ st where
  arg := h.arg
  var x t v hx hv := by
    obtain ⟨rest, rfl⟩ := hvars
    obtain ⟨rest', rfl⟩ := hρ
    refine h.var x t v ?_ ?_
    · rw [List.getElem?_append_left (List.getElem?_eq_some_iff.mp hx).1, hx]
    · rw [List.getElem?_append_left (List.getElem?_eq_some_iff.mp hv).1, hv]

theorem of_params (h : Rep f params vars ρ args σ st) (hfg : g.paramValues = f.paramValues) :
    Rep g params vars ρ args σ st :=
  ⟨fun i t a hi ha => h.arg i t a hi (hfg ▸ ha), h.var⟩

end Rep

/-! ## Parameters, variables and literals -/

theorem Computes.wrap {act : BuildM Operand} {P : regionInterp.State → UInt64 → Prop}
    (h : Computes s f b act .value k g v P) (ht : t.ty = .scalar k) :
    Computes s f b (act >>= BuildM.wrap t) (own s t) k g v P :=
  ⟨h.gives.bind (gives_wrap (h.offered.type.trans ht.symm)), h.grown, h.offered, h.runs⟩

theorem computes_constant (hs : s.closed = false) (hf : Site f b) (ht : t.Word k) (w : UInt64) :
    ∃ g v, Computes s f b (constant t w) (own s t) k g v fun _ r => r = k.canon w := by
  obtain ⟨g, v, h⟩ := computes_constInt (k := k) hs hf w
  refine ⟨g, v, ?_⟩
  have hsplat : constSplat t.ty w = constInt (.scalar k) w := by rw [ht.ty]; rfl
  rw [constant, hsplat]
  exact h.wrap ht.ty

theorem computes_argument (hs : s.closed = false) (hf : Site f b)
    (hdecl : Declares f s.id params vars ρ) (hi : params[i]? = some t) (ht : t.Word k) :
    ∃ g v, Computes s f b (argument t i) (own s t) k g v fun st r =>
      ∃ a, f.paramValues[i]? = some a ∧ st.env a = .lanes [r] := by
  obtain ⟨a, ha, hhead, hty, hop, -⟩ := hdecl.param i t hi
  have hgives : (argument t i).Gives (s.on f b) (own s t a) (s.on f b) := by
    have hparam : f.param i = .ok a := by
      rw [Func.param, if_neg (by omega), Int.toNat_natCast]
      simp [Outcome.at?, ha]
    refine (gives_function hs).bind ?_
    rw [hparam]
    exact gives_lift.bind (gives_wrap hty)
  have hoffered : Offered f b a k := ⟨⟨by rw [hop]; decide, .inl hhead⟩, hty.trans ht.ty⟩
  refine ⟨f, a, (computes_there hf hgives hoffered).weaken fun st r hst => ?_⟩
  obtain ⟨a', ha', hr⟩ := hst
  obtain rfl : a = a' := Option.some.inj (ha.symm.trans ha')
  exact hr

/-- The instruction that reads a variable. -/
def loading (k : Kind) (a : ValueId) : Value :=
  { op := .load, type := .scalar k, args := [.value a], aux := alignFor (.scalar k) 0 }

theorem computes_loadVariable (hs : s.closed = false) (hf : Site f b)
    (hdecl : Declares f s.id params vars ρ) (hx : vars[x]? = some t) (ht : t.Word k) :
    ∃ g v, Computes s f b (loadVariable (ρ.getD x default) 0 false) (own s t) k g v fun st r =>
      ∃ u, ρ[x]? = some u ∧ st.env u.addr = .region u.addr ∧
        st.mem.bytes u.addr = leBytes k.size r ∧ k.cut r = r := by
  obtain ⟨a, ha, -, hhead, hop, hty, -⟩ := hdecl.var x t hx
  have hρ : ρ.getD x default = ⟨s.id, t, a⟩ := by simp [List.getD_eq_getElem?_getD, ha]
  have hfresh : f.Fresh b (loading k a) := by
    refine ⟨by simp [loading], by simp [loading], ?_, by simp [loading, WellTyped, operandType, hty,
      Op.isBinary, Op.isCast]⟩
    simp only [loading, List.mem_singleton]
    rintro o rfl
    exact ⟨a, rfl, by rw [hop]; decide, .inl hhead⟩
  have hemit := computes_emit hs hf hfresh (by simp [loading]) (by simp [loading]) rfl
  rw [hρ, loadVariable, ht.ty]
  refine ⟨_, _, Computes.weaken (hemit.into ht.ty) fun st r hst => ?_⟩
  obtain ⟨u, hu, hregion, hbytes, hcut⟩ := hst
  obtain rfl : ⟨s.id, t, a⟩ = u := Option.some.inj (ha.symm.trans hu)
  have hload := Regions.load_scalar ht.size_ne_zero hcut hbytes
  simp [loading, Value.bare, Interp.State.get, Interp.read, hregion, Regions.exec?, hload]

/-! ## Values fit -/

theorem BinOp.eval_fits {o : BinOp} (ht : t.Word k) (p q : UInt64) :
    k.cut (o.eval t p q) = o.eval t p q := by
  unfold BinOp.eval
  rw [ht.elemKind]
  exact Kind.cut_canon ht.size_ne_zero

theorem convertWord_fits {u : SType} (hu : u.Word k) (p : UInt64) :
    k.cut (convertWord t u p) = convertWord t u p := by
  unfold convertWord
  split
  case isTrue h =>
    obtain rfl : Kind.i1 = k := by rw [h] at hu; exact Ty.scalar.inj hu.ty
    split <;> rfl
  case isFalse =>
    rw [hu.elemKind]
    exact Kind.cut_canon hu.size_ne_zero

namespace Expr

theorem isWord {t : SType} (e : Expr params vars t) : t.isWord = true := by
  induction e with
  | literal _ ht _ | argument _ ht _ | read _ ht _ => exact ht
  | binary _ _ _ ih | neg _ ih | not _ ih | choose _ _ _ _ ih => exact ih
  | compare => rfl
  | convert _ hdest => exact (Bool.and_eq_true_iff.mp hdest).1

theorem word {t : SType} (e : Expr params vars t) : t.Word t.ty.elemKind := SType.word e.isWord

/-- The arguments and the variables fit their types. -/
structure Fit (params vars : List SType) (args : Nat → UInt64) (σ : Store) : Prop where
  arg : ∀ (i : Nat) (t : SType), params[i]? = some t → t.isWord = true →
    t.ty.elemKind.cut (args i) = args i
  var : ∀ (x : Nat) (t : SType), vars[x]? = some t → t.ty.elemKind.cut (σ x) = σ x

theorem eval_fits {t : SType} (e : Expr params vars t) (h : Fit params vars args σ) :
    t.ty.elemKind.cut (e.eval args σ) = e.eval args σ := by
  induction e with
  | literal t ht w => exact Kind.cut_canon (SType.word ht).size_ne_zero
  | argument i ht hi => exact h.arg i _ hi ht
  | read x ht hx => exact h.var x _ hx
  | binary o a b => exact BinOp.eval_fits a.word _ _
  | neg a | not a => exact Kind.cut_canon a.word.size_ne_zero
  | compare r a b =>
    unfold eval
    split <;> rfl
  | choose c a b _ iha ihb =>
    unfold eval
    split
    · exact ihb
    · exact iha
  | convert u hu a => exact convertWord_fits (SType.word (Bool.and_eq_true_iff.mp hu).1) _

end Expr

theorem Rep.fit (h : Rep f params vars ρ args σ st) (hdecl : Declares f c params vars ρ) :
    Expr.Fit params vars args σ where
  arg i t hi ht := by
    obtain ⟨a, ha, -⟩ := hdecl.param i t hi
    exact (h.arg i t a hi ha ht).2
  var x t hx := by
    obtain ⟨a, ha, -⟩ := hdecl.var x t hx
    exact (h.var x t _ hx ha).2.2

/-! ## Expressions -/

/-- The expression is built as instructions that compute its value in `v`. -/
def Evaluates (s : Session) (f : Func) (b : BlockId) (ρ : List Variable) (e : Expr params vars t)
    (g : Func) (v : ValueId) : Prop :=
  Computes s f b (e.build ρ) (own s t) t.ty.elemKind g v fun st r =>
    ∃ args σ, Rep f params vars ρ args σ st ∧ r = e.eval args σ

/-- Two expressions and an operation on them. -/
theorem Evaluates.andThen {u t' : SType} {e : Expr params vars t} {e' : Expr params vars u}
    {f₁ f₂ : Func} {op : Handle → Handle → BuildM Handle} {R : UInt64 → UInt64 → UInt64 → Prop}
    (hf : Site f b) (hdecl : Declares f s.id params vars ρ) (h₁ : Evaluates s f b ρ e f₁ v)
    (h₂ : Evaluates s f₁ b ρ e' f₂ w)
    (h₃ : Computes s f₂ b (op (own s t v) (own s u w)) (own s t') k g a fun st r => ∃ p q,
      st.env v = .lanes [p] ∧ st.env w = .lanes [q] ∧ u.ty.elemKind.cut q = q ∧ R p q r) :
    Computes s f b (do op (← e.build ρ) (← e'.build ρ)) (own s t') k g a fun st r =>
      ∃ args σ, Rep f params vars ρ args σ st ∧ R (e.eval args σ) (e'.eval args σ) r := by
  refine (Computes.andThen h₁ (Computes.andThen h₂ h₃)).weaken fun st r hst => ?_
  obtain ⟨args, σ, hrep, hr⟩ := hst
  refine ⟨_, ⟨args, σ, hrep, rfl⟩, fun st₁ k₁ r₁ => ?_⟩
  have hrep₁ := (hrep.keep hdecl hf.draft k₁).of_params h₁.grown.later.grows.params
  refine ⟨_, ⟨args, σ, hrep₁, rfl⟩, fun st₂ k₂ r₂ => ?_⟩
  have hv := (k₂.env v (h₁.offered.lt h₁.grown.site.draft)).trans r₁
  exact ⟨_, _, hv, r₂, e'.eval_fits (hrep.fit hdecl), hr⟩

theorem Expr.evaluates {t : SType} (e : Expr params vars t) (hs : s.closed = false)
    (hf : Site f b) (hdecl : Declares f s.id params vars ρ) :
    ∃ g v, Evaluates s f b ρ e g v := by
  induction e generalizing f with
  | literal t ht w =>
    obtain ⟨g, v, h⟩ := computes_constant hs hf (SType.word ht) w
    exact ⟨g, v, h.weaken fun st r ⟨args, σ, _, hr⟩ => hr⟩
  | argument i ht hi =>
    obtain ⟨g, v, h⟩ := computes_argument hs hf hdecl hi (SType.word ht)
    refine ⟨g, v, h.weaken fun st r hst => ?_⟩
    obtain ⟨args, σ, hrep, hr⟩ := hst
    obtain ⟨a, ha, -⟩ := hdecl.param i _ hi
    exact ⟨a, ha, by rw [hr]; exact (hrep.arg i _ a hi ha ht).1⟩
  | read x ht hx =>
    obtain ⟨g, v, h⟩ := computes_loadVariable hs hf hdecl hx (SType.word ht)
    refine ⟨g, v, h.weaken fun st r hst => ?_⟩
    obtain ⟨args, σ, hrep, hr⟩ := hst
    obtain ⟨a, ha, -⟩ := hdecl.var x _ hx
    exact ⟨_, ha, by rw [hr]; exact hrep.var x _ _ hx ha⟩
  | binary o e e' ih ih' =>
    obtain ⟨f₁, v₁, h₁⟩ := ih hf hdecl
    obtain ⟨f₂, v₂, h₂⟩ := ih' h₁.grown.site
      (hdecl.grow h₁.grown.later.grows hf.draft h₁.grown.site.draft)
    obtain ⟨f₃, v₃, h₃⟩ := computes_operate o hs h₂.grown.site e.word
      (h₁.offered.grow h₁.grown.site.draft h₂.grown) h₂.offered
    exact ⟨f₃, v₃, h₁.andThen hf hdecl h₂ h₃⟩
  | compare r e e' ih ih' =>
    obtain ⟨f₁, v₁, h₁⟩ := ih hf hdecl
    obtain ⟨f₂, v₂, h₂⟩ := ih' h₁.grown.site
      (hdecl.grow h₁.grown.later.grows hf.draft h₁.grown.site.draft)
    obtain ⟨f₃, v₃, h₃⟩ := computes_compare (r := r) hs h₂.grown.site e.word
      (h₁.offered.grow h₁.grown.site.draft h₂.grown) h₂.offered
    exact ⟨f₃, v₃, h₁.andThen hf hdecl h₂
      (h₃.weaken fun st w ⟨p, q, hp, hq, _, hw⟩ => ⟨p, q, hp, hq, hw⟩)⟩
  | neg e ih =>
    obtain ⟨f₁, v₁, h₁⟩ := ih hf hdecl
    obtain ⟨f₂, v₂, h₂⟩ := computes_neg hs h₁.grown.site e.word h₁.offered
    refine ⟨f₂, v₂, (Computes.andThen h₁ h₂).weaken fun st r hst => ?_⟩
    obtain ⟨args, σ, hrep, hr⟩ := hst
    exact ⟨_, ⟨args, σ, hrep, rfl⟩, fun st₁ _ r₁ => ⟨_, r₁, hr⟩⟩
  | not e ih =>
    obtain ⟨f₁, v₁, h₁⟩ := ih hf hdecl
    obtain ⟨f₂, v₂, h₂⟩ := computes_bitNot hs h₁.grown.site e.word h₁.offered
    refine ⟨f₂, v₂, (Computes.andThen h₁ h₂).weaken fun st r hst => ?_⟩
    obtain ⟨args, σ, hrep, hr⟩ := hst
    exact ⟨_, ⟨args, σ, hrep, rfl⟩, fun st₁ _ r₁ => ⟨_, r₁, hr⟩⟩
  | choose c e e' ihc ih ih' =>
    obtain ⟨f₁, v₁, h₁⟩ := ihc hf hdecl
    have hdecl₁ := hdecl.grow h₁.grown.later.grows hf.draft h₁.grown.site.draft
    obtain ⟨f₂, v₂, h₂⟩ := ih h₁.grown.site hdecl₁
    obtain ⟨f₃, v₃, h₃⟩ := ih' h₂.grown.site
      (hdecl₁.grow h₂.grown.later.grows h₁.grown.site.draft h₂.grown.site.draft)
    obtain ⟨f₄, v₄, h₄⟩ := computes_choose hs h₃.grown.site e.word
      (h₁.offered.grow h₁.grown.site.draft (h₂.grown.trans h₃.grown))
      (h₂.offered.grow h₂.grown.site.draft h₃.grown) h₃.offered
    refine ⟨f₄, v₄, (Computes.andThen h₁ (Computes.andThen h₂ (Computes.andThen h₃ h₄))).weaken
      fun st r hst => ?_⟩
    obtain ⟨args, σ, hrep, hr⟩ := hst
    refine ⟨_, ⟨args, σ, hrep, rfl⟩, fun st₁ k₁ r₁ => ?_⟩
    have hrep₁ := (hrep.keep hdecl hf.draft k₁).of_params h₁.grown.later.grows.params
    refine ⟨_, ⟨args, σ, hrep₁, rfl⟩, fun st₂ k₂ r₂ => ?_⟩
    have hrep₂ := (hrep₁.keep hdecl₁ h₁.grown.site.draft k₂).of_params h₂.grown.later.grows.params
    refine ⟨_, ⟨args, σ, hrep₂, rfl⟩, fun st₃ k₃ r₃ => ?_⟩
    have hv₁ := (k₂.trans k₃).env v₁ (h₁.offered.lt h₁.grown.site.draft)
    have hv₂ := k₃.env v₂ (h₂.offered.lt h₂.grown.site.draft)
    exact ⟨_, _, _, hv₁.trans r₁, hv₂.trans r₂, r₃, hr⟩
  | convert u hu e ih =>
    obtain ⟨f₁, v₁, h₁⟩ := ih hf hdecl
    have hword := SType.word (Bool.and_eq_true_iff.mp hu).1
    obtain ⟨f₂, v₂, h₂⟩ := computes_convert hs h₁.grown.site e.word hword hu h₁.offered
    refine ⟨f₂, v₂, (Computes.andThen h₁ h₂).weaken fun st r hst => ?_⟩
    obtain ⟨args, σ, hrep, hr⟩ := hst
    exact ⟨_, ⟨args, σ, hrep, rfl⟩, fun st₁ _ r₁ => ⟨_, r₁, e.eval_fits (hrep.fit hdecl), hr⟩⟩

end SsaJit.Build
