import SsaJit.Proofs.Exec.ControlFlow
import SsaJit.Proofs.Exec.Lanes
import SsaJit.Proofs.Pass.ConstProp
import SsaJit.Proofs.Pass.Facts

/-! Propagating constants leaves functions running as before. What the facts promise is said here without
a word on how they were learnt, `Facts.Sound`: it makes them true of every execution, and it stays when a
constant is entered, when a value gives way to a constant and when a branch becomes a jump. So each step
may rely on what was learnt before the first. -/

namespace SsaJit.Func

variable {W : World} {f g k : Func} {b c d : BlockId} {u v w a : ValueId} {o : Operand}
  {s t : Facts} {lanes : List UInt64} {i : Nat} {pre post : List ValueId}

/-! ## What facts promise -/

namespace Facts

/-- Where control may go from a block for all that is known. -/
def Goes (f : Func) (s : Facts) (b c : BlockId) : Prop :=
  b ∈ s.executable ∧ ∃ yes i, (f.block b).edge? yes = some i ∧ (f.block b).succs[i]? = some c ∧
    ((f.block b).kind = .branch → ∀ lanes, s.operand (f.block b).control = .const lanes →
      yes = (lanes.headD 0 != 0))

/-- What an instruction gives for all that is known of its operands. -/
def Gives (f : Func) (s : Facts) (v : ValueId) (lanes : List UInt64) : Prop :=
  ((f.value v).op = .const ∧ (f.value v).bare.constLanes.getD [] = lanes) ∨
    ∃ args : List (List UInt64), (f.value v).args.map s.operand = args.map .const ∧
      (f.value v).bare.eval? (f.argTypes (f.value v)) args = some lanes

/-- Facts that are borne out by the instructions, whatever ways control takes that they leave open. -/
structure Sound (f : Func) (s : Facts) : Prop where
  size : s.values.size = f.numValues
  noStore : ∀ v lanes, s.fact v = .const lanes → (f.value v).op ≠ .store
  mem : ∀ b ∈ s.executable, b ∈ f.layout
  start : f.start ∈ s.executable
  goes : ∀ b c, s.Goes f b c → c ∈ s.executable
  gives : ∀ b ∈ s.executable, ∀ v ∈ (f.block b).values, (f.value v).op ≠ .phi →
    ∀ lanes, s.fact v = .const lanes → s.Gives f v lanes
  brings : ∀ b ∈ s.executable, ∀ v ∈ (f.block b).values, (f.value v).op = .phi →
    ∀ lanes, s.fact v = .const lanes → ∀ x ∈ (f.value v).args.zip (f.block b).preds,
      s.Goes f x.2 b → s.operand x.1 = .const lanes

/-! ## What is learnt is sound -/

namespace Stable

/-- The ways that are left open are the ways that control may take. -/
theorem goes_ways (h : s.Stable f) (hf : f.Ssa) (hground : f.Grounded) (hgo : s.Goes f b c) :
    c ∈ s.ways f b := by
  obtain ⟨hb, yes, i, hedge, hc, hyes⟩ := hgo
  have hr := h.ok.executable b hb
  have hbl := hf.flow.reached_mem hr
  cases hk : (f.block b).kind with
  | jump =>
    rw [Facts.ways, feasible_jump hk]
    exact List.mem_of_getElem? hc
  | branch =>
    obtain ⟨one, two, hs⟩ := hf.branch_succs hbl hk
    obtain ⟨a, d, hctl, hd, hdom⟩ := hground.control b hbl hk
    have hknown : s.operand (f.block b).control ≠ .unknown := by
      rw [hctl]
      exact h.known_at_end hf hground hb hd (hdom hr)
    rw [Facts.ways, feasible_branch h.ok hf hbl hk hs]
    obtain rfl : (if yes then 0 else 1) = i := by simpa [Block.edge?, hk] using hedge
    cases hfact : s.operand (f.block b).control with
    | unknown => exact absurd hfact hknown
    | varies =>
      rw [hs] at hc
      exact List.mem_of_getElem? hc
    | const lanes =>
      rw [hyes hk lanes hfact, hs] at hc
      simp only
      generalize lanes.headD 0 = word at hc ⊢
      by_cases hz : word = 0
      · obtain rfl : two = c := by simpa [hz] using hc
        simp [hz]
      · obtain rfl : one = c := by simpa [hz] using hc
        simp [hz]
  | _ => simp [Block.edge?, hk] at hedge

/-- A value found constant says so itself. -/
theorem eval_of_const (h : s.Stable f) (hf : f.Ssa) (hground : f.Grounded) (hb : b ∈ s.executable)
    (hv : v ∈ (f.block b).values) (hphi : (f.value v).op ≠ .phi) (hfact : s.fact v = .const lanes) :
    s.eval f (f.value v) = .ok (.const lanes) := by
  have hr := h.ok.executable b hb
  have hbl := hf.flow.reached_mem hr
  obtain ⟨e, he, hle⟩ := h.settled b hb v hv
  rw [hfact] at hle
  rcases hle with rfl | rfl | hle
  · obtain ⟨a, ha, hunknown⟩ := eval_eq_unknown h.ok hf hbl hv hphi he
    obtain ⟨d, hd, hor⟩ := hground.arg b hbl v hv hphi a ha hr
    refine absurd hunknown (h.known_at_end hf hground hb hd ?_)
    rcases hor with ⟨rfl, -⟩ | ⟨-, hdom⟩
    · exact .refl _ _ _
    · exact hdom
  · exact he
  · cases hle

theorem isFoldable_of_fold {o : Operation} {args : List (List UInt64)} (hphi : o.op ≠ .phi)
    (hopen : opens o.op = false) (hr : o.fold args = .ok (some lanes)) : o.op.isFoldable = true := by
  cases hop : o.op with
  | phi => exact absurd hop hphi
  | param | load | store | call | alloca | intrinsic => rw [hop] at hopen; cases hopen
  | invalid =>
    have hnone : o.fold args = .ok none := by simp [Operation.fold, hop, Op.isBinary, Op.isCast]
    rw [hnone] at hr
    cases hr
  | _ => rfl

theorem gives (h : s.Stable f) (hf : f.Ssa) (hground : f.Grounded) (hb : b ∈ s.executable)
    (hv : v ∈ (f.block b).values) (hphi : (f.value v).op ≠ .phi) (hfact : s.fact v = .const lanes) :
    s.Gives f v lanes := by
  have hbl := hf.flow.reached_mem (h.ok.executable b hb)
  have he := h.eval_of_const hf hground hb hv hphi hfact
  by_cases hconst : (f.value v).op = .const
  · rw [eval_const hconst] at he
    exact .inl ⟨hconst, Fact.const.inj (Except.ok.inj he)⟩
  by_cases hopen : opens (f.value v).op = true
  · rw [eval_open hopen] at he
    cases he
  rw [eval_pure h.ok hf hbl hv hphi hconst (by simpa using hopen)] at he
  split at he
  · cases he
  cases hg : gather ((f.value v).args.map s.operand) with
  | error fact =>
    rw [hg] at he
    exact absurd (Except.ok.inj he) ((gather_spec.2 fact hg).2 lanes)
  | ok args =>
    rw [hg] at he
    obtain ⟨r, hr, he⟩ := Outcome.bind_eq_ok.mp he
    cases r with
    | none => cases he
    | some ls =>
      obtain rfl : ls = lanes := by simpa using he
      refine .inr ⟨args, gather_spec.1 args hg, Value.eval?_eq_some.mpr ⟨?_, hr⟩⟩
      exact isFoldable_of_fold (o := operationOf _ _) hphi (Bool.eq_false_iff.mpr hopen) hr

theorem sound (h : s.Stable f) (hf : f.Ssa) (hground : f.Grounded) : s.Sound f where
  size := h.ok.size
  noStore v lanes hv := (h.ok.fits v lanes hv).1
  mem b hb := hf.flow.reached_mem (h.ok.executable b hb)
  start := h.start
  goes b c hgo := h.ways b hgo.1 c (h.goes_ways hf hground hgo)
  gives b hb v hv hphi lanes hfact := h.gives hf hground hb hv hphi hfact
  brings b hb v hv hphi lanes hfact x hx hgo := by
    have hr := h.ok.executable x.2 hgo.1
    obtain ⟨a, d, ha, hd, hdom⟩ := hground.phi b
      (hf.flow.reached_mem (h.ok.executable b hb)) v hv hphi x hx
    have hle := h.le_phi hf hb hv hphi hx hgo.1 (h.goes_ways hf hground hgo)
    rw [hfact, ha] at hle
    rw [ha]
    rcases hle with hle | hle | hle
    · exact absurd hle (h.known_at_end hf hground hgo.1 hd (hdom hr))
    · exact hle
    · cases hle

end Stable

/-! ## Sound facts are true -/

/-- What a fact says of a value. -/
def Told (s : Facts) (v : ValueId) (env : ValueId → List UInt64) : Prop :=
  ∀ lanes, s.fact v = .const lanes → env v = lanes

namespace Sound

variable {st st' : W.interp.State}

theorem read_atEnd (h : s.Sound f) (hf : f.Ssa) (hr : f.Reached b)
    (hH : f.Holding s.Told b (f.block b).values st) (ho : f.AtEnd o b)
    (hfact : s.operand o = .const lanes) : st.get o = lanes := by
  obtain ⟨a, rfl⟩ := ho.isValue
  exact hH a (ho.known hf.listing hr (h.noStore a lanes hfact)) lanes hfact

/-- The way that control takes is one that was left open. -/
theorem goes_of_leave (h : s.Sound f) (hf : f.Ssa) (hb : b ∈ s.executable) (hr : f.Reached b)
    (hH : f.Holding s.Told b (f.block b).values st) {j : Nat}
    (hedge : (f.block b).edge? (W.interp.holds (st.get (f.block b).control)) = some i)
    (hfollow : f.follow b i = some (c, j)) : s.Goes f b c := by
  refine ⟨hb, _, i, hedge, (follow_eq_some.mp hfollow).1, fun hk lanes hfact => ?_⟩
  rw [h.read_atEnd hf hr hH (hf.branch_control (h.mem b hb) hk).2 hfact]

theorem reads (h : s.Sound f) (hf : f.Ssa) (hb : b ∈ f.layout) (hr : f.Reached b)
    (hvals : (f.block b).values = pre ++ u :: post) (hH : f.Holding s.Told b pre st)
    (hphi : (f.value u).op ≠ .phi) (hparam : (f.value u).op ≠ .param) {args : List (List UInt64)}
    (hargs : (f.value u).args.map s.operand = args.map .const) :
    (f.value u).args.map (W.interp.read st.env) = args := by
  have hu : u ∈ (f.block b).values := by rw [hvals]; simp
  rw [← List.forall₂_eq_eq_eq, List.forall₂_map_left_iff, List.forall₂_map_right_iff] at hargs
  rw [← List.forall₂_eq_eq_eq, List.forall₂_map_left_iff]
  refine ((List.forall₂_and_left _ _).mpr ⟨fun o ho => ho, hargs⟩).imp ?_
  rintro o ls ⟨ho, hfact⟩
  have hbefore := hf.before hb hu hphi hparam ho
  obtain ⟨a, rfl⟩ := hbefore.isValue
  exact hH a (hbefore.known hf.listing hb hr hvals (h.noStore a ls hfact)) ls hfact

/-- An instruction about which something is known does nothing but give the lanes known. -/
theorem exec_of_gives (h : s.Sound f) (hf : f.Ssa) (hb : b ∈ f.layout) (hr : f.Reached b)
    (hvals : (f.block b).values = pre ++ u :: post) (hH : f.Holding s.Told b pre st)
    (hphi : (f.value u).op ≠ .phi) (hgives : s.Gives f u lanes) :
    f.exec st u = .ok (st.assign u (f.value u).op (lanes, st.mem)) := by
  rcases hgives with ⟨hconst, rfl⟩ | ⟨args, hargs, hfold⟩
  · rw [exec, if_neg hphi, Interp.perform, if_pos (show (f.value u).bare.op = .const from hconst)]
    rfl
  · obtain ⟨-, hparam, -⟩ := Op.isFoldable_ne (Value.eval?_eq_some.mp hfold).1
    refine exec_of_makes ?_
    rw [Makes, show (f.value u).reads = (f.value u).args from if_neg hparam,
      h.reads hf hb hr hvals hH hphi hparam hargs]
    exact hfold

/-- While the function runs, control is in executable blocks and values are what the facts say. -/
theorem invariant (W : World) (h : s.Sound f) (hf : f.Ssa) :
    Invariant W.interp f (fun b => b ∈ s.executable ∧ f.Reached b) s.Told where
  reached b hb := hb.2
  start := ⟨h.start, .refl _ _⟩
  frame v _ env env' _ _ _ henv htold lanes hfact := (henv v (.inl rfl)) ▸ htold lanes hfact
  value b pre u post st st' hb hvals hphi hstore hH hx lanes hfact := by
    have hgives := h.gives b hb.1 u (by rw [hvals]; simp) hphi lanes hfact
    rw [h.exec_of_gives hf (h.mem b hb.1) hb.2 hvals hH hphi hgives] at hx
    obtain rfl := Except.ok.inj hx
    simp only [Interp.State.assign, if_neg hstore, Function.update_self]
  edge b st p hb hH hp := by
    obtain ⟨i, j, hedge, hfollow, -⟩ := leave_eq_ok hp
    exact ⟨h.goes b p.1 (h.goes_of_leave hf hb.1 hb.2 hH hedge hfollow),
      hb.2.step (follow_next hfollow)⟩
  phi b st p hb hH hp v hv hphi lanes hfact := by
    obtain ⟨i, j, hedge, hfollow, hp2⟩ := leave_eq_ok hp
    have hgo := h.goes_of_leave hf hb.1 hb.2 hH hedge hfollow
    have hcx := h.goes b p.1 hgo
    obtain ⟨a, harg, -, hend⟩ := hf.phi_arg (h.mem _ hcx) hv hphi hfollow
    have hmem : (.value a, b) ∈ (f.value v).args.zip (f.block p.1).preds :=
      List.mem_of_getElem? (i := j)
        (List.getElem?_zip_eq_some.mpr ⟨harg, (follow_eq_some.mp hfollow).2.1⟩)
    have hread := h.read_atEnd hf hb.2 hH hend (h.brings _ hcx v hv hphi lanes hfact _ hmem hgo)
    rw [hp2, enter_phi hv hphi, List.getD_eq_getElem?_getD, harg]
    exact hread

end Sound

/-! ## Each step keeps facts sound -/

theorem Goes.transfer (h : t.Goes g b c) (hx : t.executable = s.executable)
    (hkind : (g.block b).kind = (f.block b).kind) (hsuccs : (g.block b).succs = (f.block b).succs)
    (hctl : (f.block b).kind = .branch →
      t.operand (g.block b).control = s.operand (f.block b).control) : s.Goes f b c := by
  obtain ⟨hb, yes, i, hedge, hc, hyes⟩ := h
  rw [Block.edge?, hkind] at hedge
  rw [hsuccs] at hc
  exact ⟨hx ▸ hb, yes, i, hedge, hc, fun hk lanes hfact =>
    hyes (hkind.trans hk) lanes ((hctl hk).trans hfact)⟩

theorem Gives.transfer (h : s.Gives f v lanes) (hbare : (g.value v).bare = (f.value v).bare)
    (hargs : (f.value v).op.isFoldable = true →
      (g.value v).args.map t.operand = (f.value v).args.map s.operand ∧
        g.argTypes (g.value v) = f.argTypes (f.value v)) : t.Gives g v lanes := by
  rcases h with ⟨hconst, hl⟩ | ⟨args, hfacts, hfold⟩
  · refine .inl ⟨?_, hbare ▸ hl⟩
    change (g.value v).bare.op = .const
    rw [hbare]
    exact hconst
  · obtain ⟨hmap, htypes⟩ := hargs (Value.eval?_eq_some.mp hfold).1
    exact .inr ⟨args, hmap.trans hfacts, by rw [hbare, htypes]; exact hfold⟩

theorem operand_and (hsize : s.values.size = f.numValues)
    (ho : ∀ a, o = .value a → a ≠ f.numValues) : (s.and lanes).operand o = s.operand o := by
  cases o with
  | value a =>
    change (s.and lanes).fact a = s.fact a
    rw [fact_and, hsize, if_neg (ho a rfl)]
  | missing => rfl
  | foreign k => rfl

theorem operand_swap (h : s.fact w = s.fact v) :
    s.operand (swap (.value v) (.value w) o) = s.operand o := by
  unfold swap
  split
  · next heq =>
    rw [heq]
    exact h
  · rfl

namespace Sound

section inserted

variable {ty : Ty} (h : s.Sound f) (hf : f.Ssa)
include h hf

theorem goes_of_inserted (hb : b ∈ f.layout)
    (hgo : (s.and lanes).Goes (f.inserted b i (constOf ty lanes)) c d) : s.Goes f c d := by
  have hlt := hf.flow.lt b hb
  refine hgo.transfer rfl (end_inserted hlt).1 ((sameGraph_inserted hlt).succs c) fun hk => ?_
  rw [(end_inserted hlt).2]
  exact operand_and h.size fun a ha => (ha ▸ (hf.branch_control (h.mem c hgo.1) hk).2).ne_numValues

/-- What gave an older value still does. -/
theorem gives_inserted {ls : List UInt64} (hc : c ∈ f.layout) (hv : v ∈ (f.block c).values)
    (hphi : (f.value v).op ≠ .phi) (hgives : s.Gives f v ls) :
    (s.and lanes).Gives (f.inserted b i (constOf ty lanes)) v ls := by
  have hval : (f.inserted b i (constOf ty lanes)).value v = f.value v := by
    rw [value_inserted, if_neg (Nat.ne_of_lt (hf.listing.lt hc hv))]
  refine hgives.transfer (by rw [hval]) fun hfold => ?_
  have hne : ∀ o ∈ (f.value v).args, ∀ a, o = .value a → a ≠ f.numValues := by
    rintro _ ho a rfl
    exact (hf.before hc hv hphi (Op.isFoldable_ne hfold).2.1 ho).ne_numValues
  rw [hval]
  exact ⟨List.map_congr_left fun o ho => operand_and h.size (hne o ho),
    List.map_congr_left fun o ho => operandType_inserted (hne o ho)⟩

omit h hf in
theorem gives_new (hfit : ty.Fits lanes) :
    (s.and lanes).Gives (f.inserted b i (constOf ty lanes)) f.numValues lanes := by
  rw [Gives, value_inserted, if_pos rfl]
  refine .inl ⟨constOf_op, ?_⟩
  change (constOf ty lanes).constLanes.getD [] = lanes
  rw [constLanes_constOf hfit.1, hfit.map_canon]
  rfl

/-- A new constant of which the lanes are known. -/
theorem inserted (hb : b ∈ f.layout) (hi : i ≤ (f.block b).values.length) (hfit : ty.Fits lanes) :
    (s.and lanes).Sound (f.inserted b i (constOf ty lanes)) := by
  have hlt := hf.flow.lt b hb
  have hgraph : SameGraph f (f.inserted b i (constOf ty lanes)) := sameGraph_inserted hlt
  have hold : ∀ {v ls}, v ≠ f.numValues → (s.and lanes).fact v = .const ls → s.fact v = .const ls :=
    fun hne hv => by rwa [fact_and, h.size, if_neg hne] at hv
  exact {
    size := by
      rw [numValues_inserted, ← h.size]
      simp [Facts.and]
    noStore v ls hv := by
      rw [value_inserted]
      split
      · simp
      · next hne => exact h.noStore v ls (hold hne hv)
    mem c hc := hgraph.layout ▸ h.mem c hc
    start := hgraph.start ▸ h.start
    goes c d hgo := h.goes c d (goes_of_inserted h hf hb hgo)
    gives c hc v hv hphi ls hfact := by
      by_cases hvn : v = f.numValues
      · subst hvn
        rw [fact_and, h.size, if_pos rfl] at hfact
        obtain rfl := Fact.const.inj hfact
        exact gives_new hfit
      · have hv := mem_of_mem_inserted hlt hi hv hvn
        rw [value_inserted, if_neg hvn] at hphi
        exact gives_inserted h hf (h.mem c hc) hv hphi (h.gives c hc v hv hphi ls (hold hvn hfact))
    brings c hc v hv hphi ls hfact x hx hgo := by
      have hvn : v ≠ f.numValues := by
        rintro rfl
        rw [value_inserted, if_pos rfl] at hphi
        simp at hphi
      rw [value_inserted, if_neg hvn] at hphi hx
      rw [hgraph.preds] at hx
      have hv := mem_of_mem_inserted hlt hi hv hvn
      have hend := ((hf.phis c (h.mem c hc) v hv hphi).2 x hx).2
      rw [operand_and h.size fun a ha => (ha ▸ hend).ne_numValues]
      exact h.brings c hc v hv hphi ls (hold hvn hfact) x hx (goes_of_inserted h hf hb hgo) }

end inserted

/-- A constant in place of a value that has its lanes. -/
theorem replaceValue (h : s.Sound f) (hf : f.Ssa) (hb : b ∈ f.layout) (hv : v ∈ (f.block b).values)
    (hc : f.Covers w v) (hsame : s.fact w = s.fact v) : s.Sound (f.replaceValue v (.value w)) := by
  have hkeeps := Keeps.replaceValue hf hb hv hc
  have hgoes : ∀ {c d}, s.Goes (f.replaceValue v (.value w)) c d → s.Goes f c d := by
    intro c d hgo
    have hcl : c ∈ f.layout := h.mem c hgo.1
    obtain ⟨hctl, hkind⟩ := control_replaceValue (w := w) hf hb hv hcl
    refine hgo.transfer rfl hkind (hkeeps.graph.succs c) fun _ => ?_
    rw [hctl, operand_swap hsame]
  have hold : ∀ {c x}, c ∈ f.layout → x ∈ ((f.replaceValue v (.value w)).block c).values →
      x ∈ (f.block c).values ∧ (f.replaceValue v (.value w)).value x = { f.value x with
        args := (f.value x).args.map (swap (.value v) (.value w)),
        block := if x = v then none else (f.value x).block } := fun hcl hx =>
    have hx := mem_of_mem_replaceValue hf hb hv hx
    ⟨hx, value_replaceValue_of_mem hf hb hv hcl hx⟩
  refine ⟨h.size.trans (numValues_replaceValue hf hb hv).symm, fun x ls hx => ?_,
    fun c hcx => hkeeps.graph.layout ▸ h.mem c hcx, hkeeps.graph.start ▸ h.start,
    fun c d hgo => h.goes c d (hgoes hgo), fun c hcx x hx hphi ls hfact => ?_,
    fun c hcx x hx hphi ls hfact y hy hgo => ?_⟩
  · obtain ⟨a, ha⟩ := replaceValue_head (w := w) hf hb hv x
    rw [ha]
    exact h.noStore x ls hx
  · obtain ⟨hx, hval⟩ := hold (h.mem c hcx) hx
    rw [hval] at hphi
    refine (h.gives c hcx x hx hphi ls hfact).transfer (by rw [hval]; rfl) fun _ => ?_
    rw [hval]
    simp only [argTypes, List.map_map]
    exact ⟨List.map_congr_left fun o _ => operand_swap hsame,
      List.map_congr_left fun o _ => (operandType_replaceValue hf hb hv).trans hc.operandType_swap⟩
  · obtain ⟨hx, hval⟩ := hold (h.mem c hcx) hx
    rw [hval] at hphi hy
    rw [hkeeps.graph.preds, List.zip_map_left] at hy
    obtain ⟨z, hz, rfl⟩ := List.mem_map.mp hy
    exact (operand_swap hsame).trans (h.brings c hcx x hx hphi ls hfact z hz (hgoes hgo))

/-- A jump in place of a branch on a condition of which the lanes are known. -/
theorem folded {keep drop : BlockId} (h : s.Sound f) (hf : f.Ssa)
    (hfold : BranchFolded f g b (edgeOf lanes) keep drop i) (hb : b ∈ f.layout)
    (hkind : (f.block b).kind = .branch) (hfact : s.operand (f.block b).control = .const lanes) :
    s.Sound g := by
  have hgoes : ∀ {c d}, s.Goes g c d → s.Goes f c d := by
    intro c d hgo
    by_cases hcb : c = b
    · -- the jump goes where the known condition sends the branch
      subst hcb
      obtain ⟨hx, yes, n, hedge, hd, -⟩ := hgo
      obtain rfl : 0 = n := by simpa [Block.edge?, hfold.jump.1] using hedge
      obtain rfl : keep = d := by simpa [hfold.jump.2.2] using hd
      refine ⟨hx, lanes.headD 0 != 0, _, by rw [Block.edge?, hkind], ?_, fun _ ls hls => ?_⟩
      · have hkept := hfold.kept
        unfold edgeOf at hkept
        simpa using hkept
      · rw [hfact] at hls
        obtain rfl := Fact.const.inj hls
        rfl
    · obtain ⟨hk, hctl, hsuccs⟩ := hfold.others c hcb
      exact hgo.transfer rfl hk hsuccs fun _ => by rw [hctl]
  refine ⟨h.size.trans hfold.numValues.symm, fun v ls hv => hfold.op ▸ h.noStore v ls hv,
    fun c hc => hfold.layout ▸ h.mem c hc, hfold.start ▸ h.start, fun c d hgo => h.goes c d (hgoes hgo),
    fun c hc v hv hphi ls hls => ?_, fun c hc v hv hphi ls hls x hx hgo => ?_⟩
  · rw [hfold.values] at hv
    rw [hfold.op] at hphi
    have hval : g.value v = f.value v := by rw [hfold.value, if_neg fun hin => hphi hin.2]
    refine (h.gives c hc v hv hphi ls hls).transfer (by rw [hval]) fun _ => ?_
    rw [hval]
    exact ⟨rfl, List.map_congr_left fun o _ => hfold.operandType⟩
  · rw [hfold.values] at hv
    rw [hfold.op] at hphi
    refine h.brings c hc v hv hphi ls hls x ?_ (hgoes hgo)
    have hdrop := hf.flow.succs_mem b hb drop (List.mem_of_getElem? hfold.dropped)
    by_cases hcd : c = drop
    · subst hcd
      rw [hfold.value, if_pos ⟨hv, hphi⟩, hfold.preds, if_pos rfl, zip_eraseIdx] at hx
      exact List.mem_of_mem_eraseIdx hx
    · rwa [hfold.value, if_neg fun hin => hcd (hf.listing.unique (h.mem c hc) hdrop hv hin.1),
        hfold.preds, if_neg hcd] at hx

end Sound

/-! ## Each step leaves the function running as before -/

namespace Sound

/-- A constant in place of a value: wherever control comes, both have the lanes that are known. -/
theorem replaceValue_alike (W : World) (h : s.Sound f) (hf : f.Ssa) (hb : b ∈ f.layout)
    (hv : v ∈ (f.block b).values) (hne : w ≠ v) (hc : f.Covers w v)
    (hconst : s.fact v = .const lanes) (hsame : s.fact w = .const lanes) :
    Alike W.interp f (f.replaceValue v (.value w)) := by
  refine ((h.invariant W hf).lockstep_replaceValue hf hb hv hne hc (h.noStore v lanes hconst)
    (fun c pre st _ hH hkv hkw => ?_) fun pre post st hlive hvals hH => ?_).alike
  · rw [hH v hkv lanes hconst, hH w (hkw (h.noStore w lanes hsame)) lanes hsame]
  · by_cases hphi : (f.value v).op = .phi
    · exact ⟨st, by rw [exec, if_pos hphi], rfl⟩
    · exact ⟨_, h.exec_of_gives hf hb hlive.2 hvals hH hphi
        (h.gives b hlive.1 v hv hphi lanes hconst), rfl⟩

/-- A jump in place of a branch: if control comes there, the condition has the lanes that are known. -/
theorem folded_alike (W : World) {keep drop : BlockId} (h : s.Sound f) (hf : f.Ssa)
    (hfold : BranchFolded f g b (edgeOf lanes) keep drop i) (hb : b ∈ f.layout)
    (hkind : (f.block b).kind = .branch) (hconst : s.operand (f.block b).control = .const lanes) :
    Alike W.interp f g := by
  refine hfold.alike_of_way (h.invariant W hf) hf hb hkind fun st hlive hH => ?_
  obtain ⟨j, hj⟩ := hf.flow.follow hb hfold.kept
  refine ⟨edgeOf lanes, keep, j, j, ?_, hj, hj, fun _ _ _ => rfl⟩
  rw [h.read_atEnd hf hlive.2 hH (hf.branch_control hb hkind).2 hconst, Block.edge?, hkind]
  simp [edgeOf]

end Sound
end Facts

open Facts

theorem Puts.alike (W : World) (h : Puts f s g t) (hf : f.Ssa) (hs : s.Sound f) :
    Alike W.interp f g ∧ t.Sound g := by
  cases h with
  | insert b i ty lanes hb hi _ hfit _ =>
    exact ⟨(lockstep_inserted hf hb hi constOf_op).alike, hs.inserted hf hb hi hfit⟩
  | replace b v c lanes hb hv _ hne _ hcover hfact hsame =>
    exact ⟨hs.replaceValue_alike W hf hb hv hne hcover hfact hsame,
      hs.replaceValue hf hb hv hcover (hsame.trans hfact.symm)⟩
  | fold b lanes _ keep drop i hb hkind hfact hfold =>
    exact ⟨hs.folded_alike W hf hfold hb hkind hfact, hs.folded hf hfold hb hkind hfact⟩

theorem PutsAll.alike (W : World) {x y : Func × Facts} (h : PutsAll x y) (hf : x.1.Fit)
    (hs : x.2.Sound x.1) : Alike W.interp x.1 y.1 := by
  suffices Alike W.interp x.1 y.1 ∧ y.1.Fit ∧ y.2.Sound y.1 from this.1
  induction h with
  | refl => exact ⟨.refl x.1, hf, hs⟩
  | tail _ hstep ih =>
    obtain ⟨halike, hfit, hsound⟩ := ih
    obtain ⟨hnext, hsound⟩ := hstep.alike W hfit.ssa hsound
    exact ⟨halike.trans hnext, hstep.fit hfit, hsound⟩

/-! ## The whole function -/

/-- Propagating constants comes to an answer. It stops learning when nothing new can be learnt; then
control comes only to executable blocks, values found constant are what they were found to be whenever
they can be read, and of no value of an executable block nothing is known. The function runs as before. -/
theorem propagateConstants_alike (W : World) (h : f.Consistent) (hconsts : f.ConstsFit)
    (htypes : f.TypesValid) : ∃ s g ch, f.facts = .ok s ∧ f.propagateConstants = .ok (g, ch) ∧
      (∀ b ∈ f.layout, s.visit f b = .ok (s, false)) ∧
      (∀ (s₀ : W.interp.State) n b pre st, f.Sees s₀ n b pre st → b ∈ s.executable ∧
        ∀ v, f.Known b pre v → ∀ lanes, s.fact v = .const lanes → st.env v = lanes) ∧
      (∀ b ∈ s.executable, ∀ v ∈ (f.block b).values, s.fact v ≠ .unknown) ∧
      Alike W.interp f g := by
  have hfit : f.Fit := ⟨h.ssa, hconsts, htypes⟩
  obtain ⟨s, r, k, g, ch, live, hs, hstable, hg, hsteps, hk, hlive, htrim⟩ :=
    propagateConstants_steps hfit
  have hsound := hstable.sound h.ssa h.grounded
  refine ⟨s, g, ch, hs, hg, fun b hb => hstable.visit h.ssa hb, fun s₀ n b pre st hsees => ?_,
    fun b hb => hstable.known h.ssa h.grounded hb,
    (hsteps.alike W hfit hsound).trans (htrim.alike hk.ssa hlive)⟩
  obtain ⟨hb, hH⟩ := (hsound.invariant W h.ssa).sees h.ssa hsees
  exact ⟨hb.1, fun v hv => hH v hv⟩

/-- A loop that keeps a number at zero: the branch in its body that would change it always goes the
other way. -/
def stuckAtZero : Func where
  name := "stuckAtZero"
  ret := .i32
  params := [.i32]
  values := #[
    { op := .param, type := .i32, block := some 0 },
    { op := .const, type := .i32, block := some 0 },
    { op := .phi, type := .i32, block := some 1, args := [.value 1, .value 9] },
    { op := .const, type := .i32, block := some 1, aux := 100 },
    { op := .icmp, type := .i1, block := some 1, args := [.value 0, .value 3], aux := 2 },
    { op := .const, type := .i32, block := some 2 },
    { op := .icmp, type := .i1, block := some 2, args := [.value 2, .value 5], aux := 1 },
    { op := .const, type := .i32, block := some 3, aux := 1 },
    { op := .add, type := .i32, block := some 3, args := [.value 2, .value 7] },
    { op := .phi, type := .i32, block := some 4, args := [.value 2, .value 8] }]
  blocks := #[
    { values := [0, 1], kind := .jump, succs := [1] },
    { values := [2, 3, 4], kind := .branch, control := .value 4, succs := [2, 5], preds := [0, 4] },
    { values := [5, 6], kind := .branch, control := .value 6, succs := [3, 4], preds := [1] },
    { values := [7, 8], kind := .jump, succs := [4], preds := [2] },
    { values := [9], kind := .jump, succs := [1], preds := [2, 3] },
    { kind := .ret, control := .value 2, preds := [1] }]
  layout := [0, 1, 2, 3, 4, 5]
  paramValues := [0]

/-- The block that would change the number goes, and a constant is returned. -/
theorem propagateConstants_alike_stuckAtZero : stuckAtZero.Consistent ∧ stuckAtZero.ConstsFit ∧
    stuckAtZero.TypesValid ∧ ∃ s g ch, stuckAtZero.facts = .ok s ∧
      stuckAtZero.propagateConstants = .ok (g, ch) ∧ Alike World.zeros.interp stuckAtZero g ∧
      s.executable = [4, 5, 2, 1, 0] ∧ g.layout = [0, 1, 2, 4, 5] ∧
      ((g.block 5).control, (g.value 10).constLanes) = (.value 10, some [0]) := by
  have hcons : stuckAtZero.Consistent := by decide +kernel
  have hconsts : stuckAtZero.ConstsFit := by decide +kernel
  have htypes : stuckAtZero.TypesValid := by decide +kernel
  obtain ⟨s, g, ch, hs, hg, -, -, -, halike⟩ :=
    propagateConstants_alike World.zeros hcons hconsts htypes
  have hlearnt : stuckAtZero.facts.toOption.map (·.executable) = some [4, 5, 2, 1, 0] := by
    decide +kernel
  have hrun : stuckAtZero.propagateConstants.toOption.map (fun r => (r.1.layout,
      ((r.1.block 5).control, (r.1.value 10).constLanes))) =
        some ([0, 1, 2, 4, 5], (.value 10, some [0])) := by decide +kernel
  rw [hs] at hlearnt
  rw [hg] at hrun
  obtain ⟨hlayout, hcontrol⟩ := Prod.mk.inj (Option.some.inj hrun)
  exact ⟨hcons, hconsts, htypes, s, g, ch, hs, hg, halike, Option.some.inj hlearnt, hlayout, hcontrol⟩

/-- A constant with more bits than its type, and a copy of it. -/
def overfull : Func where
  name := "overfull"
  ret := .i8
  params := []
  values := #[
    { op := .const, type := .i8, block := some 0, aux := 0x1FF },
    { op := .copy, type := .i8, block := some 0, args := [.value 0] }]
  blocks := #[{ values := [0, 1], kind := .ret, control := .value 1 }]
  layout := [0]

/-- A lane taken out of a vector whose lanes are themselves vectors. -/
def nested : Func where
  name := "nested"
  ret := .void
  params := []
  values := #[
    { op := .const, type := .vec .vector 2, block := some 0, lanes := some [0, 0] },
    { op := .extract, type := .vec .void 0, block := some 0, args := [.value 0] }]
  blocks := #[{ values := [0, 1], kind := .ret }]
  layout := [0]

/-- The verifier looks neither at the bits of constants nor at the kinds of lanes. A constant that does
not fit is cut when it is put for its copy, and the result changes; and a lane that is a vector has no
place among the lanes of a result. -/
theorem propagateConstants_unfit : (overfull.Consistent ∧ ∃ g ch,
      overfull.propagateConstants = .ok (g, ch) ∧ ∃ s : World.zeros.interp.State,
        overfull.Ends (overfull.start, s) (.returned (some [0x1FF]) ()) ∧
          g.Ends (g.start, s) (.returned (some [0xFF]) ())) ∧
    nested.Consistent ∧ nested.propagateConstants = Outcome.crash .outOfRange := by
  refine ⟨⟨by decide +kernel, _, _, rfl, ⟨fun _ => [], ()⟩, ⟨1, ?_⟩, ⟨1, ?_⟩⟩, by decide +kernel, ?_⟩
  all_goals rfl

end SsaJit.Func
