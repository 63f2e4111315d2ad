import SsaJit.Proofs.Exec.Pure
import SsaJit.Proofs.Pass.Hoist
import SsaJit.Proofs.Ssa.Form

/-! Moving invariants out of loops leaves functions running as before. A value that is moved is computed
in front of the loop even if control never comes to where it stood, so computing it must always succeed;
and where it was read it has, in both functions, what its operation makes of its operands. -/

namespace SsaJit

/-- Operations that give a result whatever their operands are. -/
def Op.isTotal : Op → Bool
  | .const | .globalAddr | .add | .sub | .mul | .fadd | .fsub | .fmul | .fdiv | .fmin | .fmax
  | .fsqrt | .fneg | .and | .or | .xor | .shl | .lshr | .ashr | .icmp | .fcmp | .trunc | .zext
  | .sext | .fptosi | .fptoui | .sitofp | .uitofp | .bitcast | .ptrtoint | .inttoptr | .gep
  | .extract | .insert | .shuffle | .select | .intrinsic | .copy | .other _ => true
  | .invalid | .param | .sdiv | .udiv | .srem | .urem | .alloca | .load | .store | .call
  | .phi => false

/-- Pure operations are total but for those that trap. -/
theorem Op.isTotal_of_pure {y : Value} (hpure : y.isPure = true)
    (htrap : y.op.isTrapping = false) : y.op.isTotal = true ∧ y.volatile = false := by
  unfold Value.isPure at hpure
  cases hop : y.op <;> simp_all [isTotal, isTrapping]

/-- Total operations are functions of their operands: they neither stop nor look at memory nor change
it. -/
def Interp.Calm (I : Interp) : Prop :=
  ∀ v y ts, y.op.isTotal = true → y.volatile = false →
    ∃ R : List I.Val → I.Val, ∀ xs m, I.exec v y ts xs m = .ok (R xs, m)

/-- A world whose own total operations are functions of their operands. -/
theorem World.calm {W : World} (h : ∀ v y ts, y.op.isTotal = true → y.volatile = false →
    ∃ R : List (List UInt64) → List UInt64, ∀ xs m, W.exec v y ts xs m = .ok (R xs, m)) :
    W.interp.Calm := by
  intro v y ts htotal hvol
  obtain ⟨R, hR⟩ := h v y ts htotal hvol
  refine ⟨fun xs => (y.eval? ts xs).getD (R xs), fun xs m => ?_⟩
  simp only [interp]
  cases y.eval? ts xs with
  | some r => rfl
  | none => exact hR xs m

/-- What stays in its place: accesses of memory, calls, phis, slots and divisions. -/
def Value.isFixed (y : Value) : Bool :=
  y.volatile || match y.op with
    | .load | .store | .call | .phi | .alloca | .sdiv | .udiv | .srem | .urem => true
    | _ => false

namespace Func

variable {I : Interp} {f g : Func} {b c d pre : BlockId} {u v a : ValueId} {s t : I.State}
  {part : List ValueId} {R : List I.Val → I.Val}

/-! ## Values that can be computed anywhere -/

theorem exists_computes (hI : I.Calm) (htotal : (f.value v).op.isTotal = true)
    (hvol : (f.value v).volatile = false) :
    ∃ R : List I.Val → I.Val, Computes I f v fun xs => .ok (R xs) := by
  have hphi : (f.value v).op ≠ .phi := by rintro heq; simp [heq, Op.isTotal] at htotal
  have hstore : (f.value v).op ≠ .store := by rintro heq; simp [heq, Op.isTotal] at htotal
  by_cases hconst : (f.value v).op = .const
  · exact ⟨fun _ => I.const (f.value v).bare, computes_of_exec hphi hstore (fun _ _ => rfl)
      fun h => absurd hconst h⟩
  · obtain ⟨R, hR⟩ := hI v (f.value v).bare ((f.value v).reads.map f.operandType) htotal hvol
    exact ⟨R, computes_of_exec hphi hstore (fun h => absurd h hconst) fun _ xs m => hR xs m⟩

/-! ## Moving one value -/

/-- Values but for one. -/
def without (v : ValueId) (l : List ValueId) : List ValueId :=
  l.flatMap fun u => if u = v then [] else [u]

theorem without_append (v : ValueId) (l m : List ValueId) :
    without v (l ++ m) = without v l ++ without v m := List.flatMap_append

theorem mem_without {x : ValueId} {l : List ValueId} (hx : x ≠ v) : x ∈ without v l ↔ x ∈ l := by
  simp [without, flatMap_without, hx]

section movable

variable (h : f.Movable b pre v) (hs : f.Ssa)
include h hs

theorem Movable.values (hc : c ∈ f.layout) : ((f.moveValue b pre v).block c).values =
    without v (f.block c).values ++ if c = pre then [v] else [] := by
  have hb := h.source hs
  rw [without, flatMap_without, (h.moved hs).block]
  by_cases hcb : c = b
  · subst hcb
    rw [if_pos rfl, if_neg h.ne.symm, List.append_nil]
    exact (hs.listing.nodup c hb).erase_eq_filter v
  · have hall : (f.block c).values.filter (· != v) = (f.block c).values :=
      List.filter_eq_self.mpr fun u hu => by
        simpa using fun heq : u = v => hcb (hs.listing.unique hc hb (heq ▸ hu) h.mem)
    rw [if_neg hcb, hall]
    split
    · next hcp => rw [hcp]
    · rw [List.append_nil]

theorem Movable.reads (x : ValueId) :
    ((f.moveValue b pre v).value x).reads = (f.value x).reads := by
  obtain ⟨d, hd⟩ := (h.moved hs).head x
  rw [hd]
  rfl

theorem Movable.computes (hR : Computes I f v fun xs => .ok (R xs)) :
    Computes I (f.moveValue b pre v) v fun xs => .ok (R xs) := by
  have hval : (f.moveValue b pre v).value v = { f.value v with block := some pre } := by
    rw [(h.moved hs).value, if_pos rfl]
  have hexec : ∀ s : I.State, (f.moveValue b pre v).exec s v = f.exec s v := by
    intro s
    unfold Func.exec
    rw [h.reads hs, List.map_congr_left fun o _ => (h.moved hs).operandType o, hval]
    rfl
  refine ⟨by rw [hval]; exact hR.phi, by rw [hval]; exact hR.store, fun s => ?_⟩
  rw [hexec, h.reads hs, hR.exec]

/-- Where the value can be read, it can be read after it was moved. -/
theorem Movable.known {part' : List ValueId} (hr : f.Reached c) (hk : f.Known c part v) :
    (f.moveValue b pre v).Known c part' v := by
  have hval : (f.moveValue b pre v).value v = { f.value v with block := some pre } := by
    rw [(h.moved hs).value, if_pos rfl]
  have hblock := (hs.listing.listed v b).mpr ⟨h.source hs, h.mem⟩
  obtain ⟨hstore, d, hd, hor⟩ := hk
  obtain rfl : b = d := Option.some.inj (hblock.symm.trans hd)
  have hbc : f.Dominates b c := hor.elim (fun heq => heq.1 ▸ .refl _ _ _) fun hne => hne.2
  refine ⟨by rw [hval]; exact hstore, pre, by rw [hval], .inr ⟨?_, ?_⟩⟩
  · rintro rfl
    exact h.ne (h.dominates.antisymm h.reached hbc)
  · exact (h.graph hs).dominates.mpr (h.dominates.trans hbc)

/-- At a place of a block where the one function has computed `l` and the other `l'`, the values are the
same but for the moved one, and that is in both what its operands make of it. -/
structure Beside (I : Interp) (f : Func) (b pre : BlockId) (v : ValueId) (R : List I.Val → I.Val)
    (c : BlockId) (l l' : List ValueId) (s t : I.State) : Prop where
  same : Same (· ≠ v) s t
  first : f.Holding (UpToDate I f v fun xs => .ok (R xs)) c l s
  second : (f.moveValue b pre v).Holding
    (UpToDate I (f.moveValue b pre v) v fun xs => .ok (R xs)) c l' t

section lockstep

variable {l l' : List ValueId} (hR : Computes I f v fun xs => .ok (R xs)) (hr : f.Reached c)
include hR hr

/-- What can be read is the same in both functions. -/
theorem Beside.read (hst : Beside I f b pre v R c l l' s t) (hk : f.Known c l a) :
    t.get (.value a) = s.get (.value a) := by
  by_cases hav : a = v
  · subst hav
    have hthere := Except.ok.inj (hst.first a hk rfl)
    have hhere := Except.ok.inj (hst.second a (h.known hs hr hk) rfl)
    have hb := h.source hs
    change t.env a = s.env a
    rw [← hthere, ← hhere, h.reads hs]
    congr 1
    refine List.map_congr_left fun o ho => ?_
    obtain ⟨x, rfl, hbefore⟩ := hs.reads_value hb h.mem hR.phi ho
    exact (hst.same.env x (hbefore.ne hs.listing hb h.reached h.mem hR.store)).symm
  · exact (hst.same.env a hav).symm

theorem Beside.read_operand (hst : Beside I f b pre v R c l l' s t) (hstore : (f.value a).op = .store ∨
    f.Known c l a) : t.get (.value a) = s.get (.value a) := by
  rcases hstore with hstore | hk
  · exact (hst.same.env a fun heq => hR.store (heq ▸ hstore)).symm
  · exact hst.read h hs hR hr hk

/-- The values of a block run alike, with nothing in place of the moved one. -/
theorem Movable.agree_values (hst : Beside I f b pre v R c [] [] s t) {post : List ValueId}
    (hsplit : (f.block c).values = l ++ post) :
    Agree (Beside I f b pre v R c l (without v l)) (l.foldlM f.exec s)
      ((without v l).foldlM (f.moveValue b pre v).exec t) := by
  have hcl := hs.flow.reached_mem hr
  refine agree_body (Q := fun l => Beside I f b pre v R c l (without v l))
    (fun l₁ u l₂ s t hl hst => ?_) hst
  have hsplit₁ : (f.block c).values = l₁ ++ u :: (l₂ ++ post) := by
    rw [hsplit, hl, List.append_assoc, List.cons_append]
  have hu : u ∈ (f.block c).values := by rw [hsplit₁]; simp
  have hinv := hR.invariant hs
  rw [without_append]
  by_cases huv : u = v
  · subst huv
    have hx := hR.exec s
    rw [if_pos rfl, hx]
    refine .go ⟨⟨hst.same.mem, fun x hx => ?_⟩, hinv.exec hs hr hsplit₁ hst.first hx, ?_⟩
    · exact (Function.update_of_ne hx _ _).trans (hst.same.env x hx)
    · simpa [without] using hst.second
  · have hval : (f.moveValue b pre v).value u = f.value u := by rw [(h.moved hs).value, if_neg huv]
    have hsplit₂ : ((f.moveValue b pre v).block c).values =
        without v l₁ ++ u :: (without v (l₂ ++ post) ++ if c = pre then [v] else []) := by
      rw [h.values hs hcl, hsplit₁]
      simp [without, huv]
    have hone : without v [u] = [u] := by simp [without, huv]
    rw [if_neg huv, hone]
    refine agree_single ?_
    have hagree : Agree (Same (· ≠ v)) (f.exec s u) ((f.moveValue b pre v).exec t u) := by
      refine agree_exec hst.same (by rw [hval]) ?_ fun hphi => ?_
      · rw [hval]
        exact List.map_congr_left fun o _ => (h.moved hs).operandType o
      · rw [hval]
        refine List.map_congr_left fun o ho => ?_
        obtain ⟨x, rfl, hbefore⟩ := hs.reads_value hcl hu hphi ho
        refine hst.read_operand h hs hR hr ?_
        by_cases hstore : (f.value x).op = .store
        · exact .inl hstore
        · exact .inr (hbefore.known hs.listing hcl hr hsplit₁ hstore)
    refine ((hagree.with_left fun s' hx => hinv.exec hs hr hsplit₁ hst.first hx).with_right
      fun t' hx => ((h.computes hs hR).invariant (h.ssa hs)).exec (h.ssa hs)
        ((h.graph hs).reached.mpr hr) hsplit₂ hst.second hx).imp fun s' t' hst' => ?_
    exact ⟨hst'.1.1, hst'.1.2, hst'.2⟩

omit hr in
/-- In front of the loop the moved value runs, and changes nothing else. -/
theorem Movable.agree_moved (hr : f.Reached pre) (hst : Beside I f b pre v R pre l l' s t)
    {post : List ValueId}
    (hsplit : ((f.moveValue b pre v).block pre).values = l' ++ v :: post) :
    ∃ t', (f.moveValue b pre v).exec t v = .ok t' ∧ Beside I f b pre v R pre l (l' ++ [v]) s t' := by
  have hR' := h.computes hs hR
  have hx := hR'.exec t
  refine ⟨_, hx, ⟨hst.same.mem, fun x hx => ?_⟩, hst.first, (hR'.invariant (h.ssa hs)).exec
    (h.ssa hs) ((h.graph hs).reached.mpr hr) hsplit hst.second hx⟩
  exact (hst.same.env x hx).trans (Function.update_of_ne hx _ _).symm

/-- Control leaves the block alike. -/
theorem Movable.agree_leave (hst : Beside I f b pre v R c (f.block c).values
    ((f.moveValue b pre v).block c).values s t) :
    Agree (fun p q => p.1 = q.1 ∧ Beside I f b pre v R p.1 [] [] p.2 q.2 ∧ f.Reached p.1)
      (f.leave c s) ((f.moveValue b pre v).leave c t) := by
  have hcl := hs.flow.reached_mem hr
  have hget : ∀ a, f.AtEnd (.value a) c → t.get (.value a) = s.get (.value a) := by
    intro a ha
    refine hst.read_operand h hs hR hr ?_
    by_cases hstore : (f.value a).op = .store
    · exact .inl hstore
    · exact .inr (ha.known hs.listing hr hstore)
  obtain ⟨hkind, hctl⟩ := (h.moved hs).kind_control c
  have hleave : Agree (SamePoint (· ≠ v)) (f.leave c s) ((f.moveValue b pre v).leave c t) := by
    refine Func.agree_leave (h.graph hs) hst.same hkind (fun hk => ?_) (fun _ => by rw [hctl])
      fun i e j hfollow => ⟨enter_mem.trans (hst.same.mem.trans enter_mem.symm), fun x hx => ?_⟩
    · rw [hctl]
      by_cases hm : (f.block c).control = .missing
      · rw [hm]
        rfl
      · obtain ⟨a, ha, hend⟩ := hs.control_value hcl (hk.imp_right fun hk => ⟨hk, hm⟩)
        rw [ha]
        exact hget a hend
    · have hel := hs.flow.succs_mem c hcl e (follow_next hfollow)
      have hval : (f.moveValue b pre v).value x = f.value x := by rw [(h.moved hs).value, if_neg hx]
      have hin : x ∈ ((f.moveValue b pre v).block e).values ↔ x ∈ (f.block e).values := by
        rw [h.values hs hel, List.mem_append]
        refine (or_iff_left ?_).trans (mem_without hx)
        split <;> simp [hx]
      by_cases hphi : x ∈ (f.block e).values ∧ (f.value x).op = .phi
      · obtain ⟨a, harg, _, hend⟩ := hs.phi_arg hel hphi.1 hphi.2 hfollow
        rw [enter_phi hphi.1 hphi.2, enter_phi (hin.mpr hphi.1) (by rw [hval]; exact hphi.2), hval]
        simp only [List.getD_eq_getElem?_getD, harg, Option.getD_some]
        exact (hget a hend).symm
      · rw [enter_env hphi, enter_env (by rw [hin, hval]; exact hphi)]
        exact hst.same.env x hx
  have hinv' := (h.computes hs hR).invariant (h.ssa hs)
  refine ((hleave.with_left fun p hp => (hR.invariant hs).leave hs hr hst.first hp).with_right
    fun q hq => hinv'.leave (h.ssa hs) ((h.graph hs).reached.mpr hr) hst.second hq).imp
      fun p q hpq => ?_
  obtain ⟨⟨⟨hpoint, hsame⟩, hreach, hfirst⟩, -, hsecond⟩ := hpq
  exact ⟨hpoint, ⟨hsame, hfirst, hpoint ▸ hsecond⟩, hreach⟩

omit hr in
/-- Moving a value leaves all others as they are at all times. -/
theorem Movable.lockstep : Lockstep I (· ≠ v) f (f.moveValue b pre v) := by
  have hg := h.graph hs
  have hstart : ∀ s : I.State, Beside I f b pre v R f.start [] [] s s := fun s =>
    ⟨.refl _ s, Invariant.holding_start hs s, hg.start ▸ Invariant.holding_start (h.ssa hs) s⟩
  refine .of_blocks (R := fun c s t => Beside I f b pre v R c [] [] s t ∧ f.Reached c)
    (Q := fun c l s t => (∃ l', Beside I f b pre v R c l l' s t ∧
      (l = (f.block c).values → l' = ((f.moveValue b pre v).block c).values)) ∧ f.Reached c)
    (fun _ _ _ hst => hst.1.same) (fun _ _ _ _ hst => hst.1.choose_spec.1.same) hg.start
    (fun s => ⟨hstart s, .refl _ _⟩) (fun c l post s t hst hsplit => ?_) fun c s t hst => ?_
  · obtain ⟨hst, hr⟩ := hst
    have hvals := h.values hs (hs.flow.reached_mem hr)
    have hagree := h.agree_values hs hR hr hst hsplit
    by_cases hadd : c = pre ∧ post = []
    · -- at the end of the block in front of the loop the value is added
      obtain ⟨rfl, rfl⟩ := hadd
      rw [List.append_nil] at hsplit
      rw [if_pos rfl, hsplit] at hvals
      refine ⟨without v l ++ [v], [], by rw [List.append_nil]; exact hvals, id, fun x hx => ?_, ?_⟩
      · simp [mem_without hx, hx]
      rw [List.foldlM_append, ← bind_pure (l.foldlM f.exec s)]
      refine hagree.bind fun s' t' _ _ hst' => ?_
      obtain ⟨t'', hx, hst''⟩ := h.agree_moved hs hR hr hst' hvals
      rw [List.foldlM_cons, hx]
      exact .go ⟨⟨_, hst'', fun _ => hvals.symm⟩, hr⟩
    · refine ⟨without v l, without v post ++ if c = pre then [v] else [], ?_, fun hnil => ?_,
        fun x hx => mem_without hx, hagree.imp fun s' t' hst' => ⟨⟨_, hst', fun hl => ?_⟩, hr⟩⟩
      · rw [hvals, hsplit, ← List.append_assoc, ← without_append]
      · rw [if_neg fun heq => hadd ⟨heq, hnil⟩, hnil]
        rfl
      · have hnil : post = [] := by
          rw [← hl] at hsplit
          simpa using hsplit
        rw [hvals, if_neg fun heq => hadd ⟨heq, hnil⟩, List.append_nil, ← hl]
  · obtain ⟨⟨l', hst, hl'⟩, hr⟩ := hst
    rw [hl' rfl] at hst
    exact h.agree_leave hs hR hr hst

end lockstep

end movable

/-! ## The whole function -/

/-- `g` is `f` with some values elsewhere, but for those that stay in their place. -/
structure Rearranged (f g : Func) : Prop where
  value : ∀ v, ∃ d, g.value v = { f.value v with block := d }
  fixed : ∀ b ∈ f.layout, ((g.block b).values.filter fun v => (f.value v).isFixed) =
    (f.block b).values.filter fun v => (f.value v).isFixed

theorem Movable.not_isFixed (h : f.Movable b pre v) : (f.value v).isFixed = false := by
  obtain ⟨htotal, hvol⟩ := Op.isTotal_of_pure h.pure h.total
  rw [Value.isFixed, hvol]
  cases hop : (f.value v).op <;> simp_all [Op.isTotal]

theorem Rearranged.move (hg : Rearranged f g) (hs : g.Ssa) (hfg : SameGraph f g)
    (h : g.Movable b pre v) : Rearranged f (g.moveValue b pre v) := by
  have hsame : ∀ x, (g.value x).isFixed = (f.value x).isFixed := fun x => by
    obtain ⟨d, hd⟩ := hg.value x
    rw [hd]
    rfl
  refine ⟨fun x => ?_, fun c hc => ?_⟩
  · obtain ⟨d, hd⟩ := hg.value x
    obtain ⟨e, he⟩ := (h.moved hs).head x
    exact ⟨e, by rw [he, hd]⟩
  · have hv := h.not_isFixed
    rw [hsame] at hv
    rw [← hg.fixed c hc, h.values hs (hfg.layout ▸ hc), List.filter_append, without, flatMap_without,
      List.filter_filter]
    have hlast : (if c = pre then [v] else []).filter (fun x => (f.value x).isFixed) = [] := by
      split <;> simp [hv]
    rw [hlast, List.append_nil]
    refine List.filter_congr fun x _ => ?_
    by_cases hxv : x = v
    · rw [hxv, hv]
      rfl
    · simp [hxv]

/-- Moving invariants out of loops comes to an answer, the function runs as before, and loads, stores,
calls, phis, slots, divisions and volatile accesses stay where they were. -/
theorem hoist_alike (I : Interp) (hI : I.Calm) (h : f.Consistent) :
    ∃ g ch, f.hoist = .ok (g, ch) ∧ Alike I f g ∧ Rearranged f g := by
  obtain ⟨g, ch, hg, -, -, -, halike, hsame⟩ := hoist_keeps
    (P := fun k => SameGraph f k ∧ Alike I f k ∧ Rearranged f k)
    (fun k b pre v hk hP hm => by
      obtain ⟨hfk, halike, hsame⟩ := hP
      obtain ⟨htotal, hvol⟩ := Op.isTotal_of_pure hm.pure hm.total
      obtain ⟨R, hR⟩ := exists_computes (f := k) hI htotal hvol
      exact ⟨hfk.trans (hm.graph hk), halike.trans (hm.lockstep hk hR).alike,
        hsame.move hk hfk hm⟩)
    h.ssa ⟨.refl f, .refl f, fun v => ⟨_, rfl⟩, fun _ _ => rfl⟩
  exact ⟨g, ch, hg, halike, hsame⟩

/-- A loop that adds the square of its bound up. -/
def squares : Func where
  name := "squares"
  ret := .i32
  params := [.i32]
  values := #[
    { op := .param, type := .i32, block := some 0 },
    { op := .const, type := .i32, block := some 0 },
    { op := .phi, type := .i32, block := some 1, args := [.value 1, .value 6] },
    { op := .icmp, type := .i1, block := some 1, args := [.value 2, .value 0], aux := 2 },
    { op := .sdiv, type := .i32, block := some 2, args := [.value 0, .value 0] },
    { op := .mul, type := .i32, block := some 2, args := [.value 0, .value 4] },
    { op := .add, type := .i32, block := some 2, args := [.value 2, .value 7] },
    { op := .mul, type := .i32, block := some 2, args := [.value 0, .value 0] }]
  blocks := #[
    { values := [0, 1], kind := .jump, succs := [1] },
    { values := [2, 3], kind := .branch, control := .value 3, succs := [2, 3], preds := [0, 2] },
    { values := [4, 5, 7, 6], kind := .jump, succs := [1], preds := [1] },
    { kind := .ret, control := .value 2, preds := [1] }]
  layout := [0, 1, 2, 3]
  paramValues := [0]

/-- The square leaves the loop. The quotient stays, and what is computed from it. -/
theorem hoist_alike_squares : World.zeros.interp.Calm ∧ squares.Consistent ∧
    ∃ g ch, squares.hoist = .ok (g, ch) ∧ Alike World.zeros.interp squares g ∧
      Rearranged squares g ∧ (g.block 0).values = [0, 1, 7] ∧ (g.block 2).values = [4, 5, 6] := by
  have hcalm : World.zeros.interp.Calm :=
    World.calm fun _ y _ _ _ => ⟨fun _ => List.replicate y.type.numLanes 0, fun _ _ => rfl⟩
  have hcons : squares.Consistent := by decide +kernel
  obtain ⟨g, ch, hg, halike, hsame⟩ := hoist_alike World.zeros.interp hcalm hcons
  have hrun : squares.hoist.toOption.map (fun r => ((r.1.block 0).values, (r.1.block 2).values)) =
      some ([0, 1, 7], [4, 5, 6]) := by decide +kernel
  rw [hg] at hrun
  obtain ⟨hfront, hbody⟩ := Prod.mk.inj (Option.some.inj hrun)
  exact ⟨hcalm, hcons, g, ch, hg, halike, hsame, hfront, hbody⟩

end Func
end SsaJit
