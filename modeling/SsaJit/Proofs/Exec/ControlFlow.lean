import SsaJit.Proofs.Exec.Edit
import SsaJit.Proofs.Exec.Regions
import SsaJit.Proofs.Pass.ControlFlow
import SsaJit.Proofs.Ssa.Form

/-! Simplifying control flow leaves functions running as before, whatever instructions mean: each of its
steps does. A branch that becomes a jump and blocks that go leave every edge that control takes where it
led, with the arguments that it brought; a phi with one source is that source wherever it can be read;
and where two blocks are joined, one function takes in two steps what the other takes in one. -/

namespace SsaJit.Func

variable {I : Interp} {f g : Func} {b c s x : BlockId} {u v w : ValueId} {st : I.State}
  {i j k : Nat}

/-! ## Blocks that run the same -/

theorem exec_congr (hbare : (g.value u).bare = (f.value u).bare)
    (hreads : (f.value u).op ≠ .phi → (g.value u).reads = (f.value u).reads)
    (htypes : ∀ o, g.operandType o = f.operandType o) : g.exec st u = f.exec st u := by
  have hop : (g.value u).op = (f.value u).op := by
    change (g.value u).bare.op = (f.value u).bare.op
    rw [hbare]
  unfold exec
  rw [hop]
  split
  · rfl
  · next hphi => rw [hbare, hreads hphi, List.map_congr_left fun o _ => htypes o]

/-- A block begun by edges that bring the same arguments. -/
theorem Brings.enter (h : Brings f g c i j) (hvals : (g.block c).values = (f.block c).values)
    (hop : ∀ v, (g.value v).op = (f.value v).op) : g.enter c j st = f.enter c i st := by
  simp only [Func.enter, hvals, hop]
  congr 1
  funext v
  split
  · next hv => rw [List.getD_eq_getElem?_getD, List.getD_eq_getElem?_getD, h v hv.1 hv.2]
  · rfl

/-- The blocks of a part of the function run the same in both. -/
theorem Invariant.lockstep_of_blocks {live : BlockId → Prop}
    {Φ : ValueId → (ValueId → I.Val) → Prop} (hinv : Invariant I f live Φ) (hs : f.Ssa)
    (hstart : g.start = f.start) (hvals : ∀ b, live b → (g.block b).values = (f.block b).values)
    (hexec : ∀ b (s : I.State), live b → ∀ u ∈ (f.block b).values, g.exec s u = f.exec s u)
    (hleave : ∀ b (s : I.State), live b → f.Holding Φ b (f.block b).values s →
      g.leave b s = f.leave b s) : Lockstep I (fun _ => True) f g := by
  refine hinv.lockstep_of_instrs hs hstart (fun u => [u])
    (fun b hb => by rw [hvals b hb]; simp) (fun _ _ _ => by simp)
    (fun b pre u post s t hb hsplit _ hst => ?_) fun b s t hb hH hst => ?_
  · obtain rfl := hst.eq
    refine agree_single ?_
    rw [hexec b s hb u (by rw [hsplit]; simp)]
    exact .refl (Same.refl _) _
  · obtain rfl := hst.eq
    rw [hleave b s hb hH]
    exact .refl (fun p => ⟨rfl, .refl _ _⟩) _

/-- Leaving a block by an edge that leads to the same block with the same arguments. -/
theorem leave_congr (hkind : (g.block b).kind = (f.block b).kind)
    (hctl : (g.block b).control = (f.block b).control)
    (hvals : ∀ s, (g.block s).values = (f.block s).values)
    (hop : ∀ v, (g.value v).op = (f.value v).op)
    (hfollow : ∀ i s j, f.follow b i = some (s, j) →
      ∃ j', g.follow b i = some (s, j') ∧ Brings f g s j j')
    (hlost : ∀ i, f.follow b i = none → g.follow b i = none) : g.leave b st = f.leave b st := by
  have hedge : ∀ yes, (g.block b).edge? yes = (f.block b).edge? yes := fun yes => by
    rw [Block.edge?, Block.edge?, hkind]
  unfold leave
  rw [hkind, hctl, hedge]
  split
  · rfl
  split
  · rfl
  cases (f.block b).edge? (I.holds (st.get (f.block b).control)) with
  | none => rfl
  | some i =>
    cases hf : f.follow b i with
    | none => simp only [Option.bind_some, hf, hlost i hf]
    | some p =>
      obtain ⟨j', hg, hbrings⟩ := hfollow i p.1 p.2 hf
      simp only [Option.bind_some, hf, hg, hbrings.enter (hvals p.1) hop]

theorem Flow.follow_eq_none (h : f.Flow) (hb : b ∈ f.layout) (hf : f.follow b i = none) :
    (f.block b).succs[i]? = none := by
  cases hs : (f.block b).succs[i]? with
  | none => rfl
  | some s =>
    obtain ⟨j, hj⟩ := h.follow hb hs
    rw [hf] at hj
    cases hj

theorem follow_none (hs : (f.block b).succs[i]? = none) : f.follow b i = none := by
  simp [follow, hs]

/-! ## Branches that become jumps -/

/-- Constants are what they are, wherever they can be read. -/
theorem const_invariant (f : Func) : Invariant I f f.Reached fun v env =>
    (f.value v).op = .const → env v = I.const (f.value v).bare where
  reached _ h := h
  start := .refl _ _
  frame v _ _ _ _ _ _ henv h hc := (henv v (.inl rfl)).symm.trans (h hc)
  value b pre u post s t _ _ hphi hstore _ hx hc := by
    unfold exec at hx
    rw [if_neg hphi] at hx
    unfold Interp.perform at hx
    rw [if_pos (show (f.value u).bare.op = .const from hc)] at hx
    obtain rfl := Except.ok.inj hx
    simp only [Interp.State.assign]
    rw [if_neg (show (f.value u).bare.op ≠ .store from hstore), Function.update_self]
  edge b s p hb _ hp := by
    obtain ⟨i, j, _, hf, _⟩ := leave_eq_ok hp
    exact hb.step (follow_next hf)
  phi _ _ _ _ _ _ v _ hphi hc := by rw [hphi] at hc; cases hc

/-- A branch on a constant goes along the edge that the constant says. -/
theorem ConstBranch.edge (hf : f.Ssa) (hb : b ∈ f.layout) (hr : f.Reached b)
    (hkind : (f.block b).kind = .branch) (h : f.ConstBranch b k)
    (hconst : ∀ v, f.Known b (f.block b).values v → (f.value v).op = .const →
      st.env v = I.const (f.value v).bare) :
    (f.block b).edge? (I.holds (st.get (f.block b).control)) = some k := by
  obtain ⟨v, hctl, hc, rfl⟩ := h
  have hends := hf.ends b hb
  simp only [EndsWell, hkind] at hends
  have hc : (f.value v).op = .const := by simpa [Value.isConst] using hc
  have hty : (f.value v).type = .i1 := by
    have := hends.2.1
    rwa [hctl] at this
  have hknown := AtEnd.known (hctl ▸ hends.2.2) hf.listing hr (by simp [hc])
  have hans : I.holds (st.get (f.block b).control) = decide ((f.value v).aux ≠ 0) := by
    rw [hctl]
    change I.holds (st.env v) = _
    rw [hconst v hknown hc, I.holds_const _ hc hty]
  rw [hans, Block.edge?, hkind]
  simp

/-- Edges alike bring the same to the block that they lead to. -/
theorem EdgesAlike.follow (hf : f.Flow) (hb : b ∈ f.layout) (h : f.EdgesAlike b) :
    ∃ s, ∀ i < 2, ∃ j, f.follow b i = some (s, j) ∧ ∀ i' < 2, ∀ j', f.follow b i' = some (s, j') →
      ∀ v ∈ (f.block s).values, (f.value v).op = .phi → (f.value v).args[j]? = (f.value v).args[j']? := by
  obtain ⟨s, hss, halike⟩ := h
  have hsuccs : ∀ i < 2, (f.block b).succs[i]? = some s ∧ ((f.block b).succs.take i).count s = i := by
    intro i hi
    obtain rfl | rfl : i = 0 ∨ i = 1 := by omega
    all_goals simp [hss]
  -- the places of the edges are those of the block among the predecessors, in order
  have hplace : ∀ {i j}, i < 2 → f.follow b i = some (s, j) → (f.predPlaces s b)[i]? = some j := by
    intro i j hi hj
    obtain ⟨-, hpred, hcount⟩ := follow_eq_some.mp hj
    exact getElem?_predPlaces.mpr ⟨hpred, hcount.trans (hsuccs i hi).2⟩
  refine ⟨s, fun i hi => ?_⟩
  obtain ⟨j, hj⟩ := hf.follow hb (hsuccs i hi).1
  refine ⟨j, hj, fun i' hi' j' hj' v hv hphi => ?_⟩
  have hp := hplace hi hj
  have hp' := hplace hi' hj'
  obtain rfl | rfl : i = 0 ∨ i = 1 := by omega
  all_goals obtain rfl | rfl : i' = 0 ∨ i' = 1 := by omega
  · rw [Option.some.inj (hp.symm.trans hp')]
  · exact halike v hv hphi j j' hp hp'
  · exact (halike v hv hphi j' j hp' hp).symm
  · rw [Option.some.inj (hp.symm.trans hp')]

/-- The branch goes along an edge that brings what the kept one brings. -/
theorem branch_follow (hf : f.Ssa) (hb : b ∈ f.layout) (hr : f.Reached b)
    (hkind : (f.block b).kind = .branch) (hk : k < 2)
    (why : f.ConstBranch b k ∨ f.EdgesAlike b)
    (hconst : ∀ v, f.Known b (f.block b).values v → (f.value v).op = .const →
      st.env v = I.const (f.value v).bare) :
    ∃ i s j j', (f.block b).edge? (I.holds (st.get (f.block b).control)) = some i ∧
      f.follow b i = some (s, j) ∧ f.follow b k = some (s, j') ∧
      ∀ v ∈ (f.block s).values, (f.value v).op = .phi →
        (f.value v).args[j]? = (f.value v).args[j']? := by
  rcases why with h | h
  · obtain ⟨yes, no, hsuccs⟩ := hf.branch_succs hb hkind
    have hlt : k < (f.block b).succs.length := by rw [hsuccs]; exact hk
    obtain ⟨j, hj⟩ := hf.flow.follow hb (List.getElem?_eq_getElem hlt)
    exact ⟨k, _, j, j, h.edge hf hb hr hkind hconst, hj, hj, fun _ _ _ => rfl⟩
  · obtain ⟨s, hs⟩ := h.follow hf.flow hb
    obtain ⟨j', hj', -⟩ := hs k hk
    obtain ⟨i, hi, hedge⟩ : ∃ i < 2,
        (f.block b).edge? (I.holds (st.get (f.block b).control)) = some i :=
      ⟨if I.holds (st.get (f.block b).control) then 0 else 1, by split <;> omega,
        by rw [Block.edge?, hkind]⟩
    obtain ⟨j, hj, hsame⟩ := hs i hi
    exact ⟨i, s, j, j', hedge, hj, hj', hsame k hk j' hj'⟩

/-- A branch may become a jump if it always goes along an edge that brings what the kept one brings. -/
theorem BranchFolded.alike_of_way {live : BlockId → Prop} {Φ : ValueId → (ValueId → I.Val) → Prop}
    {keep drop : BlockId} {n : Nat} (h : BranchFolded f g b k keep drop n)
    (hinv : Invariant I f live Φ) (hf : f.Ssa) (hb : b ∈ f.layout)
    (hkind : (f.block b).kind = .branch)
    (hway : ∀ s : I.State, live b → f.Holding Φ b (f.block b).values s → ∃ i t j j',
      (f.block b).edge? (I.holds (s.get (f.block b).control)) = some i ∧
        f.follow b i = some (t, j) ∧ f.follow b k = some (t, j') ∧
        ∀ v ∈ (f.block t).values, (f.value v).op = .phi →
          (f.value v).args[j]? = (f.value v).args[j']?) : Alike I f g := by
  have hvals := h.values
  have hop : ∀ v, (g.value v).op = (f.value v).op := fun _ => h.op
  refine (hinv.lockstep_of_blocks hf h.start (fun c _ => hvals c)
    (fun c s hc u hu => exec_congr ?_ ?_ fun o => h.operandType) fun c s hc hH => ?_).alike
  · obtain ⟨a, ha⟩ := h.head u
    rw [ha]
    rfl
  · intro hphi
    rw [h.value, if_neg fun hin => hphi hin.2]
  · have hcl := hinv.mem_layout hf hc
    by_cases hcb : c = b
    · subst hcb
      obtain ⟨i, t, j, j', hedge, hfollow, hkept, hargs⟩ := hway s hc hH
      obtain ⟨rfl, j'', hjump, hbrings⟩ := h.follow_kept hf hb hkept
      have hbrings : Brings f g t j j'' := fun v hv hphi =>
        (hbrings v hv hphi).trans (hargs v hv hphi).symm
      have hway : (g.block c).edge? (I.holds (s.get (g.block c).control)) = some 0 := by
        rw [Block.edge?, h.jump.1]
      unfold leave
      rw [hway, hedge, h.jump.1, hkind]
      simp [hfollow, hjump, hbrings.enter (hvals t) hop]
    · obtain ⟨hk, hctl, hsuccs⟩ := h.others c hcb
      refine leave_congr hk hctl hvals hop (fun i t j hj => h.follow_other hf hb hcl hcb hj)
        fun i hi => follow_none ?_
      rw [hsuccs]
      exact hf.flow.follow_eq_none hcl hi

theorem BranchFolded.alike {keep drop : BlockId} {n : Nat}
    (h : BranchFolded f g b k keep drop n) (hf : f.Ssa) (hb : b ∈ f.layout)
    (hkind : (f.block b).kind = .branch) (why : f.ConstBranch b k ∨ f.EdgesAlike b) :
    Alike I f g :=
  h.alike_of_way (const_invariant f) hf hb hkind fun _ hr hH =>
    branch_follow hf hb hr hkind h.two.1 why hH

/-! ## Blocks that go -/

section filter

variable {α : Type} {l : List α} {q : α → Bool} {a : α}

/-- Where an element that stays stands when others have gone. -/
theorem filter_at (ha : l[j]? = some a) (hq : q a = true) :
    (l.filter q)[((l.take j).filter q).length]? = some a ∧
      (l.filter q).take ((l.take j).filter q).length = (l.take j).filter q := by
  obtain ⟨hj, rfl⟩ := List.getElem?_eq_some_iff.mp ha
  have hsplit : l.filter q = (l.take j).filter q ++ l[j] :: (l.drop (j + 1)).filter q := by
    conv_lhs => rw [← List.take_append_drop j l, List.drop_eq_getElem_cons hj]
    rw [List.filter_append, List.filter_cons_of_pos hq]
  rw [hsplit]
  exact ⟨by simp, by simp⟩

end filter

namespace Trimmed

variable {live : BlockId → Bool}

/-- An edge of a live block leads where it led. -/
theorem follow (h : Trimmed f g live) (hf : f.Ssa) (hlive : ∀ b, live b = true ↔ f.Reached b)
    (hb : f.Reached b) (hj : f.follow b i = some (s, j)) :
    ∃ j', g.follow b i = some (s, j') ∧ Brings f g s j j' := by
  obtain ⟨hs, hpred, hcount⟩ := follow_eq_some.mp hj
  have hbl := hf.flow.reached_mem hb
  have hsl := hf.flow.succs_mem b hbl s (List.mem_of_getElem? hs)
  have hsuccs := (h.ends b hbl ((hlive b).mpr hb)).2.2
  obtain ⟨hat, htake⟩ := filter_at hpred ((hlive b).mpr hb)
  refine ⟨(((f.block s).preds.take j).filter live).length, follow_eq_some.mpr ⟨?_, ?_, ?_⟩,
    fun v hv hphi => ?_⟩
  · rw [hsuccs, hs]
  · rw [h.preds s hsl, hat]
  · rw [h.preds s hsl, htake, List.count_filter ((hlive b).mpr hb), hcount, hsuccs]
  · -- arguments and predecessors stay in step
    have hlen := (hf.phis s hsl v hv hphi).1
    have hzlen := h.inStep s hsl v hv hphi
    have hlt : j < (f.value v).args.length := hlen ▸ (List.getElem?_eq_some_iff.mp hpred).1
    have hz : ((f.value v).args.zip (f.block s).preds)[j]? =
        some ((f.value v).args[j], b) :=
      List.getElem?_zip_eq_some.mpr ⟨List.getElem?_eq_getElem hlt, hpred⟩
    obtain ⟨hzat, -⟩ := filter_at (q := fun x => live x.2) hz ((hlive b).mpr hb)
    have hplace : ((((f.value v).args.zip (f.block s).preds).take j).filter
        fun x => live x.2).length = (((f.block s).preds.take j).filter live).length := by
      have hmap : ((f.block s).preds.take j) =
          (((f.value v).args.zip (f.block s).preds).take j).map Prod.snd := by
        rw [List.map_take, List.map_snd_zip (by omega)]
      rw [hmap, List.filter_map, List.length_map]
      rfl
    have hphis := h.phis s hsl v hv hphi
    rw [argsFrom] at hphis
    rw [hplace, ← hphis] at hzat
    rw [(List.getElem?_zip_eq_some.mp hzat).1, List.getElem?_eq_getElem hlt]

theorem lockstep (h : Trimmed f g live) (hf : f.Ssa) (hlive : ∀ b, live b = true ↔ f.Reached b) :
    Lockstep I (fun _ => True) f g := by
  refine (Invariant.trivial f).lockstep_of_blocks hf (h.start hlive) (fun c _ => h.values c)
    (fun c s hc u hu => exec_congr ?_ ?_ fun o => h.operandType) fun c s hc _ => ?_
  · obtain ⟨a, d, ha⟩ := h.head u
    rw [ha]
    rfl
  · intro hphi
    have hargs := h.others u hphi
    unfold Value.reads
    rw [h.op, hargs]
  · have hcl := hf.flow.reached_mem hc
    obtain ⟨hk, hctl, hsuccs⟩ := h.ends c hcl ((hlive c).mpr hc)
    refine leave_congr hk hctl h.values (fun _ => h.op) (fun i t j hj => h.follow hf hlive hc hj)
      fun i hi => follow_none ?_
    rw [hsuccs]
    exact hf.flow.follow_eq_none hcl hi

theorem alike (h : Trimmed f g live) (hf : f.Ssa) (hlive : ∀ b, live b = true ↔ f.Reached b) :
    Alike I f g := (h.lockstep hf hlive).alike

end Trimmed

/-! ## Phis with one source -/

/-- The source of a phi is no phi of the same block. -/
theorem OneSource.not_entered (h : f.OneSource v w) (hf : f.Ssa) (hb : b ∈ f.layout)
    (hr : f.Reached b) (hv : v ∈ (f.block b).values) :
    ¬(w ∈ (f.block b).values ∧ (f.value w).op = .phi) := by
  rintro ⟨hw, hphi⟩
  rcases h.source hf hb hv with hstore | ⟨d, hd, hstrict⟩
  · simp [hphi] at hstore
  · have := (hf.listing.listed w b).mpr ⟨hb, hw⟩
    exact (hstrict hr).1 (Option.some.inj (hd.symm.trans this))

/-- Wherever a phi with one source can be read, it is its source. -/
theorem OneSource.invariant (h : f.OneSource v w) (hf : f.Ssa) (hb : b ∈ f.layout)
    (hv : v ∈ (f.block b).values) :
    Invariant I f f.Reached fun x env => x = v → env x = env w where
  reached _ h := h
  start := .refl _ _
  frame x d env env' _ hd hr henv hold hx := by
    subst hx
    have hblock := (hf.listing.listed x b).mpr ⟨hb, hv⟩
    obtain rfl : b = d := Option.some.inj (hblock.symm.trans hd)
    have hbehind : f.Behind w x := (h.source hf hb hv).elim (fun hs => .inr (.inl hs))
      fun ⟨d, hd, hstrict⟩ => .inr (.inr ⟨b, hblock, by
        rw [if_pos h.phi]
        exact ⟨d, hd, hstrict hr⟩⟩)
    rw [← henv x (.inl rfl), ← henv w hbehind]
    exact hold rfl
  value _ _ u _ _ _ _ _ hphi _ _ _ hu := absurd h.phi (hu ▸ hphi)
  edge b s p hb _ hp := by
    obtain ⟨i, j, _, hfollow, _⟩ := leave_eq_ok hp
    exact hb.step (follow_next hfollow)
  phi c st p hc hH hp x hx hphi hxv := by
    subst hxv
    obtain ⟨i, j, _, hfollow, hp2⟩ := leave_eq_ok hp
    have hcl := hf.flow.reached_mem hc
    have hpl := hf.flow.succs_mem c hcl p.1 (follow_next hfollow)
    obtain rfl := hf.listing.unique hb hpl hv hx
    obtain ⟨a, harg, _, hend⟩ := hf.phi_arg hpl hx hphi hfollow
    have hsource := h.not_entered hf hb (hc.step (follow_next hfollow)) hv
    rw [hp2, enter_phi hx hphi, enter_env hsource, List.getD_eq_getElem?_getD, harg]
    change st.env a = st.env w
    rcases h.only _ (List.mem_of_getElem? harg) with heq | heq
    · obtain rfl : a = x := by simpa using heq
      exact hH a (hend.known hf.listing hc (by simp [h.phi])) rfl
    · obtain rfl : a = w := by simpa using heq
      rfl

theorem OneSource.alike (h : f.OneSource v w) (hf : f.Ssa) (hb : b ∈ f.layout)
    (hv : v ∈ (f.block b).values) : Alike I f (f.replaceValue v (.value w)) := by
  refine ((h.invariant hf hb hv).lockstep_replaceValue hf hb hv h.ne (h.covers hf hb hv)
    (by simp [h.phi]) (fun _ _ _ _ hH hv _ => hH v hv rfl)
    fun pre post s _ _ _ => ⟨s, ?_, rfl⟩).alike
  rw [exec, if_pos h.phi]

/-! ## Blocks that are joined -/

/-- As `Tracks.of_step`, with several steps on each side. -/
theorem Tracks.of_runs {R : BlockId × I.State → BlockId × I.State → Prop}
    (hmem : ∀ p q, R p q → p.2.mem = q.2.mem)
    (hrun : ∀ p q, R p q → ∃ m n, Agree R (f.run (m + 1) p) (g.run (n + 1) q)) :
    Tracks f g R where
  mem := hmem
  next p q hR := by
    obtain ⟨m, n, h⟩ := hrun p q hR
    generalize hf : f.run (m + 1) p = x at h
    generalize hg : g.run (n + 1) q = y at h
    cases h with
    | stop e => exact .inl ⟨e, ⟨_, hf⟩, ⟨_, hg⟩⟩
    | go h => exact .inr ⟨m, n, _, _, hf, hg, h⟩

namespace Merged

theorem exec (h : Merged f g b c) : g.exec st u = f.exec st u := by
  obtain ⟨d, hd⟩ := h.head u
  exact exec_congr (by rw [hd]; rfl) (fun _ => by rw [hd]; rfl) fun o => h.operandType

theorem moved_ne (hbc : b ≠ c) : moved b c x ≠ c := by
  unfold moved
  split
  · exact hbc
  · assumption

/-- The end of a block is where the block now stands. -/
theorem ends_moved (h : Merged f g b c) (hxb : x ≠ b) :
    (g.block (moved b c x)).kind = (f.block x).kind ∧
      (g.block (moved b c x)).control = (f.block x).control ∧
      (g.block (moved b c x)).succs = (f.block x).succs := by
  have hback : (if moved b c x = b then c else moved b c x) = x := by
    unfold moved
    by_cases hxc : x = c
    · simp [hxc]
    · simp [hxc, hxb]
  have hends := h.ends _ (moved_ne h.joins.ne (x := x))
  rwa [hback] at hends

/-- Both blocks of the joined pair have their edges from where they now stand. -/
theorem follow (h : Merged f g b c) (hf : f.Ssa) (hx : x ∈ f.layout) (hxb : x ≠ b)
    (hj : f.follow x i = some (s, j)) :
    s ≠ c ∧ g.follow (moved b c x) i = some (s, j) := by
  obtain ⟨hs, hpred, hcount⟩ := follow_eq_some.mp hj
  have hsl := hf.flow.succs_mem x hx s (List.mem_of_getElem? hs)
  have hbc := h.joins.ne
  have hsc : s ≠ c := by
    rintro rfl
    rw [h.joins.preds] at hpred
    exact hxb (by simpa using List.mem_of_getElem? hpred)
  have hmoved : moved b c x ≠ c := moved_ne hbc
  have hsuccs := (h.ends_moved hxb).2.2
  have hnot : b ∉ (f.block s).preds := fun hm => by
    have := (hf.flow.mem_preds_iff h.joins.first hsl).mp hm
    rw [next, h.joins.succs, List.mem_singleton] at this
    exact hsc this
  refine ⟨hsc, follow_eq_some.mpr ⟨by rw [hsuccs, hs], ?_, ?_⟩⟩
  · rw [h.preds s hsl hsc, List.getElem?_map, hpred]
    rfl
  · rw [h.preds s hsl hsc, ← List.map_take, count_renamed _ hbc hmoved, hsuccs, ← hcount]
    have hzero : ((f.block s).preds.take j).count b = 0 :=
      List.count_eq_zero.mpr fun hm => hnot (List.mem_of_mem_take hm)
    unfold moved
    by_cases hxc : x = c
    · simp [hxc, hzero]
    · simp [hxc, hxb]

theorem enter (h : Merged f g b c) (hs : s ≠ c) :
    g.enter s j st = f.enter s j st := by
  have hphis : ∀ v, v ∈ (g.block s).values ∧ (g.value v).op = .phi ↔
      v ∈ (f.block s).values ∧ (f.value v).op = .phi := by
    intro v
    rw [h.op, h.values s hs]
    split
    · next hsb =>
      subst hsb
      rw [List.mem_append]
      exact and_congr_left fun hphi => or_iff_left fun hm => h.noPhis v hm hphi
    · rfl
  simp only [Func.enter, hphis]
  congr 1
  funext v
  obtain ⟨d, hd⟩ := h.head v
  rw [hd]

/-- The end of a block in the function where it now stands. -/
theorem leave (h : Merged f g b c) (hf : f.Ssa) (hx : x ∈ f.layout) (hxb : x ≠ b) :
    g.leave (moved b c x) st = f.leave x st := by
  obtain ⟨hkind, hctl, hsuccs⟩ := h.ends_moved hxb
  have hedge : ∀ yes, (g.block (moved b c x)).edge? yes = (f.block x).edge? yes := fun yes => by
    rw [Block.edge?, Block.edge?, hkind]
  unfold Func.leave
  rw [hkind, hctl, hedge]
  split
  · rfl
  split
  · rfl
  cases (f.block x).edge? (I.holds (st.get (f.block x).control)) with
  | none => rfl
  | some i =>
    cases hfollow : f.follow x i with
    | none =>
      have hnone : g.follow (moved b c x) i = none := follow_none (by
        rw [hsuccs]
        exact hf.flow.follow_eq_none hx hfollow)
      simp only [Option.bind_some, hfollow, hnone]
    | some p =>
      obtain ⟨hs, hg⟩ := h.follow (j := p.2) hf hx hxb hfollow
      simp only [Option.bind_some, hfollow, hg, h.enter hs]

/-- The end of the first block only leads on. -/
theorem leave_first (h : Merged f g b c) (hf : f.Ssa) : f.leave b st = .ok (c, st) := by
  obtain ⟨j, hj⟩ := hf.flow.follow h.joins.first (i := 0) (s := c) (by rw [h.joins.succs]; rfl)
  have henter : f.enter c j st = st := by
    unfold Func.enter
    have : ∀ v, ¬(v ∈ (f.block c).values ∧ (f.value v).op = .phi) :=
      fun v hv => h.noPhis v hv.1 hv.2
    simp only [this, if_false]
  unfold Func.leave
  rw [Block.edge?, h.joins.jump]
  simp [hj, henter]

theorem alike (h : Merged f g b c) (hf : f.Ssa) : Alike I f g := by
  have hbc := h.joins.ne
  have hrest : ∀ x ∈ f.layout, x ≠ b → ∀ st : I.State,
      Agree (fun p q => p = q ∧ p.1 ≠ c ∧ p.1 ∈ f.layout) (f.leave x st)
        (g.leave (moved b c x) st) := by
    intro x hx hxb st
    rw [h.leave hf hx hxb]
    cases hp : f.leave x st with
    | error e => exact .stop e
    | ok p =>
      obtain ⟨i, j, _, hfollow, _⟩ := leave_eq_ok hp
      exact .go ⟨rfl, (h.follow hf hx hxb hfollow).1,
        hf.flow.succs_mem x hx p.1 (follow_next hfollow)⟩
  refine (Tracks.of_runs (R := fun p q => p = q ∧ p.1 ≠ c ∧ p.1 ∈ f.layout)
    (fun p q hpq => by rw [hpq.1]) ?_).alike fun st => ?_
  · rintro ⟨x, st⟩ _ ⟨rfl, hxc, hx⟩
    have hexec : g.exec = f.exec (I := I) := funext fun _ => funext fun _ => h.exec
    by_cases hxb : x = b
    · -- the first block and the second, one after the other
      subst hxb
      refine ⟨1, 0, ?_⟩
      rw [run_one]
      have hsteps : f.run 2 (x, st) =
          ((f.block x).values.foldlM f.exec st >>= fun s' =>
            (f.block c).values.foldlM f.exec s') >>= f.leave c := by
        rw [run, step]
        cases (f.block x).values.foldlM f.exec st with
        | error e => rfl
        | ok s' =>
          change (f.leave x s' >>= f.run 1) = _
          rw [h.leave_first hf]
          exact run_one
      have hstep : g.step (x, st) = ((f.block x).values.foldlM f.exec st >>= fun s' =>
            (f.block c).values.foldlM f.exec s') >>= g.leave x := by
        rw [step, h.values x hxc, if_pos rfl, List.foldlM_append, hexec]
      rw [hsteps, hstep]
      cases ((f.block x).values.foldlM f.exec st >>= fun s' =>
        (f.block c).values.foldlM f.exec s') with
      | error e => exact .stop e
      | ok s' =>
        have := hrest c h.joins.second hbc.symm s'
        rwa [moved, if_pos rfl] at this
    · refine ⟨0, 0, ?_⟩
      rw [run_one, run_one, step, step, h.values x hxc, if_neg hxb, hexec]
      cases (f.block x).values.foldlM f.exec st with
      | error e => exact .stop e
      | ok s' =>
        have := hrest x hx hxb s'
        rwa [moved, if_neg hxc] at this
  · exact ⟨by rw [h.start hf.flow], (h.ne_start hf.flow).symm, hf.flow.start_mem⟩

end Merged

/-! ## All of it -/

theorem Reshape.alike (h : Reshape f g) (hf : f.Ssa) : Alike I f g := by
  cases h with
  | fold b k keep drop i hb hkind hfold why => exact hfold.alike hf hb hkind why
  | trim live hlive htrim => exact htrim.alike hf hlive
  | phi b v w hb hv hsource heq => exact heq ▸ hsource.alike hf hb hv
  | merge b c hmerge => exact hmerge.alike hf

theorem Reshapes.alike (h : Reshapes f g) (hf : f.Ssa) : Alike I f g :=
  (h.keeps (P := fun k => k.Ssa ∧ Alike I f k)
    (fun _ _ hs hk => ⟨hs.ssa hk.1, hk.2.trans (hs.alike hk.1)⟩) ⟨hf, .refl f⟩).2

/-- Simplifying control flow gives a function that runs as the one given, whatever instructions mean:
from every start both end in the same way with the same memory, and show the same of it on the way. -/
theorem simplifyControlFlow_alike (I : Interp) (h : f.Consistent) :
    ∃ g changed, f.simplifyControlFlow = .ok (g, changed) ∧ Alike I f g := by
  obtain ⟨g, changed, hg, hsteps⟩ := simplifyControlFlow_reshapes h.ssa
  exact ⟨g, changed, hg, hsteps.alike h.ssa⟩

/-- Both ways of a branch on the argument lead to one block, whose phi takes something else from each;
a jump leads on to a block of its own. -/
def eitherWay : Func where
  name := "eitherWay"
  ret := .i32
  params := [.i1]
  values := #[
    { op := .param, type := .i1, block := some 0 },
    { op := .const, type := .i32, block := some 0, aux := 1 },
    { op := .const, type := .i32, block := some 0, aux := 2 },
    { op := .phi, type := .i32, block := some 1, args := [.value 1, .value 2] }]
  blocks := #[
    { values := [0, 1, 2], kind := .branch, control := .value 0, succs := [1, 1] },
    { values := [3], kind := .jump, succs := [2], preds := [0, 0] },
    { kind := .ret, control := .value 3, preds := [1] }]
  layout := [0, 1, 2]
  paramValues := [0]

/-- The last block is joined to the one before, and both edges of the branch stay. -/
theorem simplifyControlFlow_alike_eitherWay : ∃ g changed,
    eitherWay.simplifyControlFlow = .ok (g, changed) ∧ Alike regionInterp eitherWay g ∧
      g.layout = [0, 1] ∧ (g.block 1).preds = [0, 0] := by
  obtain ⟨g, changed, hg, halike⟩ :=
    simplifyControlFlow_alike regionInterp (show eitherWay.Consistent by decide +kernel)
  have hrun : eitherWay.simplifyControlFlow.toOption.map
      (fun r => (r.1.layout, (r.1.block 1).preds)) = some ([0, 1], [0, 0]) := by decide +kernel
  rw [hg] at hrun
  obtain ⟨hlayout, hpreds⟩ := Prod.mk.inj (Option.some.inj hrun)
  exact ⟨g, changed, hg, halike, hlayout, hpreds⟩

end SsaJit.Func
