import SsaJit.Proofs.Exec.Edit
import SsaJit.Proofs.Exec.Lanes
import SsaJit.Proofs.Pass.Dead
import SsaJit.Proofs.Ssa.Form

/-! Taking dead values out leaves functions running as before, for as long as no dead value stops the
program. What is live reads only what is live, so it goes on having the same values; what is dead
changes nothing but its own value, and nothing reads it that stays. -/

namespace SsaJit

/-- Nothing but stores, calls, volatile accesses and parameters changes the memory. -/
def Interp.Quiet (I : Interp) : Prop :=
  ∀ v y ts xs m r, Func.isRoot y = false → I.exec v y ts xs m = .ok r → r.2 = m

theorem World.quiet {W : World} (h : ∀ v y ts xs m r, Func.isRoot y = false →
    W.exec v y ts xs m = .ok r → r.2 = m) : W.interp.Quiet := by
  intro v y ts xs m r hroot hr
  simp only at hr
  split at hr
  · obtain rfl := Except.ok.inj hr
    rfl
  · exact h v y ts xs m r hroot hr

/-- The world that keeps a record of stores, calls and volatile accesses. What is read from it is zero,
and an operation that folding leaves open stops the program. -/
def World.recorded : World where
  Mem := List (Op × List (List UInt64))
  Stop := Unit
  exec _ y _ xs m := if y.op.isBinary then .error () else
    .ok (List.replicate y.type.numLanes 0,
      if y.op.hasSideEffects || y.volatile then (y.op, xs) :: m else m)
  fits _ y _ _ _ r h := by
    split at h
    · cases h
    · obtain rfl := Except.ok.inj h
      exact y.type.fits_zeros

theorem World.recorded_quiet : recorded.interp.Quiet := by
  refine World.quiet fun v y ts xs m r hroot hr => ?_
  have heffect : (y.op.hasSideEffects || y.volatile) = false := by
    simp only [Func.isRoot, Bool.or_eq_false_iff] at hroot ⊢
    exact hroot.1
  simp only [recorded, heffect, Bool.false_eq_true] at hr
  split at hr
  · cases hr
  · obtain rfl := Except.ok.inj hr
    rfl

namespace Func

variable {I : Interp} {f g : Func} {b c d : BlockId} {u v w : ValueId} {o : Operand}
  {s s₀ t : I.State} {keep : ValueId → Bool} {p q : BlockId × I.State} {n : Nat}
  {pre post : List ValueId}

/-- A verified function that lays out each block once, whose edges are in step and lead to blocks that are
laid out, and whose values are listed in their blocks. -/
structure Orderly (f : Func) : Prop where
  verified : f.verify = .ok []
  layout_nodup : f.layout.Nodup
  succs_mem : ∀ b ∈ f.layout, ∀ s ∈ (f.block b).succs, s ∈ f.layout
  preds_mem : ∀ b ∈ f.layout, ∀ p ∈ (f.block b).preds, p ∈ f.layout
  edges : ∀ b ∈ f.layout, ∀ c ∈ f.layout, (f.block b).succs.count c = (f.block c).preds.count b
  listed : ∀ v b, (f.value v).block = some b ↔ b ∈ f.layout ∧ v ∈ (f.block b).values
  values_nodup : ∀ b ∈ f.layout, (f.block b).values.Nodup

theorem Consistent.orderly (h : f.Consistent) : f.Orderly :=
  ⟨h.verified, h.layout_nodup, h.succs_mem, h.preds_mem, h.edges, h.listed, h.values_nodup⟩

/-- What a block names that neither branches nor returns is listed, though the verifier does not ask. -/
def EndsListed (f : Func) : Prop :=
  ∀ b ∈ f.layout, (f.block b).kind ≠ .branch → (f.block b).kind ≠ .ret →
    (f.block b).control = .missing ∨
      ∃ v d, (f.block b).control = .value v ∧ (f.value v).block = some d

theorem EndsBare.listed (h : f.EndsBare) : f.EndsListed := fun b hb hbr hret => .inl (h b hb hbr hret)

namespace Orderly

theorem listing (h : f.Orderly) : f.Listing := ⟨h.listed, h.values_nodup⟩

theorem start_mem (h : f.Orderly) : f.start ∈ f.layout := by
  obtain ⟨t, ht, -⟩ := verify_nil.mp h.verified
  cases hl : f.layout with
  | nil => simp [Func.domTree, entry, hl, Outcome.crash] at ht
  | cons b l => simp [start, hl]

theorem closed (h : f.Orderly) (hends : f.EndsListed) : f.Closed := by
  obtain ⟨t, ht, hall⟩ := verify_nil.mp h.verified
  have hterminators : ∀ b ∈ f.layout, (f.checker t).terminator b = .ok [] := fun b hb =>
    (block_nil.mp (hall b hb)).2.2.1
  have hlisted : ∀ {v d}, (f.value v).block = some d → f.IsListed v := fun {v d} hv =>
    ⟨d, (h.listed v d).mp hv⟩
  refine closed_of_listed (fun b hb => ⟨not_pending_lt (terminator_ne_pending (hterminators b hb)),
    fun v hv => h.listing.lt hb hv⟩) (fun b hb => ?_) fun b hb v hv o ho => ?_
  · have hctl : (f.block b).control = .missing ∨
        ∃ v d, (f.block b).control = .value v ∧ (f.value v).block = some d := by
      by_cases hk : (f.block b).kind = .branch ∨ (f.block b).kind = .ret
      · exact terminator_listed (hterminators b hb) hk
      · rw [not_or] at hk
        exact hends b hb hk.1 hk.2
    exact hctl.imp_right fun ⟨v, d, hv, hd⟩ => ⟨v, hv, hlisted hd⟩
  · obtain ⟨w, d, rfl, hd⟩ := args_listed h.verified hb hv ho
    exact ⟨w, rfl, hlisted hd⟩

end Orderly

/-! ## Without what is dead -/

/-- The run from `s` comes to a value that is not live, and stops there. -/
def StopsDead (f : Func) (s : I.State) : Prop :=
  ∃ n b pre v post t e, f.Sees s n b pre t ∧ (f.block b).values = pre ++ v :: post ∧ ¬ f.Live v ∧
    f.exec t v = .error e

/-- A dead value changes nothing but itself. -/
theorem exec_dead (hI : I.Quiet) (hdead : isRoot (f.value u) = false) (hx : f.exec s u = .ok t) :
    t.mem = s.mem := by
  unfold exec at hx
  split at hx
  · obtain rfl := Except.ok.inj hx
    rfl
  unfold Interp.perform at hx
  split at hx
  · obtain rfl := Except.ok.inj hx
    rfl
  · cases hr : I.exec u (f.value u).bare ((f.value u).reads.map f.operandType)
      ((f.value u).reads.map s.get) s.mem with
    | error why => rw [hr] at hx; cases hx
    | ok r =>
      rw [hr] at hx
      obtain rfl := Except.ok.inj hx
      exact hI _ (f.value u).bare _ _ _ _ hdead hr

/-- The instructions that are kept. -/
theorem flatMap_kept (l : List ValueId) :
    (l.flatMap fun u => if keep u then [u] else []) = l.filter keep := by
  induction l with
  | nil => rfl
  | cons u l ih =>
    rw [List.flatMap_cons, ih, List.filter_cons]
    split <;> rfl

theorem get_live (hst : Same f.Live s t) (ho : ∀ v, o = .value v → f.Live v) : t.get o = s.get o := by
  cases o with
  | value v => exact (hst.env v (ho v rfl)).symm
  | missing => rfl
  | foreign k => rfl

section pruned

variable (hI : I.Quiet) (hpr : Pruned f g keep) (hkeep : ∀ v, keep v = true ↔ f.Live v)
include hpr hkeep

/-- A live value is computed as it was. -/
theorem Pruned.agree_exec (hst : Same f.Live s t) (hu : f.Live u) :
    Agree (Same f.Live) (f.exec s u) (g.exec t u) := by
  have hval := hpr.kept u ((hkeep u).mpr hu)
  refine Func.agree_exec hst (by rw [hval]) ?_ fun _ => ?_
  · rw [hval]
    exact List.map_congr_left fun o _ => hpr.operandType
  · rw [hval]
    refine List.map_congr_left fun o ho => get_live hst fun v hv => hu.operand ?_
    unfold Value.reads at ho
    split at ho
    · simp at ho
    · exact hv ▸ ho

theorem Pruned.agree_leave (hb : b ∈ f.layout) (hsuccs : ∀ s ∈ (f.block b).succs, s ∈ f.layout)
    (hst : Same f.Live s t) : Agree (SamePoint f.Live) (f.leave b s) (g.leave b t) := by
  refine Func.agree_leave hpr.graph hst (hpr.kind b) (fun _ => ?_) (fun _ => by rw [hpr.control])
    fun i c j hf => ⟨hst.mem, fun v hv => ?_⟩
  · rw [hpr.control]
    exact get_live hst fun v hv => .control hb hv
  · have hc : c ∈ f.layout := hsuccs c (follow_next hf)
    have hmem : v ∈ (g.block c).values ↔ v ∈ (f.block c).values := by
      rw [hpr.values c hc, List.mem_filter, hkeep]
      exact and_iff_left hv
    have hval := hpr.kept v ((hkeep v).mpr hv)
    by_cases hphi : v ∈ (f.block c).values ∧ (f.value v).op = .phi
    · rw [enter_phi hphi.1 hphi.2, enter_phi (hmem.mpr hphi.1) (by rw [hval]; exact hphi.2), hval]
      refine (get_live hst fun a ha => ?_).symm
      rw [List.getD_eq_getElem?_getD] at ha
      cases harg : (f.value v).args[j]? with
      | none => simp [harg] at ha
      | some o =>
        rw [harg, Option.getD_some] at ha
        exact hv.operand (ha ▸ List.mem_of_getElem? harg)
    · rw [enter_env hphi, enter_env (by rw [hmem, hval]; exact hphi)]
      exact hst.env v hv

include hI

/-- The bodies of a block, if no dead value stops the program there. -/
theorem Pruned.agree_body (hb : b ∈ f.layout) (hstop : ¬ f.StopsDead s₀)
    (hs : f.run n (f.start, s₀) = .ok (b, s)) (hst : Same f.Live s t) :
    Agree (Same f.Live) ((f.block b).values.foldlM f.exec s)
      ((g.block b).values.foldlM g.exec t) := by
  rw [hpr.values b hb, ← flatMap_kept]
  refine (Func.agree_body (Q := fun pre s' t' => Same f.Live s' t' ∧ pre.foldlM f.exec s = .ok s')
    (fun pre u post s₁ t₁ hsplit hQ => ?_) ⟨hst, rfl⟩).imp fun _ _ h => h.1
  obtain ⟨hst₁, hpre⟩ := hQ
  have hnext : ∀ s', f.exec s₁ u = .ok s' → (pre ++ [u]).foldlM f.exec s = .ok s' := fun s' hx => by
    rw [List.foldlM_append]
    exact bind_eq_ok.mpr ⟨s₁, hpre, bind_eq_ok.mpr ⟨s', hx, rfl⟩⟩
  by_cases hu : f.Live u
  · rw [if_pos ((hkeep u).mpr hu)]
    exact (agree_single (hpr.agree_exec hkeep hst₁ hu)).with_left hnext
  · rw [if_neg fun hk => hu ((hkeep u).mp hk)]
    have hroot : isRoot (f.value u) = false := by
      rw [Bool.eq_false_iff]
      exact fun hroot => hu (.root hb (by rw [hsplit]; simp) (isRoot_iff.mp hroot))
    cases hx : f.exec s₁ u with
    | error e =>
      exact absurd ⟨n, b, pre, u, post, s₁, e, ⟨s, u :: post, hs, hsplit, hpre⟩, hsplit, hu, hx⟩ hstop
    | ok s' =>
      refine .go ⟨⟨(exec_dead hI hroot hx).trans hst₁.mem, fun v hv => ?_⟩, hnext s' hx⟩
      rw [exec_env hx fun heq => hu (heq ▸ hv)]
      exact hst₁.env v hv

/-- The runs of both functions, if no dead value stops the program. -/
theorem Pruned.agree_run (h : f.Orderly) (hstop : ¬ f.StopsDead s₀) (n : Nat) :
    Agree (SamePoint f.Live) (f.run n (f.start, s₀)) (g.run n (g.start, s₀)) := by
  suffices ∀ m p q, f.run m (f.start, s₀) = .ok p → p.1 ∈ f.layout → SamePoint f.Live p q →
      Agree (SamePoint f.Live) (f.run n p) (g.run n q) from
    this 0 _ _ rfl h.start_mem ⟨hpr.graph.start.symm, .refl _ _⟩
  induction n with
  | zero => exact fun m p q _ _ hpq => .go hpq
  | succ n ih =>
    rintro m ⟨b, s⟩ ⟨b', t⟩ hm hb ⟨hbb, hst⟩
    obtain rfl : b = b' := hbb
    have hstep : Agree (SamePoint f.Live) (f.step (b, s)) (g.step (b, t)) :=
      (hpr.agree_body hI hkeep hb hstop hm hst).bind fun s' t' _ _ hst' =>
        hpr.agree_leave hkeep hb (h.succs_mem b hb) hst'
    refine hstep.bind fun p q hp _ hpq => ih (m + 1) p q ?_ ?_ hpq
    · rw [run_add hm, run_one, hp]
    · obtain ⟨s', -, hl⟩ := bind_eq_ok.mp hp
      obtain ⟨i, j, -, hf, -⟩ := leave_eq_ok hl
      exact h.succs_mem b hb _ (follow_next hf)

end pruned

/-- A dead value can stop a program in one way only. -/
theorem StopsDead.ends (h : f.StopsDead s) : ∃ why m, f.Ends (f.start, s) (.stopped why m) := by
  obtain ⟨n, b, pre, v, post, t, e, ⟨t₀, _, hrun, -, hpre⟩, hsplit, -, hx⟩ := h
  obtain ⟨why, m, rfl⟩ : ∃ why m, e = .stopped why m := by
    unfold exec at hx
    split at hx
    · cases hx
    unfold Interp.perform at hx
    split at hx
    · cases hx
    split at hx
    · cases hx
    · exact ⟨_, _, (Except.error.inj hx).symm⟩
  have hbody : (f.block b).values.foldlM f.exec t₀ = .error (.stopped why m) := by
    rw [hsplit, List.foldlM_append, hpre]
    change (v :: post).foldlM f.exec t = _
    rw [List.foldlM_cons, hx]
    rfl
  refine ⟨why, m, n + 1, ?_⟩
  rw [run_add hrun, run_one]
  change (f.block b).values.foldlM f.exec t₀ >>= f.leave b = _
  rw [hbody]
  rfl

/-- Both functions run in step from `s`, with the same memory and the same values of what is live in
`f`, and end in the same way. -/
def RunsLike (f g : Func) (s : I.State) : Prop :=
  ∀ n, Agree (SamePoint f.Live) (f.run n (f.start, s)) (g.run n (g.start, s))

/-- Taking dead values out comes to an answer, which has just the live values, as they were and where
they were, and a second time nothing is left to be taken out. The function runs as before unless a dead
value stops it. -/
theorem removeDead_live (h : f.Orderly) (hlisted : f.EndsListed) :
    ∃ g ch keep, f.removeDead = .ok (g, ch) ∧
    (∀ v, keep v = true ↔ f.Live v) ∧ Pruned f g keep ∧ g.removeDead = .ok (g, false) ∧
    ∀ I : Interp, I.Quiet → ∀ s : I.State,
      ((∀ why m, ¬ f.Ends (f.start, s) (.stopped why m)) → f.RunsLike g s) ∧
        (f.RunsLike g s ∨ f.StopsDead s) := by
  have hclosed := h.closed hlisted
  obtain ⟨g, ch, keep, hg, hpr, hnum, hkeep⟩ := removeDead_spec hclosed h.layout_nodup h.listing
  refine ⟨g, ch, keep, hg, hkeep, hpr, hpr.removeDead_again hkeep hnum hclosed,
    fun I hI s => ⟨fun hends => ?_, ?_⟩⟩
  · refine hpr.agree_run hI hkeep h fun hstop => ?_
    obtain ⟨why, m, he⟩ := hstop.ends
    exact hends why m he
  · by_cases hstop : f.StopsDead s
    · exact .inr hstop
    · exact .inl (hpr.agree_run hI hkeep h hstop)

/-- A loop that counts up to its bound and, to no purpose, adds the bound up and divides by it. -/
def idle : Func where
  name := "idle"
  ret := .i32
  params := [.i32]
  values := #[
    { op := .param, type := .i32, block := some 0 },
    { op := .const, type := .i32, block := some 0 },
    { op := .const, type := .i32, block := some 0, aux := 1 },
    { op := .phi, type := .i32, block := some 1, args := [.value 1, .value 6] },
    { op := .phi, type := .i32, block := some 1, args := [.value 0, .value 7] },
    { op := .icmp, type := .i1, block := some 1, args := [.value 3, .value 0], aux := 2 },
    { op := .add, type := .i32, block := some 2, args := [.value 3, .value 2] },
    { op := .add, type := .i32, block := some 2, args := [.value 4, .value 0] },
    { op := .sdiv, type := .i32, block := some 2, args := [.value 2, .value 0] },
    { op := .alloca, type := .ptr, block := some 0, aux := 4 },
    { op := .store, type := .void, block := some 3, args := [.value 3, .value 9] }]
  blocks := #[
    { values := [0, 1, 2, 9], kind := .jump, succs := [1] },
    { values := [3, 4, 5], kind := .branch, control := .value 5, succs := [2, 3], preds := [0, 2] },
    { values := [6, 7, 8], kind := .jump, succs := [1], preds := [1] },
    { values := [10], kind := .ret, control := .value 3, preds := [1] }]
  layout := [0, 1, 2, 3]
  paramValues := [0]

/-- The second sum, its phi and the quotient go; of the loop what counts is left. -/
theorem removeDead_live_idle : idle.Orderly ∧ idle.EndsListed ∧ World.recorded.interp.Quiet ∧
    (∀ why m, ¬ idle.Ends (I := World.recorded.interp) (idle.start, ⟨fun _ => [], []⟩)
      (.stopped why m)) ∧
    ∃ g ch keep, idle.removeDead = .ok (g, ch) ∧ (∀ v, keep v = true ↔ idle.Live v) ∧
      Pruned idle g keep ∧ g.removeDead = .ok (g, false) ∧
      idle.RunsLike (I := World.recorded.interp) g ⟨fun _ => [], []⟩ ∧
      (g.block 1).values = [3, 5] ∧ (g.block 2).values = [6] := by
  have horder : idle.Orderly := Consistent.orderly (by decide +kernel)
  have hlisted : idle.EndsListed := EndsBare.listed (by decide +kernel)
  have hquiet := World.recorded_quiet
  have hends : idle.Ends (I := World.recorded.interp) (idle.start, ⟨fun _ => [], []⟩)
      (.returned (some [0]) [(.store, [[0], [0]])]) := ⟨3, rfl⟩
  have hgo : ∀ why m, ¬ idle.Ends (I := World.recorded.interp) (idle.start, ⟨fun _ => [], []⟩)
      (.stopped why m) := fun why m hstop => nomatch hends.unique hstop
  obtain ⟨g, ch, keep, hg, hkeep, hpr, hagain, hruns⟩ := removeDead_live horder hlisted
  have hrun : idle.removeDead.toOption.map (fun r => ((r.1.block 1).values, (r.1.block 2).values)) =
      some ([3, 5], [6]) := by decide +kernel
  rw [hg] at hrun
  obtain ⟨hhead, hbody⟩ := Prod.mk.inj (Option.some.inj hrun)
  exact ⟨horder, hlisted, hquiet, hgo, g, ch, keep, hg, hkeep, hpr, hagain,
    (hruns World.recorded.interp hquiet ⟨fun _ => [], []⟩).1 hgo, hhead, hbody⟩

/-- The verifier lets a jump name a value of another function, and marking looks that value's number up
among the values of this one. -/
theorem removeDead_outside : Pass.aside.Orderly ∧ Pass.aside.removeDead = Outcome.crash .outOfRange :=
  ⟨Consistent.orderly (by decide +kernel), rfl⟩

end Func
end SsaJit
