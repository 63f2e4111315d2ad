import SsaJit.Proofs.Exec.ControlFlow
import SsaJit.Proofs.Exec.Mirror

/-! Promoting slots leaves functions running as before, but that the slots are gone from memory. Where
two edges meet, what is in the slot is what the placed phi takes along the edge that control comes by, or
what is current at the end of both blocks. Calls and the memory outside make no difference: they are the
parameter `W`, which sees of the regions what it has been handed an address of. -/

namespace SsaJit.Func

variable {W : Outside} {f g k m : Func} {b c d e q : BlockId} {slot u v w x blank cur : ValueId}
  {o : Operand} {t : Ty} {phis : PlacedPhis} {σ : ValueId → ValueId}
  {args : BlockId → BlockId → Operand} {dom : DomTree} {out : BlockId → ValueId}
  {keep : ValueId → Bool} {pre post l : List ValueId} {s r : W.interp.State} {i j n : Nat}

theorem mapError_bind {ε ε' α β : Type} {F : ε → ε'} {x : Except ε α} {next : α → Except ε β} :
    (x >>= next).mapError F = x.mapError F >>= fun a => (next a).mapError F := by
  cases x <;> rfl

theorem Agree.mapError {ε ε' α β : Type} {R : α → β → Prop} {x : Except ε α} {y : Except ε β}
    (h : Agree R x y) (F : ε → ε') : Agree R (x.mapError F) (y.mapError F) := by
  cases h with
  | go h => exact .go h
  | stop e => exact .stop (F e)

/-- A value that can be read where a block begins, and is no phi of it, can be read at the end of every
block that leads there. -/
theorem Known.of_edge (h : f.Known c [] v) (hs : f.Ssa) (hr : f.Reached b) (hc : c ∈ f.next b)
    (hphi : ¬(v ∈ (f.block c).values ∧ (f.value v).op = .phi)) : f.Known b (f.block b).values v ∧
      ∃ d, (f.value v).block = some d ∧ d ≠ c ∧ f.Dominates d c := by
  obtain ⟨hst, d, hd, hor⟩ := h
  obtain ⟨hne, hdom⟩ := hor.resolve_left fun ⟨heq, hin⟩ => hphi
    ⟨((hs.listing.listed v c).mp (heq ▸ hd)).2, hin.resolve_right List.not_mem_nil⟩
  exact ⟨AtEnd.known ⟨v, rfl, .inr ⟨d, hd, fun _ => hdom.of_edge hc hne⟩⟩ hs.listing hr hst,
    d, hd, hne, hdom⟩

section promoted

variable (h : Promoted f g k slot t dom blank phis σ args out keep)
include h

/-! ## Blocks -/

theorem Promoted.value (hb : b ∈ f.layout) (hv : v ∈ (f.block b).values) (hno : ¬ f.Accesses slot v)
    (hne : v ≠ slot) : g.value v = { f.value v with args := (f.value v).args.map (rename σ) } :=
  (h.pruned.kept v (h.keep_eq hno hne)).trans (h.walked.renamed.old b hb v hv)

/-- A placed phi is neither the slot nor an access of it. -/
theorem Promoted.phi (hx : phis.lookup b = some x) : g.value x = k.value x ∧ x ∈ (g.block b).values := by
  have hge := (h.walked.renamed.new b x hx).1
  have hkeep : keep x = true := h.keep_eq (fun ha => ?_) fun heq =>
    Nat.not_lt_of_le hge (heq ▸ h.promoting.slot_lt)
  · refine ⟨h.pruned.kept x hkeep, ?_⟩
    rw [h.pruned.values b (h.walked.renamed.graph.layout ▸ (h.walked.renamed.mem b x hx).1),
      List.mem_filter, h.walked.renamed.mem_values]
    exact ⟨.inl hx, hkeep⟩
  · rcases ha with ha | ⟨w, ha⟩
    all_goals
      have hop := ha.1
      rw [value_of_le hge] at hop
      cases hop

/-- A block of the promoted function runs its part of the block it comes from. -/
theorem Promoted.foldlM_values (hb : b ∈ f.layout) : (g.block b).values.foldlM g.exec r =
    ((f.block b).values.filter keep).foldlM g.exec r := by
  rw [h.pruned.values b (h.walked.renamed.graph.layout ▸ hb), h.walked.renamed.values,
    List.filter_append, List.foldlM_append]
  cases hphi : phis.lookup b with
  | none => rfl
  | some x =>
    have hop : (g.value x).op = .phi := by
      rw [(h.phi hphi).1, (h.walked.renamed.new b x hphi).2.2]
    have hexec : ∀ r : W.interp.State, g.exec r x = .ok r := fun r => by rw [exec, if_pos hop]
    by_cases hk : keep x = true
    · simp only [Option.toList_some, List.filter_cons_of_pos hk, List.filter_nil, List.foldlM_cons,
        hexec, List.foldlM_nil]
      rfl
    · simp only [Option.toList_some, List.filter_cons_of_neg hk, List.filter_nil, List.foldlM_nil]
      rfl

/-- The instructions of a block, along what is current. -/
theorem Promoted.threads (hc : f.ConstsFit) (hvoid : f.StoresVoid)
    (hzero : (f.value blank).constLanes = some (List.replicate t.numLanes 0)) (hr : f.Reached b)
    {e : ValueId} (ht : Threads f slot σ cur l e) : ∀ {pre} {s r : W.interp.State},
      (f.block b).values = pre ++ l → Mirrors f k slot t blank phis σ b pre cur s r →
      Agree (Mirrors f k slot t blank phis σ b (f.block b).values e)
        ((l.foldlM f.exec s).mapError (.without [slot])) ((l.filter keep).foldlM g.exec r) := by
  have hb := h.promoting.ssa.flow.reached_mem hr
  induction ht with
  | nil =>
    intro pre s r hvals hM
    rw [List.append_nil] at hvals
    exact .go (hvals ▸ hM)
  | @read c e v l hread hσ _ _ ih =>
    intro pre s r hvals hM
    obtain ⟨s', hx, hM'⟩ := hM.read h.promoting h.walked hr hvals hread hσ
    have hdrop := (h.dropped v).mpr (.inl ⟨b, hb, by simp [hvals], .inl hread⟩)
    rw [List.foldlM_cons, hx, List.filter_cons_of_neg (by simp [hdrop])]
    exact ih (by rw [hvals, List.append_cons]) hM'
  | @write c e v w l hwrite _ _ ih =>
    intro pre s r hvals hM
    obtain ⟨s', hx, hM'⟩ := hM.write h.promoting h.walked hr hvals hvoid hwrite
    have hdrop := (h.dropped v).mpr (.inl ⟨b, hb, by simp [hvals], .inr ⟨w, hwrite⟩⟩)
    rw [List.foldlM_cons, hx, List.filter_cons_of_neg (by simp [hdrop])]
    exact ih (by rw [hvals, List.append_cons]) hM'
  | @other c e v l hno _ ih =>
    intro pre s r hvals hM
    by_cases hvs : v = slot
    · obtain ⟨s', hx, hM'⟩ := hM.make h.promoting h.walked hr hvals hvs
      have hdrop := (h.dropped v).mpr (.inr hvs)
      rw [List.foldlM_cons, hx, List.filter_cons_of_neg (by simp [hdrop])]
      exact ih (by rw [hvals, List.append_cons]) hM'
    · rw [List.foldlM_cons, List.filter_cons_of_pos (h.keep_eq hno hvs), List.foldlM_cons, mapError_bind]
      exact (hM.other h hr hvals hno hvs hc hvoid hzero).bind fun s' r' _ _ hM' =>
        ih (by rw [hvals, List.append_cons]) hM'

/-! ## Edges -/

/-- What stands in another block is left as it is where a block begins. -/
theorem Promoted.enter_other (hc : c ∈ f.layout) (hd : (k.value v).block = some d) (hne : d ≠ c) :
    (g.enter c j r).env v = r.env v := by
  refine enter_env fun hin => hne ?_
  have hck : c ∈ k.layout := h.walked.renamed.graph.layout ▸ hc
  have hv : v ∈ (k.block c).values := by
    have hin := hin.1
    rw [h.pruned.values c hck] at hin
    exact (List.mem_filter.mp hin).1
  exact Option.some.inj (hd.symm.trans
    (((h.walked.renamed.listing h.promoting.ssa.listing).listed v c).mpr ⟨hck, hv⟩))

/-- A store is left as it is where a block begins. -/
theorem Promoted.enter_store (hst : (k.value v).op = .store) : (g.enter c j r).env v = r.env v := by
  refine enter_env fun hin => ?_
  rw [h.pruned.op, hst] at hin
  cases hin.2

/-- What is current where the next block begins is what was current at the end of this one. -/
theorem Promoted.enter_current (hr : f.Reached b) (hf : f.follow b i = some (c, j)) :
    (g.enter c j r).env (startValue dom phis blank out c) = r.env (out b) := by
  have hp := h.promoting
  have hcb := follow_next hf
  have hpred := (follow_eq_some.mp hf).2.1
  have hcl := hp.ssa.flow.succs_mem b (hp.ssa.flow.reached_mem hr) c hcb
  cases hphi : phis.lookup c with
  | some x =>
    obtain ⟨hval, hmem⟩ := h.phi hphi
    have harg : (g.value x).args.getD j .missing = .value (out b) := by
      rw [hval, placed_args hp h.walked hphi, List.getD_eq_getElem?_getD, List.getElem?_map, hpred]
      rfl
    have hop : (g.value x).op = .phi := by rw [hval, (h.walked.renamed.new c x hphi).2.2]
    simp only [startValue, hphi]
    rw [enter_phi hmem hop, harg]
    rfl
  | none =>
    have hne : c ≠ f.start := fun heq => by
      have := List.mem_of_getElem? hpred
      rw [heq, hp.ssa.flow.entry_preds] at this
      cases this
    rw [← h.joined c b hr hcb hphi]
    rcases h.walked.start_behind hp (hr.step hcb) hne hphi with hst | ⟨e, he, hec, -⟩
    · exact h.enter_store hst
    · exact h.enter_other hcl he hec

/-- What can be read in the next block is the same in both functions. -/
theorem Promoted.enter_env (hvoid : f.StoresVoid) (hr : f.Reached b)
    (hM : Mirrors f k slot t blank phis σ b (f.block b).values cur s r)
    (hf : f.follow b i = some (c, j)) (hk : f.Known c [] v) (hv : v ≠ slot) :
    (g.enter c j r).env (σ v) = (f.enter c j s).env v ∧
      (f.value v).type.Holds ((f.enter c j s).env v) ∧ ¬ LeadsTo slot ((f.enter c j s).env v) := by
  have hp := h.promoting
  have hcb := follow_next hf
  have hcl := hp.ssa.flow.succs_mem b (hp.ssa.flow.reached_mem hr) c hcb
  by_cases hphi : v ∈ (f.block c).values ∧ (f.value v).op = .phi
  · obtain ⟨hvc, hphi⟩ := hphi
    obtain ⟨a, harg, hty, hend⟩ := hp.ssa.phi_arg hcl hvc hphi hf
    have hmem := List.mem_of_getElem? harg
    have hno : ¬ f.Accesses slot v := by
      rintro (ha | ⟨w, ha⟩) <;> simp [ha.1] at hphi
    have has : a ≠ slot := fun heq => hno <| (hp.promotable.uses c hcl v hvc (heq ▸ hmem)).imp (·.1)
      fun hw => ⟨hw.choose, hw.choose_spec.2.1⟩
    obtain ⟨hsame, hholds, hlead⟩ : r.env (σ a) = s.env a ∧ (f.value a).type.Holds (s.env a) ∧
        ¬ LeadsTo slot (s.env a) := by
      by_cases hst : (f.value a).op = .store
      · exact hM.of_store h.walked hst (hvoid c hcl v hvc a hmem hst)
      · exact hM.env a (hend.known hp.ssa.listing hr hst) has
    obtain ⟨hvg, hopg⟩ := h.listed hcl hvc hno hv
    have hargs : (g.value v).args.getD j .missing = .value (σ a) := by
      rw [h.value hcl hvc hno hv, List.getD_eq_getElem?_getD, List.getElem?_map, harg]
      rfl
    rw [enter_phi hvc hphi, h.walked.resolves.fixed v fun hread => hno (.inl hread),
      enter_phi hvg (hopg.trans hphi), hargs, List.getD_eq_getElem?_getD, harg, ← hty]
    exact ⟨hsame, hholds, hlead⟩
  · obtain ⟨hkb, d, hd, hdc, hdom⟩ := hk.of_edge hp.ssa hr hcb hphi
    have hsame : (g.enter c j r).env (σ v) = r.env (σ v) := by
      rcases h.walked.home hp hd with hst | ⟨e, he, hed⟩
      · exact h.enter_store hst
      · refine h.enter_other hcl he ?_
        rintro rfl
        exact hdc (hdom.antisymm (hr.step hcb) hed)
    rw [hsame, Func.enter_env hphi]
    exact hM.env v hkb hv

theorem Promoted.enter (hvoid : f.StoresVoid) (hr : f.Reached b)
    (hM : Mirrors f k slot t blank phis σ b (f.block b).values (out b) s r)
    (hf : f.follow b i = some (c, j)) :
    Mirrors f k slot t blank phis σ c [] (startValue dom phis blank out c) (f.enter c j s)
      (g.enter c j r) := by
  have hp := h.promoting
  have hcb := follow_next hf
  have hpred := (follow_eq_some.mp hf).2.1
  have hne : c ≠ f.start := fun heq => by
    have := List.mem_of_getElem? hpred
    rw [heq, hp.ssa.flow.entry_preds] at this
    cases this
  have hkept : ∀ {v}, f.Known c [] v → (f.value v).op ≠ .phi →
      f.Known b (f.block b).values v ∧ (f.enter c j s).env v = s.env v := fun hk hphi =>
    have hno := fun hin => hphi (And.right hin)
    ⟨(hk.of_edge hp.ssa hr hcb hno).1, Func.enter_env hno⟩
  have hslot : f.Known c [] slot := ⟨by simp [hp.alloca], f.start,
    (hp.ssa.listing.listed slot f.start).mpr ⟨hp.ssa.flow.start_mem, hp.home⟩,
    .inr ⟨hne.symm, Dom.start _ _ _⟩⟩
  refine ⟨hM.mem, hM.apart, fun v hk hv => h.enter_env hvoid hr hM hf hk hv, fun v hst => ?_,
    fun hk => ?_, fun hno => absurd hslot hno, fun _ => ?_⟩
  · rw [Func.enter_env (by simp [hst]), h.enter_store (h.walked.renamed.store_iff.mpr hst)]
    exact hM.stores v hst
  · obtain ⟨hkb, henv⟩ := hkept hk (by simp [hp.const])
    rw [henv]
    exact hM.zero hkb
  · obtain ⟨hkb, henv⟩ := hkept hslot (by simp [hp.alloca])
    obtain ⟨haddr, -, hholds, hlead, hcells⟩ := hM.made hkb
    have hcur := h.enter_current (r := r) hr hf
    exact ⟨henv.trans haddr, by simpa using h.walked.start_readable hp (hr.step hcb) hne,
      by rwa [hcur], by rwa [hcur], by rwa [hcur]⟩

/-- Both functions leave a block by the same edge, or end in the same way. -/
theorem Promoted.leave (hvoid : f.StoresVoid) (hr : f.Reached b)
    (hM : Mirrors f k slot t blank phis σ b (f.block b).values (out b) s r) :
    Agree (fun p q => p.1 = q.1 ∧ f.Reached p.1 ∧
        Mirrors f k slot t blank phis σ p.1 [] (startValue dom phis blank out p.1) p.2 q.2)
      ((f.leave b s).mapError (.without [slot])) (g.leave b r) := by
  have hp := h.promoting
  have hb := hp.ssa.flow.reached_mem hr
  have hkind : (g.block b).kind = (f.block b).kind :=
    (h.pruned.kind b).trans (h.walked.renamed.kind b)
  have hctl : (g.block b).control = rename σ (f.block b).control :=
    (h.pruned.control b).trans (h.walked.renamed.control b hb)
  have hget : (f.block b).kind = .branch ∨ (f.block b).kind = .ret ∧ (f.block b).control ≠ .missing →
      r.get (g.block b).control = s.get (f.block b).control := by
    intro hk
    obtain ⟨a, ha, hend⟩ := hp.ssa.control_value hb hk
    rw [hctl, ha]
    by_cases hst : (f.value a).op = .store
    · exact hM.store_eq h.walked hst
    · exact (hM.env a (hend.known hp.ssa.listing hr hst)
        fun heq => hp.promotable.control b hb (heq ▸ ha)).1
  unfold Func.leave
  rw [hkind]
  split
  · next hret =>
    by_cases hm : (f.block b).control = .missing
    · rw [hctl, hm, hM.mem]
      exact .stop _
    · have hm' : (g.block b).control ≠ .missing := by
        rw [hctl]
        cases hc : (f.block b).control <;> simp_all [rename]
      rw [if_neg hm, if_neg hm', hget (.inr ⟨hret, hm⟩), hM.mem]
      exact .stop _
  split
  · rw [hM.mem]
    exact .stop _
  · have hedge : (g.block b).edge? (W.interp.holds (r.get (g.block b).control)) =
        (f.block b).edge? (W.interp.holds (s.get (f.block b).control)) := by
      unfold Block.edge?
      rw [hkind]
      cases hk : (f.block b).kind with
      | branch => simp only [hget (.inl hk)]
      | _ => rfl
    have hfollow : g.follow b = f.follow b := funext fun _ => h.graph.follow
    rw [hedge, hfollow]
    split
    · next c j heq =>
      obtain ⟨i, -, hi⟩ := Option.bind_eq_some_iff.mp heq
      exact .go ⟨rfl, hr.step (follow_next hi), h.enter hvoid hr hM hi⟩
    · rw [hM.mem]
      exact .stop _

/-! ## Runs -/

/-- The run of the promoted function is the run of the function without what lies in the slot. -/
theorem Promoted.runs (hc : f.ConstsFit) (hvoid : f.StoresVoid)
    (hzero : (f.value blank).constLanes = some (List.replicate t.numLanes 0))
    (args : List (List UInt64)) (w : W.Mem) (n : Nat) :
    Agree (fun p q => p.1 = q.1 ∧ q.2.mem = p.2.mem.without [slot])
      ((f.run n (f.start, W.start args w)).mapError (.without [slot]))
      (g.run n (g.start, W.start args w)) := by
  have hp := h.promoting
  suffices ∀ p q : BlockId × W.interp.State, p.1 = q.1 ∧ f.Reached p.1 ∧
      Mirrors f k slot t blank phis σ p.1 [] (startValue dom phis blank out p.1) p.2 q.2 →
      Agree (fun p q => p.1 = q.1 ∧ f.Reached p.1 ∧
          Mirrors f k slot t blank phis σ p.1 [] (startValue dom phis blank out p.1) p.2 q.2)
        ((f.run n p).mapError (.without [slot])) (g.run n q) by
    have hno := fun v => Invariant.holding_start (Φ := fun _ _ => False) hp.ssa (W.start args w) v
    have hstart : startValue dom phis blank out f.start = blank := by
      have hphi : phis.lookup f.start = none := by
        by_contra hne
        obtain ⟨x, hx⟩ := Option.ne_none_iff_exists'.mp hne
        exact (h.walked.renamed.mem _ x hx).2 rfl
      simp [startValue, hphi, hp.tree.idom?_eq]
    refine (this (f.start, W.start args w) (g.start, W.start args w)
      ⟨h.graph.start.symm, .refl _ _, ?_, ⟨id, fun _ _ _ hm => absurd hm List.not_mem_nil⟩,
        fun v hk => (hno v hk).elim, fun _ _ => ⟨rfl, rfl⟩, fun hk => (hno _ hk).elim, fun _ => hstart,
        fun hk => (hno _ hk).elim⟩).imp fun p q hpq => ⟨hpq.1, hpq.2.2.mem⟩
    simp [Outside.start, Outside.Memory.without]
  induction n with
  | zero => exact fun p q hpq => .go hpq
  | succ n ih =>
    rintro ⟨b, s⟩ ⟨b', r⟩ ⟨hb, hr, hM⟩
    obtain rfl : b = b' := hb
    have hbl := hp.ssa.flow.reached_mem hr
    have hbody := h.threads hc hvoid hzero hr (h.walked.threads b hr) (List.nil_append _).symm hM
    rw [← h.foldlM_values hbl] at hbody
    rw [run, run, mapError_bind, step, step, mapError_bind]
    exact (hbody.bind fun s' r' _ _ hM' => h.leave hvoid hr hM').bind fun p q _ _ hpq => ih p q hpq

end promoted

/-! ## Every slot -/

/-- Both functions come to the same blocks with the same memory but for what lies in the slots, and end
in the same way. -/
def RunsWithout (W : Outside) (f g : Func) (l : List ValueId) : Prop :=
  ∀ (args : List (List UInt64)) (w : W.Mem) n,
    Agree (fun p q : BlockId × W.interp.State => p.1 = q.1 ∧ q.2.mem = p.2.mem.without l)
      ((f.run n (f.start, W.start args w)).mapError (.without l)) (g.run n (g.start, W.start args w))

theorem RunsWithout.of_lockstep {K : ValueId → Prop} (h : Lockstep W.interp K f g) :
    RunsWithout W f g [] := by
  intro args w n
  have hid : ∀ x : Except W.interp.Halt (BlockId × W.interp.State),
      x.mapError (Interp.Halt.without []) = x := by
    rintro ((_ | _ | _ | _) | _) <;>
      simp only [Except.mapError, Interp.Halt.without, Outside.Memory.without_nil]
  rw [hid]
  exact (h.runs n _).imp fun p q hpq => ⟨hpq.1, by rw [Outside.Memory.without_nil, hpq.2.mem]⟩

theorem RunsWithout.trans {l' : List ValueId} (h₁ : RunsWithout W f g l) (h₂ : RunsWithout W g k l') :
    RunsWithout W f k (l ++ l') := by
  intro args w n
  have htwo : ∀ x : Except W.interp.Halt (BlockId × W.interp.State),
      (x.mapError (Interp.Halt.without l)).mapError (Interp.Halt.without l') =
        x.mapError (Interp.Halt.without (l ++ l')) := by
    rintro ((_ | _ | _ | _) | _) <;>
      simp only [Except.mapError, Interp.Halt.without, Outside.Memory.without_without]
  rw [← htwo]
  refine ((h₁ args w n).mapError _).trans (h₂ args w n) fun p q r hpq hqr => ⟨hpq.1.trans hqr.1, ?_⟩
  rw [hqr.2, hpq.2, Outside.Memory.without_without]

theorem constLanes_zero (t : Ty) :
    (constOf t (splat t 0)).constLanes = some (List.replicate t.numLanes 0) := by
  rw [constLanes_constOf (show (splat t 0).length = t.numLanes from List.length_replicate), splat,
    List.map_replicate, Kind.canon_zero]

/-- If the value is a constant, its lanes fit its type. -/
def LanesFit (y : Value) : Prop :=
  ∀ lanes, y.constLanes = some lanes → ∀ w ∈ lanes, y.type.elemKind.cut w = w

/-- What one promotion after the other leaves of the run: all but what lies in the slots. -/
theorem PromotedAll.runs (h : PromotedAll dom f l g) (hc : f.ConstsFit) (hvoid : f.StoresVoid) :
    g.ConstsFit ∧ g.StoresVoid ∧ RunsWithout W f g l := by
  induction h with
  | nil => exact ⟨hc, hvoid, .of_lockstep (.refl (fun _ => True) _)⟩
  | @step l g k m slot t phis σ args out keep _ hssa _ hprom ih =>
    obtain ⟨hgc, hgvoid, hruns⟩ := ih
    have hstart := hssa.flow.start_mem
    -- the zero that stands for what was not written
    have hzero : ((g.blanked t).value g.numValues).constLanes = some (List.replicate t.numLanes 0) := by
      rw [blanked, value_inserted, if_pos rfl]
      exact constLanes_zero t
    have hbc : (g.blanked t).ConstsFit := by
      refine Each.inserted (P := LanesFit) hssa hstart firstNonPhi_le hgc fun lanes hl w hw => ?_
      obtain rfl := Option.some.inj ((constLanes_zero t).symm.trans hl)
      rw [List.eq_of_mem_replicate hw]
      exact Kind.cut_zero _
    have hins : RunsWithout W g (g.blanked t) [] :=
      .of_lockstep (lockstep_inserted hssa hstart firstNonPhi_le constOf_op)
    have hbvoid : (g.blanked t).StoresVoid :=
      hgvoid.inserted hssa hstart firstNonPhi_le constOf_args (by simp)
    refine ⟨hprom.each (P := LanesFit) (fun _ _ hy => hy) (fun _ _ _ hl => ?_) hbc,
      hprom.storesVoid hbvoid, hruns.trans (hins.trans (hprom.runs hbc hbvoid hzero))⟩
    simp [Value.constLanes, Value.isConst] at hl

/-- The slots are listed no more. -/
theorem PromotedAll.gone (h : PromotedAll dom f l g) (hv : v ∈ l) :
    (g.value v).op = .alloca ∧ ¬ g.IsListed v := by
  induction h with
  | nil => cases hv
  | @step l g k m slot t phis σ args out keep _ hssa _ hprom ih =>
    have hlt : ∀ {f : Func} {x}, (f.value x).op = .alloca → x < f.numValues := fun {f x} hop => by
      by_contra hge
      rw [value_of_le (Nat.le_of_not_lt hge)] at hop
      cases hop
    have hop : ((g.blanked t).value v).op = .alloca ∧ (v = slot ∨ ¬ (g.blanked t).IsListed v) := by
      rcases List.mem_append.mp hv with hv | hv
      · obtain ⟨hop, hno⟩ := ih hv
        have hne := Nat.ne_of_lt (hlt hop)
        refine ⟨by rwa [blanked, value_inserted, if_neg hne], .inr fun hlisted => ?_⟩
        obtain ⟨b, hb, hin⟩ := hlisted
        refine hno ⟨b, hb, ?_⟩
        exact mem_of_mem_inserted (hssa.flow.lt _ hssa.flow.start_mem) firstNonPhi_le hin hne
      · obtain rfl := List.mem_singleton.mp hv
        exact ⟨hprom.promoting.alloca, .inl rfl⟩
    obtain ⟨hop, hor⟩ := hop
    have hv := hlt hop
    refine ⟨hprom.pruned.op.trans ((hprom.walked.renamed.op hv).1.trans hop), fun hlisted => ?_⟩
    obtain ⟨b, hb, hin⟩ := hlisted
    rw [hprom.pruned.graph.layout] at hb
    rw [hprom.pruned.values b hb, List.mem_filter, hprom.walked.renamed.mem_values] at hin
    obtain ⟨hin, hkeep⟩ := hin
    rcases hor with rfl | hno
    · rw [(hprom.dropped v).mpr (.inr rfl)] at hkeep
      cases hkeep
    · exact hno ⟨b, hprom.walked.renamed.graph.layout ▸ hb, hin.resolve_left (hprom.walked.renamed.ne_phi hv)⟩

/-- Promotion gives a function that runs as the one given: from every start both take the same path and
end in the same way, with the same memory but for what lies in the slots that have been promoted. This is
so whatever arithmetic, calls and the memory outside are, if every `alloca` is a private region that is
zeroed when it is made, and loads and stores move the bytes of their type. -/
theorem promote_runs (h : f.Consistent) (hc : f.ConstsFit) :
    ∃ g changed l, f.promote = .ok (g, changed) ∧ (∀ v ∈ l, v ∈ f.slots ∧ ¬ g.IsListed v) ∧
      ∀ W, RunsWithout W f g l := by
  obtain ⟨k, g, changed, live, dom, l, hg, hlive, htrim, hall, -, hslots⟩ := promote_steps h.ssa
  refine ⟨g, changed, l, hg, fun v hv => ⟨?_, (hall.gone hv).2⟩, fun W => ?_⟩
  · obtain ⟨hin, hop⟩ := mem_slots.mp (hslots v hv)
    rw [htrim.start hlive, htrim.values] at hin
    exact mem_slots.mpr ⟨hin, htrim.op.symm.trans hop⟩
  · have hkc : k.ConstsFit := htrim.each (P := LanesFit) (fun _ _ _ hy _ => hy) hc
    exact (RunsWithout.of_lockstep (htrim.lockstep h.ssa hlive)).trans
      (hall.runs hkc (htrim.storesVoid h.storesVoid)).2.2

/-- One or two as the argument says, by way of a slot. -/
def viaSlot : Func where
  name := "viaSlot"
  ret := .i32
  params := [.i1]
  values := #[
    { op := .param, type := .i1, block := some 0 },
    { op := .alloca, type := .ptr, block := some 0, aux := 4 },
    { op := .const, type := .i32, block := some 0, aux := 1 },
    { op := .const, type := .i32, block := some 0, aux := 2 },
    { op := .store, type := .void, block := some 1, args := [.value 2, .value 1] },
    { op := .store, type := .void, block := some 2, args := [.value 3, .value 1] },
    { op := .load, type := .i32, block := some 3, args := [.value 1] }]
  blocks := #[
    { values := [0, 1, 2, 3], kind := .branch, control := .value 0, succs := [1, 2] },
    { values := [4], kind := .jump, succs := [3], preds := [0] },
    { values := [5], kind := .jump, succs := [3], preds := [0] },
    { values := [6], kind := .ret, control := .value 6, preds := [1, 2] }]
  layout := [0, 1, 2, 3]
  paramValues := [0]

/-- A phi takes the place of the slot. -/
theorem promote_runs_viaSlot : viaSlot.Consistent ∧ viaSlot.ConstsFit ∧
    ∃ g l, viaSlot.promote = .ok (g, true) ∧ (∀ v ∈ l, v ∈ viaSlot.slots ∧ ¬ g.IsListed v) ∧
      ∀ W, RunsWithout W viaSlot g l := by
  have hconsistent : viaSlot.Consistent := by decide +kernel
  have hconsts : viaSlot.ConstsFit := by decide +kernel
  obtain ⟨g, changed, l, hg, hl, hruns⟩ := promote_runs hconsistent hconsts
  have hchanged : viaSlot.promote.map Prod.snd = .ok true := by rfl
  rw [hg] at hchanged
  obtain rfl : changed = true := Except.ok.inj hchanged
  exact ⟨hconsistent, hconsts, g, l, hg, hl, hruns⟩

/-- A bit written as two, which its type has no room for, goes through a slot and decides where control
goes. -/
def wideBit : Func where
  name := "wideBit"
  ret := .i32
  params := []
  values := #[
    { op := .alloca, type := .ptr, block := some 0, aux := 1 },
    { op := .const, type := .i1, block := some 0, aux := 2 },
    { op := .store, type := .void, block := some 0, args := [.value 1, .value 0] },
    { op := .load, type := .i1, block := some 0, args := [.value 0] },
    { op := .const, type := .i32, block := some 1, aux := 7 },
    { op := .const, type := .i32, block := some 2, aux := 9 }]
  blocks := #[
    { values := [0, 1, 2, 3], kind := .branch, control := .value 3, succs := [1, 2] },
    { values := [4], kind := .ret, control := .value 4, preds := [0] },
    { values := [5], kind := .ret, control := .value 5, preds := [0] }]
  layout := [0, 1, 2]

/-- An outside in which nothing has a meaning. -/
def mute : Outside := ⟨Unit, Unit, fun _ _ _ _ _ _ => .error ()⟩

/-- Constants have to fit: the slot keeps one bit of the two, so the read gives zero, but promotion puts
the two for it, and control goes the other way. -/
theorem promote_strays_wideBit : wideBit.Consistent ∧ ∀ g changed l,
    wideBit.promote = .ok (g, changed) → ∃ W, ¬ RunsWithout W wideBit g l := by
  refine ⟨by decide +kernel, fun g changed l hg => ⟨mute, fun hruns => ?_⟩⟩
  have hbefore : (wideBit.run 1 (wideBit.start, mute.start [] ())).toOption.map Prod.fst =
      some 2 := by rfl
  have hafter : (wideBit.promote.toOption.bind fun x =>
      (x.1.run 1 (x.1.start, mute.start [] ())).toOption.map Prod.fst) = some 1 := by rfl
  rw [hg] at hafter
  have hagree := hruns [] () 1
  cases hp : wideBit.run 1 (wideBit.start, mute.start [] ()) with
  | error e => simp [hp, Except.toOption] at hbefore
  | ok p =>
    cases hq : g.run 1 (g.start, mute.start [] ()) with
    | error e => simp [hq, Except.toOption] at hafter
    | ok q =>
      rw [hp, hq] at hagree
      rw [hp] at hbefore
      obtain ⟨heq, -⟩ : p.1 = q.1 ∧ _ := by
        cases hagree with
        | go hpq => exact hpq
      have htwo : p.1 = 2 := Option.some.inj hbefore
      have hone : q.1 = 1 := by simpa [Except.toOption, hq] using hafter
      rw [htwo, hone] at heq
      cases heq

end SsaJit.Func
