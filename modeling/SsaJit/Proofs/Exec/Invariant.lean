import SsaJit.Proofs.Exec.Track
import SsaJit.Proofs.Ssa.Frame

/-! What is true of a value whenever it can be read. A property of a value that depends only on it and
on what is defined before it is true at all times if it is true when the value is computed: by the time
that anything it depends on changes, control is where the value cannot be read. -/

namespace SsaJit.Func

variable {I : Interp} {f : Func} {b c d : BlockId} {u v w a : ValueId} {s t : I.State}
  {pre post : List ValueId} {live : BlockId → Prop} {Φ : ValueId → (ValueId → I.Val) → Prop}

/-! ## Values that can be read -/

/-- The value can be read in `b` once the values `pre` of the block have been computed. -/
def Known (f : Func) (b : BlockId) (pre : List ValueId) (v : ValueId) : Prop :=
  (f.value v).op ≠ .store ∧ ∃ d, (f.value v).block = some d ∧
    (d = b ∧ ((f.value v).op = .phi ∨ v ∈ pre) ∨ d ≠ b ∧ f.Dominates d b)

/-- `a` is `v`, or cannot change as long as `v` can be read. -/
def Behind (f : Func) (a v : ValueId) : Prop :=
  a = v ∨ (f.value a).op = .store ∨ ∃ d, (f.value v).block = some d ∧
    if (f.value v).op = .phi then ∃ e, (f.value a).block = some e ∧ e ≠ d ∧ f.Dominates e d
    else f.Earlier a v d

/-- The property is true of all that can be read. -/
def Holding (f : Func) (Φ : ValueId → (ValueId → I.Val) → Prop) (b : BlockId)
    (pre : List ValueId) (s : I.State) : Prop :=
  ∀ v, f.Known b pre v → Φ v s.env

theorem Before.known (h : f.Before (.value a) u b) (hl : f.Listing) (hb : b ∈ f.layout)
    (hr : f.Reached b) (hvals : (f.block b).values = pre ++ u :: post)
    (hstore : (f.value a).op ≠ .store) : f.Known b pre a := by
  obtain ⟨a', ha, h⟩ := h
  obtain rfl : a = a' := by simpa using ha
  obtain ⟨d, hd, hor⟩ := (h.resolve_left hstore).2 hr
  refine ⟨hstore, d, hd, hor.imp (fun ⟨heq, hsub⟩ => ⟨heq, .inr ?_⟩) id⟩
  have hnd := hl.nodup b hb
  rw [hvals] at hsub hnd
  exact sublist_pair_split hnd hsub

theorem AtEnd.known (h : f.AtEnd (.value a) b) (hl : f.Listing) (hr : f.Reached b)
    (hstore : (f.value a).op ≠ .store) : f.Known b (f.block b).values a := by
  obtain ⟨a', ha, h⟩ := h
  obtain rfl : a = a' := by simpa using ha
  obtain ⟨d, hd, hdom⟩ := h.resolve_left hstore
  refine ⟨hstore, d, hd, ?_⟩
  by_cases hdb : d = b
  · subst hdb
    exact .inl ⟨rfl, .inr ((hl.listed a d).mp hd).2⟩
  · exact .inr ⟨hdb, hdom hr⟩

/-- A value that can be read in a reached block stands in a reached block. -/
theorem Known.reached (h : f.Known b pre v) (hr : f.Reached b) :
    ∃ d, (f.value v).block = some d ∧ f.Reached d := by
  obtain ⟨_, d, hd, hor⟩ := h
  refine ⟨d, hd, ?_⟩
  rcases hor with ⟨rfl, _⟩ | ⟨_, hdom⟩
  · exact hr
  · exact hdom.reach hr

theorem Known.mono (h : f.Known b pre v) : f.Known b (pre ++ post) v := by
  obtain ⟨hstore, d, hd, hor⟩ := h
  exact ⟨hstore, d, hd, hor.imp_left fun ⟨heq, hor⟩ =>
    ⟨heq, hor.imp_right (List.mem_append_left _)⟩⟩

/-! ## What changes when a step is taken -/

theorem leave_eq_ok {p : BlockId × I.State} (h : f.leave b s = .ok p) :
    ∃ i j, (f.block b).edge? (I.holds (s.get (f.block b).control)) = some i ∧
      f.follow b i = some (p.1, j) ∧ p.2 = f.enter p.1 j s := by
  unfold leave at h
  split at h
  · cases h
  split at h
  · cases h
  split at h
  · next c j heq =>
    obtain ⟨i, hi, hf⟩ := Option.bind_eq_some_iff.mp heq
    obtain rfl := Except.ok.inj h
    exact ⟨i, j, hi, hf, rfl⟩
  · cases h

theorem follow_next {i j : Nat} (h : f.follow b i = some (c, j)) : c ∈ f.next b :=
  List.mem_of_getElem? (follow_eq_some.mp h).1

/-- An instruction changes nothing but its own value. -/
theorem exec_env (h : f.exec s u = .ok t) (hv : v ≠ u) : t.env v = s.env v := by
  unfold exec at h
  split at h
  · obtain rfl := Except.ok.inj h
    rfl
  · have hassign : ∀ r : I.Val × I.Mem, (s.assign u (f.value u).bare.op r).env v = s.env v := by
      intro r
      simp only [Interp.State.assign]
      split
      · rfl
      · exact Function.update_of_ne hv _ _
    unfold Interp.perform at h
    split at h
    · obtain rfl := Except.ok.inj h
      exact hassign _
    · cases hx : I.exec u (f.value u).bare ((f.value u).reads.map f.operandType)
        ((f.value u).reads.map s.get) s.mem with
      | error why => rw [hx] at h; cases h
      | ok r =>
        rw [hx] at h
        obtain rfl := Except.ok.inj h
        exact hassign r

/-- A phi is left as it is where it stands, and so is a store. -/
theorem exec_env_still (h : f.exec s u = .ok t)
    (hu : (f.value u).op = .phi ∨ (f.value u).op = .store) : t.env = s.env := by
  unfold exec at h
  split at h
  · obtain rfl := Except.ok.inj h
    rfl
  · next hphi =>
    have hstore := hu.resolve_left hphi
    unfold Interp.perform at h
    rw [if_neg (by simp [Value.bare, hstore])] at h
    cases hx : I.exec u (f.value u).bare ((f.value u).reads.map f.operandType)
      ((f.value u).reads.map s.get) s.mem with
    | error why => rw [hx] at h; cases h
    | ok r =>
      rw [hx] at h
      obtain rfl := Except.ok.inj h
      exact if_pos hstore

theorem enter_mem {j : Nat} : (f.enter c j s).mem = s.mem := rfl

theorem enter_env {j : Nat} (hv : ¬(v ∈ (f.block c).values ∧ (f.value v).op = .phi)) :
    (f.enter c j s).env v = s.env v := if_neg hv

theorem enter_phi {j : Nat} (hv : v ∈ (f.block c).values) (hphi : (f.value v).op = .phi) :
    (f.enter c j s).env v = s.get ((f.value v).args.getD j .missing) := if_pos ⟨hv, hphi⟩

/-- What a value that can be read depends on is not computed next. -/
theorem Behind.ne_of_known (h : f.Behind a v) (hs : f.Ssa) (hb : b ∈ f.layout)
    (hr : f.Reached b) (hvals : (f.block b).values = pre ++ u :: post)
    (hphi : (f.value u).op ≠ .phi) (hstore : (f.value u).op ≠ .store) (hk : f.Known b pre v) :
    a ≠ u := by
  rintro rfl
  have hnd := hs.listing.nodup b hb
  rw [hvals] at hnd
  have hpre : a ∉ pre := fun hm => (List.nodup_append.mp hnd).2.2 a hm a List.mem_cons_self rfl
  have hblock : (f.value a).block = some b :=
    (hs.listing.listed a b).mpr ⟨hb, by rw [hvals]; simp⟩
  obtain ⟨_, d, hd, hk⟩ := hk
  rcases h with rfl | h | ⟨d', hd', h⟩
  · obtain rfl : b = d := Option.some.inj (hblock.symm.trans hd)
    rcases hk with ⟨_, hk⟩ | ⟨hne, _⟩
    · exact hk.elim hphi hpre
    · exact hne rfl
  · exact hstore h
  · obtain rfl : d = d' := Option.some.inj (hd.symm.trans hd')
    -- `a` stands in `b`, in front of `v` or in a block that dominates that of `v`
    have hfront : b = d ∧ v ∈ pre ∧ [a, v].Sublist (f.block b).values ∨
        b ≠ d ∧ f.Dominates b d := by
      split at h
      · obtain ⟨e, he, hne, hdom⟩ := h
        obtain rfl : b = e := Option.some.inj (hblock.symm.trans he)
        exact .inr ⟨hne, hdom⟩
      · next hvphi =>
        obtain ⟨e, he, hor⟩ := h
        obtain rfl : b = e := Option.some.inj (hblock.symm.trans he)
        rcases hor with ⟨rfl, hsub⟩ | ⟨hne, hdom⟩
        · exact .inl ⟨rfl, ((hk.resolve_right fun hno => hno.1 rfl).2).resolve_left hvphi, hsub⟩
        · exact .inr ⟨hne, hdom⟩
    rcases hfront with ⟨_, hv, hsub⟩ | ⟨hne, hdom⟩
    · rw [hvals] at hsub
      obtain ⟨_, _, hlt⟩ := (sublist_pair_iff hnd).mp hsub
      rw [List.idxOf_append_of_notMem hpre, List.idxOf_append_of_mem hv] at hlt
      have := List.idxOf_lt_length_of_mem hv
      omega
    · rcases hk with ⟨heq, _⟩ | ⟨_, hk⟩
      · exact hne heq.symm
      · exact hne (hdom.antisymm (hk.reach hr) hk)

/-- What a value that can be read at the end of a block, and where the block leads, depends on is no
phi of the next block. -/
theorem Behind.ne_phi (h : f.Behind a v) (hs : f.Ssa) (hc : c ∈ f.layout) (hr : f.Reached c)
    (ha : a ∈ (f.block c).values) (hphi : (f.value a).op = .phi)
    (hd : (f.value v).block = some d) (hne : d ≠ c) (hdom : f.Dominates d c) : False := by
  have hblock : (f.value a).block = some c := (hs.listing.listed a c).mpr ⟨hc, ha⟩
  have hcd : ∀ {e}, (f.value a).block = some e → f.Dominates e d → False := by
    intro e he hed
    obtain rfl : c = e := Option.some.inj (hblock.symm.trans he)
    exact hne (hdom.antisymm hr hed)
  rcases h with rfl | h | ⟨d', hd', h⟩
  · exact hne (Option.some.inj (hd.symm.trans hblock))
  · simp [hphi] at h
  · obtain rfl : d = d' := Option.some.inj (hd.symm.trans hd')
    split at h
    · obtain ⟨e, he, _, hed⟩ := h
      exact hcd he hed
    · obtain ⟨e, he, hor⟩ := h
      rcases hor with ⟨rfl, _⟩ | ⟨_, hed⟩
      · exact hcd he (.refl _ _ _)
      · exact hcd he hed

/-! ## Invariants -/

/-- Why a property is true of all that can be read, in the blocks of a part of the function that is
never left. -/
structure Invariant (I : Interp) (f : Func) (live : BlockId → Prop)
    (Φ : ValueId → (ValueId → I.Val) → Prop) : Prop where
  reached : ∀ b, live b → f.Reached b
  start : live f.start
  frame : ∀ v d (env env' : ValueId → I.Val), (f.value v).op ≠ .store →
    (f.value v).block = some d → f.Reached d → (∀ a, f.Behind a v → env a = env' a) →
    Φ v env → Φ v env'
  value : ∀ b pre u post (s t : I.State), live b → (f.block b).values = pre ++ u :: post →
    (f.value u).op ≠ .phi → (f.value u).op ≠ .store → f.Holding Φ b pre s →
    f.exec s u = .ok t → Φ u t.env
  edge : ∀ b (s : I.State) p, live b → f.Holding Φ b (f.block b).values s →
    f.leave b s = .ok p → live p.1
  phi : ∀ b (s : I.State) p, live b → f.Holding Φ b (f.block b).values s →
    f.leave b s = .ok p → ∀ v ∈ (f.block p.1).values, (f.value v).op = .phi → Φ v p.2.env

namespace Invariant

theorem mem_layout (h : Invariant I f live Φ) (hs : f.Ssa) (hb : live b) : b ∈ f.layout :=
  hs.flow.reached_mem (h.reached b hb)

theorem exec (h : Invariant I f live Φ) (hs : f.Ssa) (hb : live b)
    (hvals : (f.block b).values = pre ++ u :: post) (hH : f.Holding Φ b pre s)
    (hx : f.exec s u = .ok t) : f.Holding Φ b (pre ++ [u]) t := by
  intro v hv
  have hbl := h.mem_layout hs hb
  have hr := h.reached b hb
  by_cases hstill : (f.value u).op = .phi ∨ (f.value u).op = .store
  · rw [exec_env_still hx hstill]
    refine hH v ⟨hv.1, ?_⟩
    obtain ⟨d, hd, hor⟩ := hv.2
    refine ⟨d, hd, hor.imp_left fun ⟨heq, hor⟩ => ⟨heq, hor.elim .inl fun hm => ?_⟩⟩
    rcases List.mem_append.mp hm with hm | hm
    · exact .inr hm
    · obtain rfl : v = u := by simpa using hm
      exact .inl (hstill.resolve_right hv.1)
  · rw [not_or] at hstill
    by_cases hvu : v = u
    · subst hvu
      exact h.value b pre v post s t hb hvals hstill.1 hstill.2 hH hx
    · have hk : f.Known b pre v := by
        obtain ⟨hst, d, hd, hor⟩ := hv
        refine ⟨hst, d, hd, hor.imp_left fun ⟨heq, hor⟩ => ⟨heq, hor.imp_right fun hm => ?_⟩⟩
        simpa [hvu] using hm
      obtain ⟨d, hd, hrd⟩ := hk.reached hr
      refine h.frame v d s.env t.env hv.1 hd hrd (fun a ha => ?_) (hH v hk)
      exact (exec_env hx (ha.ne_of_known hs hbl hr hvals hstill.1 hstill.2 hk)).symm

theorem leave (h : Invariant I f live Φ) (hs : f.Ssa) (hb : live b)
    (hH : f.Holding Φ b (f.block b).values s) {p : BlockId × I.State}
    (hx : f.leave b s = .ok p) : live p.1 ∧ f.Holding Φ p.1 [] p.2 := by
  have hlive := h.edge b s p hb hH hx
  refine ⟨hlive, fun v hv => ?_⟩
  have hr := h.reached _ hlive
  have hcl := h.mem_layout hs hlive
  obtain ⟨hst, d, hd, hor⟩ := hv
  rcases hor with ⟨rfl, hphi⟩ | ⟨hne, hdom⟩
  · exact h.phi b s p hb hH hx v ((hs.listing.listed v _).mp hd).2
      (hphi.resolve_right List.not_mem_nil)
  · obtain ⟨i, j, _, hfollow, hp⟩ := leave_eq_ok hx
    have hend : f.Known b (f.block b).values v :=
      AtEnd.known ⟨v, rfl, .inr ⟨d, hd, fun _ => hdom.of_edge (follow_next hfollow) hne⟩⟩
        hs.listing (h.reached b hb) hst
    refine h.frame v d s.env p.2.env hst hd (hdom.reach hr) (fun a ha => ?_) (hH v hend)
    rw [hp]
    exact (enter_env fun hin => ha.ne_phi hs hcl hr hin.1 hin.2 hd hne hdom).symm

end Invariant

end SsaJit.Func
