import SsaJit.Proofs.Exec.Lanes

/-! Values that can be computed again. What such a value is, or why it stops the program, depends on its
operands alone, and nothing else changes when it is computed. So wherever it can be read it is still
what its operation makes of its operands. -/

namespace SsaJit.Func

variable {I : Interp} {f : Func} {b c d : BlockId} {u v w a : ValueId} {s t : I.State}
  {F : List I.Val → Except I.Stop I.Val} {live : BlockId → Prop}
  {Φ Ψ : ValueId → (ValueId → I.Val) → Prop}

theorem reads_of_pure {y : Value} (h : y.isPure = true) : y.reads = y.args := if_neg (isPure_op h).2.1

/-- The value is what this function makes of its operands, or the program stops; computing it changes
nothing else. -/
structure Computes (I : Interp) (f : Func) (v : ValueId) (F : List I.Val → Except I.Stop I.Val) :
    Prop where
  phi : (f.value v).op ≠ .phi
  store : (f.value v).op ≠ .store
  exec : ∀ s : I.State, f.exec s v = match F ((f.value v).reads.map (I.read s.env)) with
    | .ok r => .ok { s with env := Function.update s.env v r }
    | .error why => .error (.stopped why s.mem)

/-- A value that is computed by what its instruction makes of the operands, whatever is in memory. -/
theorem computes_of_exec (hphi : (f.value v).op ≠ .phi) (hstore : (f.value v).op ≠ .store)
    (hconst : (f.value v).op = .const → ∀ xs, F xs = .ok (I.const (f.value v).bare))
    (hexec : (f.value v).op ≠ .const → ∀ xs m, I.exec v (f.value v).bare
      ((f.value v).reads.map f.operandType) xs m = (F xs).map fun r => (r, m)) :
    Computes I f v F := by
  refine ⟨hphi, hstore, fun s => ?_⟩
  have hassign : ∀ r, s.assign v (f.value v).bare.op (r, s.mem) =
      { s with env := Function.update s.env v r } := fun r => by
    simp only [Interp.State.assign, if_neg (show (f.value v).bare.op ≠ .store from hstore)]
  rw [Func.exec, if_neg hphi, Interp.perform]
  by_cases hc : (f.value v).op = .const
  · rw [if_pos (show (f.value v).bare.op = .const from hc), hconst hc, hassign]
  · rw [if_neg (show (f.value v).bare.op ≠ .const from hc), hexec hc,
      show I.read s.env = s.get from rfl]
    cases F ((f.value v).reads.map s.get) with
    | error why => rfl
    | ok r => exact congrArg _ (hassign r)

/-- What is known of a value that can be computed again: doing so would not change it. -/
def UpToDate (I : Interp) (f : Func) (v : ValueId) (F : List I.Val → Except I.Stop I.Val)
    (x : ValueId) (env : ValueId → I.Val) : Prop :=
  x = v → F ((f.value v).reads.map (I.read env)) = .ok (env v)

theorem Computes.exec_eq_ok (h : Computes I f v F) (hx : f.exec s v = .ok t) :
    ∃ r, F ((f.value v).reads.map (I.read s.env)) = .ok r ∧
      t = { s with env := Function.update s.env v r } := by
  rw [h.exec] at hx
  cases hF : F ((f.value v).reads.map (I.read s.env)) with
  | error why => rw [hF] at hx; cases hx
  | ok r =>
    rw [hF] at hx
    exact ⟨r, rfl, (Except.ok.inj hx).symm⟩

theorem Computes.invariant (h : Computes I f v F) (hs : f.Ssa) :
    Invariant I f f.Reached (UpToDate I f v F) where
  reached _ hb := hb
  start := .refl _ _
  frame x d env env' _ hd hr henv hx := by
    rintro rfl
    rw [← henv x (.inl rfl), ← reads_congr hs hd hr h.phi henv]
    exact hx rfl
  value b part u post s t hb hvals _ _ _ hx := by
    rintro rfl
    have hbl := hs.flow.reached_mem hb
    have hu : u ∈ (f.block b).values := by rw [hvals]; simp
    obtain ⟨r, hF, rfl⟩ := h.exec_eq_ok hx
    simp only [Function.update_self]
    rw [← hF]
    congr 1
    refine List.map_congr_left fun o ho => ?_
    obtain ⟨a, rfl, hbefore⟩ := hs.reads_value hbl hu h.phi ho
    exact Function.update_of_ne (hbefore.ne hs.listing hbl hb hu h.store) _ _
  edge b s p hb _ hp := by
    obtain ⟨i, j, _, hf, _⟩ := leave_eq_ok hp
    exact hb.step (follow_next hf)
  phi b s p _ _ _ x _ hphi := by
    rintro rfl
    exact absurd hphi h.phi

/-! ## More than one thing known -/

namespace Invariant

/-- What two invariants say. -/
theorem and (h : Invariant I f live Φ) (h' : Invariant I f live Ψ) :
    Invariant I f live fun x env => Φ x env ∧ Ψ x env where
  reached := h.reached
  start := h.start
  frame x d env env' hst hd hr henv hx :=
    ⟨h.frame x d env env' hst hd hr henv hx.1, h'.frame x d env env' hst hd hr henv hx.2⟩
  value b pre u post s t hb hvals hphi hst hH hx :=
    ⟨h.value b pre u post s t hb hvals hphi hst (fun x hk => (hH x hk).1) hx,
      h'.value b pre u post s t hb hvals hphi hst (fun x hk => (hH x hk).2) hx⟩
  edge b s p hb hH hp := h.edge b s p hb (fun x hk => (hH x hk).1) hp
  phi b s p hb hH hp x hx hphi :=
    ⟨h.phi b s p hb (fun x hk => (hH x hk).1) hp x hx hphi,
      h'.phi b s p hb (fun x hk => (hH x hk).2) hp x hx hphi⟩

/-- A value that equals another one, defined before it, when it is computed equals it as long as it can
be read. -/
theorem paired (h : Invariant I f live Φ) (hs : f.Ssa) (hb : b ∈ f.layout)
    (hv : v ∈ (f.block b).values) (hr : f.Reached b) (hphi : (f.value v).op ≠ .phi)
    (hstore : (f.value v).op ≠ .store) (hbefore : f.Before (.value w) v b)
    (hsame : ∀ pre post (s t : I.State), live b → (f.block b).values = pre ++ v :: post →
      f.Holding Φ b pre s → f.exec s v = .ok t → t.env v = s.env w) :
    Invariant I f live fun x env => Φ x env ∧ (x = v → env v = env w) := by
  have hblock := (hs.listing.listed v b).mpr ⟨hb, hv⟩
  have hne : w ≠ v := hbefore.ne hs.listing hb hr hv hstore
  refine ⟨h.reached, h.start, fun x d env env' hst hd hrd henv hx => ?_,
    fun c pre u post s t hc hvals hphi hst hH hx => ?_, fun c s p hc hH hp => ?_,
    fun c s p hc hH hp x hx hphi' => ?_⟩
  · refine ⟨h.frame x d env env' hst hd hrd henv hx.1, ?_⟩
    rintro rfl
    obtain rfl : b = d := Option.some.inj (hblock.symm.trans hd)
    rw [← henv x (.inl rfl), ← henv w (hbefore.behind hrd hd hphi)]
    exact hx.2 rfl
  · refine ⟨h.value c pre u post s t hc hvals hphi hst (fun x hk => (hH x hk).1) hx, ?_⟩
    rintro rfl
    obtain rfl := hs.listing.unique (h.mem_layout hs hc) hb (by rw [hvals]; simp) hv
    rw [exec_env hx hne]
    exact hsame pre post s t hc hvals (fun x hk => (hH x hk).1) hx
  · exact h.edge c s p hc (fun x hk => (hH x hk).1) hp
  · refine ⟨h.phi c s p hc (fun x hk => (hH x hk).1) hp x hx hphi', ?_⟩
    rintro rfl
    exact absurd hphi' hphi

end Invariant

end SsaJit.Func
