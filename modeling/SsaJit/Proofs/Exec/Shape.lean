import SsaJit.Proofs.Exec.Lanes

/-! Values have as many lanes as their types, whatever the patterns of constants are. Only a store has
none, and its type is void; so what is asked of a function is that nothing else stands for a store. -/

namespace SsaJit

/-! ## Folding -/

namespace Operation

theorem length_perLane {g : Nat → Outcome (Option UInt64)} {l : List Nat} {r : List UInt64}
    (h : perLane g l = .ok (some r)) : r.length = l.length := by
  induction l generalizing r with
  | nil =>
    obtain rfl := Option.some.inj (Except.ok.inj h)
    rfl
  | cons i l ih =>
    rw [perLane, Outcome.bind_eq_ok] at h
    obtain ⟨x, -, h⟩ := h
    cases x with
    | none => cases h
    | some w =>
      obtain ⟨m, hm, h⟩ := Outcome.bind_eq_ok.mp h
      cases m with
      | none => cases h
      | some m =>
        obtain rfl := Option.some.inj (Except.ok.inj h)
        rw [List.length_cons, ih hm, List.length_cons]

theorem length_mapM {g : Nat → Outcome UInt64} {l : List Nat} {r : List UInt64}
    (h : some <$> l.mapM g = .ok (some r)) : r.length = l.length := by
  obtain ⟨m, hm, h⟩ := Outcome.map_eq_ok.mp h
  obtain rfl := Option.some.inj h
  exact (Outcome.mapM_eq_ok.mp hm).length_eq.symm

theorem length_fit (n : Nat) (lanes : List UInt64) : (fit n lanes).length = n := by
  simp only [fit, List.length_append, List.length_take, List.length_replicate]
  omega

theorem length_readLanes {k : Kind} {width n : Nat} {buf : List UInt8} {r : List UInt64}
    (h : readLanes k width n buf = .ok r) : r.length = n := by
  induction n generalizing buf r with
  | zero =>
    obtain rfl := Except.ok.inj h
    rfl
  | succ n ih =>
    rw [readLanes] at h
    split at h
    · cases h
    · obtain ⟨m, hm, h⟩ := Outcome.bind_eq_ok.mp h
      obtain rfl := Except.ok.inj h
      rw [List.length_cons, ih hm]

end Operation

namespace Func

/-- Folding gives the lanes of the result's type, if the arms of a choice have them. -/
theorem length_fold {x : Value} {ts : List Ty} {args : List (List UInt64)} {r : List UInt64}
    (h : (operationOf x ts).fold args = .ok (some r)) (harms : x.op = .select →
      ∀ i a, args[i + 1]? = some a → a.length = x.type.numLanes) : r.length = x.type.numLanes := by
  unfold Operation.fold at h
  extract_lets n k arg lanes at h
  have hlanes : ∀ g, lanes g = .ok (some r) → r.length = x.type.numLanes := fun g hg => by
    rw [Operation.length_mapM hg, List.length_range]
    rfl
  have hper : ∀ g, Operation.perLane g (List.range n) = .ok (some r) →
      r.length = x.type.numLanes := fun g hg => by
    rw [Operation.length_perLane hg, List.length_range]
    rfl
  clear_value lanes
  split at h
  · exact hper _ h
  split at h
  · exact hlanes _ h
  · exact hlanes _ h
  · obtain ⟨s, -, h⟩ := Outcome.bind_eq_ok.mp h
    exact hlanes _ h
  · obtain ⟨s, -, h⟩ := Outcome.bind_eq_ok.mp h
    exact hlanes _ h
  · -- bytes read as lanes
    obtain ⟨s, -, h⟩ := Outcome.bind_eq_ok.mp h
    obtain ⟨m, hm, h⟩ := Outcome.map_eq_ok.mp h
    obtain rfl := Option.some.inj h
    obtain ⟨a, -, hm⟩ := Outcome.bind_eq_ok.mp hm
    obtain ⟨buf, -, hm⟩ := Outcome.bind_eq_ok.mp hm
    exact Operation.length_readLanes hm
  · -- a choice by lanes, or of one arm as a whole
    next hop =>
    obtain ⟨s, -, h⟩ := Outcome.bind_eq_ok.mp h
    split at h
    · exact hlanes _ h
    · obtain ⟨m, hm, h⟩ := Outcome.map_eq_ok.mp h
      obtain rfl := Option.some.inj h
      obtain ⟨w, -, hm⟩ := Outcome.bind_eq_ok.mp hm
      split at hm
      · exact harms hop 0 m (Outcome.at?_eq_ok.mp hm)
      · exact harms hop 1 m (Outcome.at?_eq_ok.mp hm)
  · obtain ⟨s, -, h⟩ := Outcome.bind_eq_ok.mp h
    obtain ⟨w, -, h⟩ := Outcome.bind_eq_ok.mp h
    split at h
    · cases h
    · obtain rfl := Option.some.inj (Except.ok.inj h)
      exact Operation.length_fit _ _
  · obtain ⟨s, -, h⟩ := Outcome.bind_eq_ok.mp h
    obtain ⟨w, -, h⟩ := Outcome.bind_eq_ok.mp h
    split at h
    · cases h
    · obtain rfl := Option.some.inj (Except.ok.inj h)
      rw [List.length_set]
      exact Operation.length_fit _ _
  · obtain ⟨s, -, h⟩ := Outcome.bind_eq_ok.mp h
    split at h
    · cases h
    · obtain ⟨m, -, h⟩ := Outcome.bind_eq_ok.mp h
      obtain rfl := Option.some.inj (Except.ok.inj h)
      exact Operation.length_fit _ _
  · obtain ⟨a, -, h⟩ := Outcome.bind_eq_ok.mp h
    obtain rfl := Option.some.inj (Except.ok.inj h)
    exact Operation.length_fit _ _
  · split at h
    · obtain ⟨s, -, h⟩ := Outcome.bind_eq_ok.mp h
      exact hper _ h
    · cases h

/-! ## While a function runs -/

variable {W : World} {f g : Func} {b c d : BlockId} {u v w a : ValueId} {o : Operand}
  {s t : W.interp.State} {pre post : List ValueId} {env : ValueId → List UInt64}

/-- The value has the lanes of its type. -/
def Shaped (f : Func) (v : ValueId) (env : ValueId → List UInt64) : Prop :=
  (f.value v).type ≠ .void → (env v).length = (f.value v).type.numLanes

/-- The arms of a choice have its type. -/
theorem Ssa.arm (hs : f.Ssa) (hb : b ∈ f.layout) (hv : v ∈ (f.block b).values)
    (hop : (f.value v).op = .select) {i : Nat} (ho : (f.value v).args[i + 1]? = some o) :
    ∃ a, o = .value a ∧ (f.value a).type = (f.value v).type ∧ f.Before (.value a) v b := by
  have hbefore := hs.before hb hv (by simp [hop]) (by simp [hop]) (List.mem_of_getElem? ho)
  obtain ⟨a, rfl⟩ := hbefore.isValue
  have hwell := hs.typed hb hv (by simp [hop])
  simp only [WellTyped, hop, Op.isBinary, Op.isCast, Bool.false_eq_true, if_false] at hwell
  obtain ⟨c, htypes, -⟩ := hwell
  have hi := congrArg (·[i + 1]?) htypes
  simp only [argTypes, List.getElem?_map, ho, Option.map_some, operandType] at hi
  refine ⟨a, rfl, ?_, hbefore⟩
  rcases i with _ | _ | i
  · simpa using hi
  · simpa using hi
  · simp at hi

/-- What an instruction reads where all that can be read has its lanes. -/
theorem shaped_of_before (hs : f.Ssa) (hv : f.StoresVoid) (hb : b ∈ f.layout) (hr : f.Reached b)
    (hvals : (f.block b).values = pre ++ u :: post) (hH : f.Holding f.Shaped b pre s)
    (ha : .value a ∈ (f.value u).args) (hbefore : f.Before (.value a) u b) : f.Shaped a s.env := by
  intro hty
  have hu : u ∈ (f.block b).values := by rw [hvals]; simp
  exact hH a (hbefore.known hs.listing hb hr hvals fun hstore => hty (hv b hb u hu a ha hstore)) hty

/-- What folding gives has the lanes of its type. -/
theorem length_eval? (hs : f.Ssa) (hv : f.StoresVoid) (hb : b ∈ f.layout) (hr : f.Reached b)
    (hvals : (f.block b).values = pre ++ u :: post) (hH : f.Holding f.Shaped b pre s)
    {r : List UInt64} (hty : (f.value u).type ≠ .void)
    (hfold : (f.value u).bare.eval? ((f.value u).reads.map f.operandType)
      ((f.value u).reads.map (W.interp.read s.env)) = some r) :
    r.length = (f.value u).type.numLanes := by
  have hu : u ∈ (f.block b).values := by rw [hvals]; simp
  obtain ⟨hop, hfold⟩ := Value.eval?_eq_some.mp hfold
  refine length_fold (x := (f.value u).bare) hfold fun hsel i y hy => ?_
  have hreads : (f.value u).reads = (f.value u).args := if_neg (Op.isFoldable_ne hop).2.1
  rw [hreads, List.getElem?_map, Option.map_eq_some_iff] at hy
  obtain ⟨o, ho, rfl⟩ := hy
  obtain ⟨a, rfl, hta, hbefore⟩ := hs.arm hb hu hsel ho
  have hshape := shaped_of_before hs hv hb hr hvals hH (List.mem_of_getElem? ho) hbefore (hta ▸ hty)
  rw [hta] at hshape
  exact hshape

/-- While a function runs, all that can be read has the lanes of its type. -/
theorem shaped_invariant (W : World) (hs : f.Ssa) (hv : f.StoresVoid) :
    Invariant W.interp f f.Reached f.Shaped where
  reached _ hb := hb
  start := .refl _ _
  frame x d env env' _ _ _ henv hx := by
    rw [Shaped, ← henv x (.inl rfl)]
    exact hx
  value b pre u post s t hb hvals hphi hstore hH hx hty := by
    have hbl := hs.flow.reached_mem hb
    have hu : u ∈ (f.block b).values := by rw [hvals]; simp
    by_cases hconst : (f.value u).op = .const
    · rw [exec_const hconst hx]
      exact hs.length_const hbl hu hconst
    · rcases exec_interp hphi hconst hstore hx with ⟨r, hfold, hr, -⟩ | ⟨-, hfits⟩
      · rw [hr]
        exact length_eval? hs hv hbl hb hvals hH hty hfold
      · exact hfits.1
  edge b s p hb _ hp := by
    obtain ⟨i, j, _, hf, _⟩ := leave_eq_ok hp
    exact Reach.step hb (follow_next hf)
  phi b s p hb hH hp u hu hphi hty := by
    obtain ⟨i, j, _, hf, hp2⟩ := leave_eq_ok hp
    have hbl := hs.flow.reached_mem hb
    have hcl := hs.flow.succs_mem b hbl p.1 (follow_next hf)
    obtain ⟨a, harg, hta, hend⟩ := hs.phi_arg hcl hu hphi hf
    have hstore : (f.value a).op ≠ .store := fun hstore =>
      hty (hta ▸ hv _ hcl u hu a (List.mem_of_getElem? harg) hstore)
    have henv : p.2.env u = s.env a := by
      rw [hp2, enter_phi hu hphi, List.getD_eq_getElem?_getD, harg]
      rfl
    rw [henv, ← hta]
    exact hH a (hend.known hs.listing hb hstore) (hta ▸ hty)

end Func
end SsaJit
