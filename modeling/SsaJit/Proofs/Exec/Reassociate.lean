import SsaJit.Proofs.Exec.Combine
import SsaJit.Proofs.Exec.Shape
import SsaJit.Proofs.Pass.Reassociate

/-! Reassociation leaves functions running as before, and every value with the lanes it had. An operation
is rewritten in place while others go on reading it, so what is shown is that it has the same result
whenever it runs. Its operands are what they are made of, and what is cut off a constant makes no
difference modulo the width of the type; nothing is asked of the patterns of constants. -/

namespace SsaJit.Func

variable {W : World} {f g k : Func} {b c d : BlockId} {u v w x a e : ValueId} {o : Operand}
  {op : Op} {lanes : List UInt64} {s : W.interp.State} {pre post : List ValueId}
  {env : ValueId → List UInt64}

/-! ## What operations and their operands are -/

/-- A value has the lanes of its type, and is what it is made of. -/
def Formed (W : World) (f : Func) (v : ValueId) (env : ValueId → List UInt64) : Prop :=
  f.Shaped v env ∧ f.Folded W v env

theorem formed_invariant (W : World) (h : f.Plain) :
    Invariant W.interp f f.Reached (f.Formed W) :=
  (shaped_invariant W h.ssa h.stores).and (folded_invariant W h.ssa)

/-- All that can stand for a value of some type at this moment has its lanes and is what it is made of. -/
def Ready (W : World) (f : Func) (v : ValueId) (b : BlockId) (env : ValueId → List UInt64) : Prop :=
  ∀ x, f.Serves x v b → (env x).length = (f.value v).type.numLanes ∧ f.Folded W x env

theorem ready_of_holding (h : f.Plain) (hr : f.Reached b)
    (hvals : (f.block b).values = pre ++ v :: post) (hty : (f.value v).type ≠ .void)
    (hH : f.Holding (f.Formed W) b pre s) : f.Ready W v b s.env := by
  intro x hx
  obtain ⟨hshape, hfold⟩ := hH x
    (hx.before.known h.ssa.listing (h.ssa.flow.reached_mem hr) hr hvals hx.noStore)
  exact ⟨hx.type ▸ hshape (hx.type.symm ▸ hty), hfold⟩

/-- What a constant is. -/
theorem Ready.const (hset : f.Ready W v b env) (h : f.Ssa) (hc : f.ConstLike e v b) :
    env e = f.lanesOf e := by
  obtain ⟨hlen, hfold⟩ := hset e hc.toServes
  cases hl : (f.value e).constLanes with
  | some r => rw [hfold.const r hl, lanesOf, hl, Option.getD_some]
  | none =>
    -- a vector of no lanes may come without a list of them
    have hnil : f.lanesOf e = [] := by rw [lanesOf, hl, Option.getD_none]
    rw [hnil, ← List.length_eq_zero_iff, hlen, ← hc.length h, hnil, List.length_nil]

theorem fold_wrapped {y : Value} {ts : List Ty} {p q : List UInt64}
    (hop : isAssociative y.op = true ∨ y.op = .sub) (hp : p.length = y.type.numLanes)
    (hq : q.length = y.type.numLanes) :
    (operationOf y ts).fold [p, q] = .ok (some (wrappedLanes y.type y.op p q)) := by
  refine fold_binary_zipWith ?_ hp hq fun a b => evalBinary_wrapped hop
  rcases hop with hop | hop
  · exact (isAssociative_op hop).1
  · rw [hop]
    rfl

theorem isFoldable_wrapped (hop : isAssociative op = true ∨ op = .sub) : op.isFoldable = true := by
  rcases hop with hop | rfl
  · exact Op.isFoldable_of_binary (isAssociative_op hop).1
  · rfl

theorem makes_wrapped (hop : isAssociative (f.value v).op = true ∨ (f.value v).op = .sub)
    (hargs : (f.value v).args = [.value a, .value e])
    (ha : (env a).length = (f.value v).type.numLanes)
    (he : (env e).length = (f.value v).type.numLanes) :
    Makes W f v env (wrappedLanes (f.value v).type (f.value v).op (env a) (env e)) :=
  makes_of_fold (l := [a, e]) (isFoldable_wrapped hop) hargs (fold_wrapped hop ha he)

theorem exec_wrapped (hop : isAssociative (f.value v).op = true ∨ (f.value v).op = .sub)
    (hargs : (f.value v).args = [.value a, .value e])
    (ha : (s.env a).length = (f.value v).type.numLanes)
    (he : (s.env e).length = (f.value v).type.numLanes) :
    f.exec s v = .ok { s with
      env := Function.update s.env v
        (wrappedLanes (f.value v).type (f.value v).op (s.env a) (s.env e)) } := by
  rw [exec_of_makes (makes_wrapped hop hargs ha he)]
  have hstore := (Op.isFoldable_ne (isFoldable_wrapped hop)).2.2.1
  simp only [Interp.State.assign, if_neg hstore]

/-- What the operation is that another one reads, with its operands in any order. -/
theorem Ready.inner (hset : f.Ready W v b env) (hw : f.Serves w v b)
    (hop : isAssociative (f.value w).op = true)
    (hreads : (f.value w).args = [.value x, .value e] ∨ (f.value w).args = [.value e, .value x])
    (hx : f.Serves x v b) (he : f.Serves e v b) :
    env w = wrappedLanes (f.value v).type (f.value w).op (env x) (env e) := by
  obtain ⟨-, hfold⟩ := hset w hw
  have hxl : (env x).length = (f.value w).type.numLanes := hw.type ▸ (hset x hx).1
  have hel : (env e).length = (f.value w).type.numLanes := hw.type ▸ (hset e he).1
  rw [← hw.type]
  rcases hreads with hreads | hreads
  · exact hfold.folded _ (makes_wrapped (.inl hop) hreads hxl hel)
  · rw [wrappedLanes_comm hop]
    exact hfold.folded _ (makes_wrapped (.inl hop) hreads hel hxl)

/-! ## One value -/

/-- An operation changed for another on operands that can stand for it, which has the same lanes
whenever it runs. -/
theorem lockstep_setWrapped (h : f.Plain) (hb : b ∈ f.layout) (hv : v ∈ (f.block b).values)
    (hop : isAssociative (f.value v).op = true ∨ (f.value v).op = .sub)
    (hop' : isAssociative op = true ∨ op = .sub) (ha : f.Serves a v b) (he : f.Serves e v b)
    (hsame : ∀ env, f.Ready W v b env → ∀ w c, (f.value v).args = [.value w, .value c] →
      wrappedLanes (f.value v).type op (env a) (env e) =
        wrappedLanes (f.value v).type (f.value v).op (env w) (env c)) :
    Lockstep W.interp (fun _ => True) f
      (f.modifyValue v fun y => { y with op := op, args := [.value a, .value e] }) := by
  have hbin : (f.value v).op.isBinary = true := by
    rcases hop with hop | hop
    · exact (isAssociative_op hop).1
    · rw [hop]
      rfl
  have hphi := (isBinary_ne hbin).1
  obtain ⟨w, c, hargs, hw, hc⟩ := h.binary_args hb hv hbin
  have hval : (f.modifyValue v fun y => { y with op := op, args := [.value a, .value e] }).value v =
      { f.value v with op := op, args := [.value a, .value e] } := by
    rw [value_modifyValue (h.ssa.listing.lt hb hv), if_pos rfl]
  refine (formed_invariant W h).lockstep_modifyValue h.ssa hb hv rfl hphi
    (Op.isFoldable_ne (isFoldable_wrapped hop')).1 fun pre post s hr hvals hH => ?_
  have hset := ready_of_holding h hr hvals ((h.ssa.typed hb hv hphi).ne_void hbin) hH
  rw [exec_wrapped hop hargs (hset w hw).1 (hset c hc).1,
    exec_wrapped (a := a) (e := e) (by rw [hval]; exact hop') (by rw [hval])
      (by rw [hval]; exact (hset a ha).1) (by rw [hval]; exact (hset e he).1), hval,
    hsame s.env hset w c hargs]

/-- An operation changed for one with a new constant. What the operands are is known of the function
with the constant in it. -/
theorem lockstep_rebuilt (h : f.Plain) (hb : b ∈ f.layout) (hv : v ∈ (f.block b).values)
    (hop : isAssociative (f.value v).op = true ∨ (f.value v).op = .sub)
    (hop' : isAssociative op = true) (ha : f.Serves a v b)
    (hl : lanes.length = (f.value v).type.numLanes)
    (hsame : ∀ env, (f.withConst b v lanes).Ready W v b env → ∀ w c,
      (f.value v).args = [.value w, .value c] →
        wrappedLanes (f.value v).type op (env a) (lanes.map (f.value v).type.elemKind.canon) =
          wrappedLanes (f.value v).type (f.value v).op (env w) (env c)) :
    Lockstep W.interp (· < f.numValues) f (f.rebuilt b v op a lanes) := by
  obtain ⟨hphi, hparam, -⟩ := Op.isFoldable_ne (isFoldable_wrapped hop)
  obtain ⟨hval, hmem, -⟩ := withConst_old lanes h.ssa hb hv
  have hput : Lockstep W.interp (· ≠ f.numValues) f (f.withConst b v lanes) :=
    lockstep_inserted h.ssa hb (Nat.le_of_lt (List.idxOf_lt_length_of_mem hv)) constOf_op
  have hnew := withConst_serves_new lanes h.ssa hb hv
  have hset : Lockstep W.interp (fun _ => True) (f.withConst b v lanes) (f.rebuilt b v op a lanes) :=
    lockstep_setWrapped (withConst_plain h hb hv hphi hparam hl) hb hmem (by rwa [hval]) (.inl hop')
      (withConst_serves lanes h.ssa hb hv ha) hnew fun env henv w c hargs => by
      have hlanes : env f.numValues = lanes.map (f.value v).type.elemKind.canon := by
        refine (henv _ hnew).2.const _ ?_
        rw [withConst, value_inserted, if_pos rfl]
        exact constLanes_constOf hl
      rw [hval] at hargs
      rw [hval, hlanes, hsame env henv w c hargs]
  exact (hput.trans hset).mono fun x hx => ⟨Nat.ne_of_lt hx, True.intro⟩

/-- Reassociating a value changes neither it nor any other. -/
theorem Reassociated.lockstep (hre : Reassociated f b v g) (h : f.Plain) (hb : b ∈ f.layout)
    (hv : v ∈ (f.block b).values) : Lockstep W.interp (· < f.numValues) f g := by
  have hold : ∀ {x} (lanes : List UInt64), f.Serves x v b →
      (f.withConst b v lanes).value x = f.value x := fun lanes hx => by
    rw [withConst, value_inserted, if_neg hx.before.ne_numValues]
  have hconst : ∀ {x} {lanes : List UInt64} {env : ValueId → List UInt64},
      lanes.length = (f.value v).type.numLanes → (f.value v).op.isBinary = true →
      (f.withConst b v lanes).Ready W v b env → f.ConstLike x v b → env x = f.lanesOf x :=
    fun {x} {lanes} {env} hl hbin henv hx => by
      obtain ⟨hphi, hparam, -⟩ := isBinary_ne hbin
      have hval := hold lanes hx.toServes
      rw [henv.const (withConst_ssa h.ssa hb hv hphi hparam hl)
        ⟨withConst_serves lanes h.ssa hb hv hx.toServes, by rw [hval]; exact hx.const⟩, lanesOf, hval]
      rfl
  cases hre with
  | commuted hop hc =>
    cases hc with
    | left => exact .refl _ f
    | turned hcomm hargs =>
      next a c =>
      obtain ⟨a', c', hargs', ha, hc⟩ := h.binary_args hb hv (isAssociative_op hop).1
      obtain ⟨rfl, rfl⟩ : a' = a ∧ c' = c := by simpa [hargs] using hargs'.symm
      have hturn := lockstep_setWrapped (W := W) h hb hv (.inl hop) (.inl hop) hc ha
        fun env _ p q hpq => by
          obtain ⟨rfl, rfl⟩ : a' = p ∧ c' = q := by simpa [hargs] using hpq
          exact wrappedLanes_comm hop
      rw [turned, modifyValue_congr
        (q := fun y => { y with op := (f.value v).op, args := [.value c', .value a'] }) rfl]
      exact hturn.mono fun _ _ => True.intro
  | negated hop hargs hc =>
    next a c =>
    have hbin : (f.value v).op.isBinary = true := by rw [hop]; rfl
    obtain ⟨a', c', hargs', ha, -⟩ := h.binary_args hb hv hbin
    obtain ⟨rfl, rfl⟩ : a' = a ∧ c' = c := by simpa [hargs] using hargs'.symm
    have hl : ((f.lanesOf c').map (0 - ·)).length = (f.value v).type.numLanes := by
      rw [List.length_map, hc.length h.ssa]
    refine lockstep_rebuilt h hb hv (.inr hop) rfl ha hl fun env henv p q hpq => ?_
    obtain ⟨rfl, rfl⟩ : a' = p ∧ c' = q := by simpa [hargs] using hpq
    rw [hconst hl hbin henv hc, wrappedLanes_negated, hop]
  | joined hop hargs hinner hreads hx hc he =>
    next w c x e =>
    obtain ⟨hbin, -⟩ := isAssociative_op hop
    obtain ⟨w', c', hargs', hw, -⟩ := h.binary_args hb hv hbin
    obtain ⟨rfl, rfl⟩ : w' = w ∧ c' = c := by simpa [hargs] using hargs'.symm
    have hl := length_wrappedLanes (f.value v).op (he.length h.ssa) (hc.length h.ssa)
    refine lockstep_rebuilt h hb hv (.inl hop) hop hx hl fun env henv p q hpq => ?_
    obtain ⟨rfl, rfl⟩ : w' = p ∧ c' = q := by simpa [hargs] using hpq
    rw [hconst hl hbin henv hc, wrappedLanes_joined hop, ← hconst hl hbin henv he]
    congr 1
    have hserves := fun {y} (hy : f.Serves y v b) =>
      withConst_serves (wrappedLanes (f.value v).type (f.value v).op (f.lanesOf e) (f.lanesOf c'))
        h.ssa hb hv hy
    rw [henv.inner (hserves hw) (by rw [hold _ hw, hinner, hop]) (by rw [hold _ hw]; exact hreads)
      (hserves hx) (hserves he.toServes), hold _ hw, hinner, (withConst_old _ h.ssa hb hv).1]

/-! ## The whole function -/

/-- `g` is `f` with more values: those of `f` stand in their blocks as they stood. -/
structure Grown (f g : Func) : Prop where
  graph : SameGraph f g
  count : f.numValues ≤ g.numValues
  values : ∀ b ∈ f.layout, (g.block b).values.filter (· < f.numValues) = (f.block b).values

theorem Grown.refl (h : f.Ssa) : Grown f f :=
  ⟨.refl f, le_rfl, fun _ hb => List.filter_eq_self.mpr fun _ hv => by
    simpa using h.listing.lt hb hv⟩

theorem Grown.trans (h₁ : Grown f g) (h₂ : Grown g k) : Grown f k := by
  refine ⟨h₁.graph.trans h₂.graph, h₁.count.trans h₂.count, fun b hb => ?_⟩
  rw [← h₁.values b hb, ← h₂.values b (h₁.graph.layout ▸ hb), List.filter_filter]
  refine List.filter_congr fun v _ => ?_
  by_cases hv : v < f.numValues
  · simp [hv, hv.trans_le h₁.count]
  · simp [hv]

theorem grown_modifyValue {q : Value → Value} (h : f.Ssa) : Grown f (f.modifyValue v q) :=
  ⟨sameGraph_modifyValue, by simp, fun b hb => (Grown.refl h).values b hb⟩

theorem grown_withConst (h : f.Ssa) (hb : b ∈ f.layout) (hv : v ∈ (f.block b).values) :
    Grown f (f.withConst b v lanes) := by
  have hlt := h.flow.lt b hb
  refine ⟨sameGraph_inserted hlt, ?_, fun c hc => ?_⟩
  · rw [withConst, numValues_inserted]
    exact Nat.le_succ _
  · rw [withConst, block_inserted hlt]
    split
    · next heq =>
      subst heq
      have hnew : decide (f.numValues < f.numValues) = false := decide_eq_false (lt_irrefl _)
      rw [insertIdx_split (Nat.le_of_lt (List.idxOf_lt_length_of_mem hv)), List.filter_append,
        List.filter_cons_of_neg (by rw [hnew]; exact Bool.false_ne_true), ← List.filter_append,
        List.take_append_drop]
      exact (Grown.refl h).values c hc
    · exact (Grown.refl h).values c hc

theorem Reassociated.grown (hre : Reassociated f b v g) (h : f.Plain) (hb : b ∈ f.layout)
    (hv : v ∈ (f.block b).values) : Grown f g := by
  have hrebuilt : ∀ op a (lanes : List UInt64), (f.value v).op.isBinary = true →
      lanes.length = (f.value v).type.numLanes → Grown f (f.rebuilt b v op a lanes) :=
    fun op a lanes hbin hl => by
      obtain ⟨hphi, hparam, -⟩ := isBinary_ne hbin
      exact (grown_withConst h.ssa hb hv).trans
        (grown_modifyValue (withConst_ssa h.ssa hb hv hphi hparam hl))
  cases hre with
  | commuted hop hc =>
    cases hc with
    | left => exact .refl h.ssa
    | turned => exact grown_modifyValue h.ssa
  | negated hop hargs hc =>
    exact hrebuilt _ _ _ (by rw [hop]; rfl) (by rw [List.length_map, hc.length h.ssa])
  | joined hop _ _ _ _ hc he =>
    exact hrebuilt _ _ _ (isAssociative_op hop).1
      (length_wrappedLanes _ (he.length h.ssa) (hc.length h.ssa))

/-- Reassociation comes to an answer, and the function runs as before. All its values are still there,
in their places, and hold the same lanes whenever they can be read. -/
theorem reassociate_alike (W : World) (h : f.Consistent) : ∃ g ch, f.reassociate = .ok (g, ch) ∧
    Alike W.interp f g ∧ Grown f g ∧ Lockstep W.interp (· < f.numValues) f g := by
  obtain ⟨g, ch, hg, -, hgrown, hstep⟩ := reassociate_keeps
    (P := fun k => Grown f k ∧ Lockstep W.interp (· < f.numValues) f k)
    (fun k g b v hk hP hr hv hre => by
      obtain ⟨hgrown, hstep⟩ := hP
      have hb := hk.ssa.flow.reached_mem hr
      exact ⟨hgrown.trans (hre.grown hk hb hv), (hstep.trans (hre.lockstep hk hb hv)).mono
        fun x hx => ⟨hx, hx.trans_le hgrown.count⟩⟩)
    h.plain ⟨.refl h.ssa, .refl _ f⟩
  exact ⟨g, ch, hg, hstep.alike, hgrown, hstep⟩

/-- A difference to which a constant is added on the left, bits turned over twice, and a vector from
which one is taken. The pattern of one constant is wider than its type. -/
def offsets : Func where
  name := "offsets"
  ret := .i8
  params := [.i8, .vec .i32 4]
  values := #[
    { op := .param, type := .i8, block := some 0 },
    { op := .param, type := .vec .i32 4, block := some 0, aux := 1 },
    { op := .const, type := .i8, block := some 0, aux := 200 },
    { op := .sub, type := .i8, block := some 0, args := [.value 0, .value 2] },
    { op := .const, type := .i8, block := some 0, aux := 0x164 },
    { op := .add, type := .i8, block := some 0, args := [.value 4, .value 3] },
    { op := .icmp, type := .i1, block := some 0, args := [.value 0, .value 5], aux := 2 },
    { op := .const, type := .i1, block := some 0, aux := 1 },
    { op := .xor, type := .i1, block := some 0, args := [.value 6, .value 7] },
    { op := .xor, type := .i1, block := some 0, args := [.value 8, .value 7] },
    { op := .const, type := .vec .i32 4, block := some 0, lanes := some [0, 1, 2, 0xFFFFFFFF] },
    { op := .sub, type := .vec .i32 4, block := some 0, args := [.value 1, .value 10] }]
  blocks := #[{ values := [0, 1, 2, 3, 4, 5, 6, 7, 8, 9, 10, 11], kind := .ret, control := .value 5 }]
  layout := [0]
  paramValues := [0, 1]

/-- Each operation reads a new constant. That of the sum is `100 - 200`, modulo the width. -/
theorem reassociate_alike_offsets : offsets.Consistent ∧
    ∃ g ch, offsets.reassociate = .ok (g, ch) ∧ Alike World.zeros.interp offsets g ∧
      Grown offsets g ∧ Lockstep World.zeros.interp (· < offsets.numValues) offsets g ∧
      (g.value 5).args = [.value 0, .value 13] ∧ (g.value 13).constLanes = some [156] ∧
      (g.value 9).args = [.value 6, .value 14] ∧ (g.value 14).constLanes = some [0] ∧
      (g.value 15).constLanes = some [0, 0xFFFFFFFF, 0xFFFFFFFE, 1] := by
  have hcons : offsets.Consistent := by decide +kernel
  obtain ⟨g, ch, hg, halike, hgrown, hstep⟩ := reassociate_alike World.zeros hcons
  have hrun : offsets.reassociate.toOption.map (fun r => (((r.1.value 5).args,
      (r.1.value 13).constLanes), ((r.1.value 9).args, (r.1.value 14).constLanes),
      (r.1.value 15).constLanes)) = some (([.value 0, .value 13], some [156]),
        ([.value 6, .value 14], some [0]), some [0, 0xFFFFFFFF, 0xFFFFFFFE, 1]) := by
    decide +kernel
  rw [hg] at hrun
  have hrun := Option.some.inj hrun
  simp only [Prod.mk.injEq] at hrun
  obtain ⟨⟨hsum, hjoined⟩, ⟨hbits, hzero⟩, hlanes⟩ := hrun
  exact ⟨hcons, g, ch, hg, halike, hgrown, hstep, hsum, hjoined, hbits, hzero, hlanes⟩

end SsaJit.Func
