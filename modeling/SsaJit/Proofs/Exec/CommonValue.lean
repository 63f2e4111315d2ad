import SsaJit.Proofs.Exec.Combine
import SsaJit.Proofs.Exec.Pure
import SsaJit.Proofs.Exec.Shape
import SsaJit.Proofs.Pass.CommonValue
import SsaJit.Proofs.Ssa.Form

/-! Sharing common values leaves functions running as before, if no floats are added or multiplied. A
value that gives way and the one put for it do the same work on the same operands, so they are equal
whenever the first can be read: in the function as it was, and in all that come of it on the way. Sums
and products of floats keep the first of two operands that are no numbers, and the key does not say
which is first. -/

namespace SsaJit

/-- What the world makes of pure operations lies in their operands alone: neither the place nor memory
matters, nor which of two values that do the same work is computed. -/
def World.Determined (W : World) : Prop :=
  ∀ (y : Value) ts xs, y.isPure = true → ∃ r : Except W.Stop (List UInt64), ∀ v (z : Value) m,
    z.isPure = true → z.SameWork y → W.exec v z ts xs m = r.map fun r => (r, m)

section work

variable {y z : Value} {ts : List Ty} {xs : List (List UInt64)}

theorem Value.SameWork.eval? (h : y.SameWork z) : y.eval? ts xs = z.eval? ts xs := by
  obtain ⟨hop, htype, haux, -, hmask, -⟩ := h
  unfold Value.eval? Func.operationOf
  rw [hop, htype, haux, hmask]

theorem Value.SameWork.constLanes (h : y.SameWork z) : y.constLanes = z.constLanes := by
  obtain ⟨hop, htype, haux, hlanes, -, -⟩ := h
  unfold Value.constLanes Value.isConst
  rw [hop, htype, haux, hlanes]

theorem Value.eval?_const (h : y.op = .const) : y.eval? ts xs = none := by
  rw [Option.eq_none_iff_forall_ne_some]
  intro r hr
  obtain ⟨-, hfold⟩ := Value.eval?_eq_some.mp hr
  simp [Operation.fold, Func.operationOf, h, Op.isBinary, Op.isCast] at hfold

end work

namespace Func

variable {W : World} {f g k : Func} {b c d : BlockId} {u v w a x : ValueId} {o : Operand}
  {s t : W.interp.State} {pre post : List ValueId} {σ : ValueId → ValueId}

/-! ## Pure values -/

/-- One function for all values that do the same work as `y`. -/
theorem exists_computes_pure (hW : W.Determined) {y : Value} (hpure : y.isPure = true)
    (ts : List Ty) : ∃ F : List (List UInt64) → Except W.Stop (List UInt64),
      (∀ xs r, y.eval? ts xs = some r → F xs = .ok r) ∧
      ∀ f v, (f.value v).SameWork y → (f.value v).isPure = true →
        (f.value v).reads.map f.operandType = ts → Computes W.interp f v F := by
  choose r hr using fun xs => hW y ts xs hpure
  let F (xs : List (List UInt64)) : Except W.Stop (List UInt64) :=
    if y.op = .const then .ok (y.constLanes.getD []) else (y.eval? ts xs).elim (r xs) .ok
  refine ⟨F, fun xs l hl => ?_, fun f v hwork hv hts => ?_⟩
  · have hconst : y.op ≠ .const := fun heq => by
      rw [Value.eval?_const heq] at hl
      cases hl
    simp only [F, if_neg hconst, hl, Option.elim_some]
  · obtain ⟨hphi, -, hstore, -⟩ := isPure_op hv
    have hbare : (f.value v).bare.SameWork y :=
      ⟨hwork.op, hwork.type, hwork.aux, hwork.lanes, hwork.mask, hwork.global⟩
    refine computes_of_exec hphi hstore (fun hc xs => ?_) fun hc xs m => ?_
    · simp only [F, if_pos (hwork.op.symm.trans hc), hbare.constLanes]
    · rw [hts]
      simp only [World.interp, F, if_neg fun heq => hc (hwork.op.trans heq), hbare.eval?]
      cases y.eval? ts xs with
      | some l => rfl
      | none => exact hr xs v _ m hv hbare

/-! ## One value for another -/

namespace Shares

variable (h : f.Shares b v w) (hs : f.Ssa)
include h hs

/-- Both read operands of the same types. -/
theorem types : (f.value w).reads.map f.operandType = (f.value v).reads.map f.operandType := by
  obtain ⟨hphi, -⟩ := isPure_op h.pure
  obtain ⟨hphi', -, hstore', -⟩ := isPure_op h.source
  obtain ⟨l, m, hl, hm, hor⟩ := h.args
  rw [reads_of_pure h.pure, reads_of_pure h.source]
  rcases hor with rfl | ⟨hcomm, -⟩
  · rw [hl, hm]
  · obtain ⟨d, hd, hw⟩ := (h.before.listed hs.listing).resolve_left hstore'
    have hbin := Op.isBinary_of_commutative hcomm
    have hv := (hs.typed (h.block_mem hs) h.mem hphi).binary hbin
    have hw := (hs.typed hd hw hphi').binary (h.work.op ▸ hbin)
    rw [argTypes] at hv hw
    rw [hv, hw, h.work.type]

/-- Of what the value put in its place was computed, the value is computed. -/
theorem computed (hv : f.StoresVoid) (hadd : (f.value v).op ≠ .fadd) (hmul : (f.value v).op ≠ .fmul)
    {F : List (List UInt64) → Except W.Stop (List UInt64)}
    (hF : ∀ xs r, (f.value v).eval? ((f.value v).reads.map f.operandType) xs = some r → F xs = .ok r)
    (hvals : (f.block b).values = pre ++ v :: post) (hH : f.Holding f.Shaped b pre s) :
    F ((f.value v).reads.map (W.interp.read s.env)) =
      F ((f.value w).reads.map (W.interp.read s.env)) := by
  obtain ⟨hphi, hparam, -⟩ := isPure_op h.pure
  obtain ⟨l, m, hl, hm, hor⟩ := h.args
  have hreads : (f.value v).reads = m.map .value := (reads_of_pure h.pure).trans hm
  have hreads' : (f.value w).reads = l.map .value := (reads_of_pure h.source).trans hl
  rcases hor with rfl | ⟨hcomm, a, c, rfl, rfl⟩
  · rw [hreads, hreads']
  · have hb := h.block_mem hs
    have hwell := hs.typed hb h.mem hphi
    have hbin := Op.isBinary_of_commutative hcomm
    have hint : (f.value v).type.isInt = true := by
      have hfloat := Op.isFloatBinary_of_commutative hcomm hadd hmul
      rw [WellTyped, if_pos hbin, hfloat] at hwell
      exact hwell.2
    have hty := hwell.binary hbin
    have hnovoid : (f.value v).type ≠ .void := fun heq => by rw [heq] at hint; cases hint
    have hlen : ∀ x, .value x ∈ (f.value v).args → (s.env x).length = (f.value v).type.numLanes := by
      intro x hx
      have htx : (f.value x).type = (f.value v).type := by
        have : (f.value x).type ∈ f.argTypes (f.value v) := List.mem_map_of_mem hx
        rw [hty] at this
        simpa using this
      rw [← htx]
      exact shaped_of_before hs hv hb h.reached hvals hH hx (hs.before hb h.mem hphi hparam hx)
        (htx ▸ hnovoid)
    obtain ⟨r, hthere, hback⟩ := fold_commuted ((f.value v).reads.map f.operandType) hcomm hadd hmul
      (hlen c (by simp [hm])) (hlen a (by simp [hm]))
    have hfold := Op.isFoldable_of_binary hbin
    have hone := hF [s.env c, s.env a] r (Value.eval?_eq_some.mpr ⟨hfold, hthere⟩)
    have hother := hF [s.env a, s.env c] r (Value.eval?_eq_some.mpr ⟨hfold, hback⟩)
    rw [hreads, hreads']
    exact hone.trans hother.symm

/-- Something is known of a running function by which the value equals the one put for it whenever it
can be read, and takes its lanes when it is computed. -/
theorem known (hW : W.Determined) (hv : f.StoresVoid) (hadd : (f.value v).op ≠ .fadd)
    (hmul : (f.value v).op ≠ .fmul) : ∃ Φ, Invariant W.interp f f.Reached Φ ∧
      (∀ env, Φ v env → env v = env w) ∧
      ∀ pre post (s : W.interp.State), (f.block b).values = pre ++ v :: post → f.Holding Φ b pre s →
        f.exec s v = .ok { s with env := Function.update s.env v (s.env w) } := by
  obtain ⟨F, hF, hcomputes⟩ :=
    exists_computes_pure hW h.pure ((f.value v).reads.map f.operandType)
  have hfirst := hcomputes f v (.refl _) h.pure rfl
  have hsecond := hcomputes f w h.work h.source (h.types hs)
  have hb := h.block_mem hs
  have hexec : ∀ pre post (s : W.interp.State), (f.block b).values = pre ++ v :: post →
      f.Holding (fun x env => UpToDate W.interp f w F x env ∧ f.Shaped x env) b pre s →
        f.exec s v = .ok { s with env := Function.update s.env v (s.env w) } := by
    intro pre post s hvals hH
    have hk := h.before.known hs.listing hb h.reached hvals h.source_noStore
    rw [hfirst.exec, h.computed hs hv hadd hmul hF hvals fun x hx => (hH x hx).2,
      (hH w hk).1 rfl]
  refine ⟨_, ((hsecond.invariant hs).and (shaped_invariant W hs hv)).paired hs hb h.mem h.reached
    hfirst.phi hfirst.store h.before fun pre post s t _ hvals hH hx => ?_, fun env hx => hx.2 rfl,
    fun pre post s hvals hH => hexec pre post s hvals fun x hx => (hH x hx).1⟩
  rw [hexec pre post s hvals hH] at hx
  obtain rfl := Except.ok.inj hx
  exact Function.update_self ..

theorem lockstep (hW : W.Determined) (hv : f.StoresVoid) (hadd : (f.value v).op ≠ .fadd)
    (hmul : (f.value v).op ≠ .fmul) :
    Lockstep W.interp (· ≠ v) f (f.replaceValue v (.value w)) := by
  obtain ⟨Φ, hinv, hsame, hexec⟩ := h.known hs hW hv hadd hmul
  exact hinv.lockstep_replaceValue hs (h.block_mem hs) h.mem (h.ne hs) (h.covers hs) h.noStore
    (fun _ _ _ _ hH hv _ => hsame _ (hH v hv))
    fun pre post s _ hvals hH => ⟨_, hexec pre post s hvals hH, rfl⟩

/-- Whenever the value can be read it equals the one put for it. -/
theorem equal (hW : W.Determined) (hv : f.StoresVoid) (hadd : (f.value v).op ≠ .fadd)
    (hmul : (f.value v).op ≠ .fmul) {s₀ s : W.interp.State} {n : Nat} (hsees : f.Sees s₀ n c pre s)
    (hk : f.Known c pre v) : s.env v = s.env w := by
  obtain ⟨Φ, hinv, hsame, -⟩ := h.known hs hW hv hadd hmul
  exact hsame _ ((hinv.sees hs hsees).2 v hk)

end Shares

/-! ## The whole function -/

/-- What comes before a value can be read wherever the value can be read. -/
theorem Known.of_earlier (hk : f.Known c pre v) (hs : f.Ssa) (hr : f.Reached c)
    (hvals : (f.block c).values = pre ++ post) (hphi : (f.value v).op ≠ .phi)
    (hb : (f.value v).block = some b) (ha : f.Earlier a v b) (hstore : (f.value a).op ≠ .store) :
    f.Known c pre a := by
  obtain ⟨-, d, hd, hor⟩ := hk
  obtain rfl : b = d := Option.some.inj (hb.symm.trans hd)
  obtain ⟨e, he, hae⟩ := ha
  refine ⟨hstore, e, he, ?_⟩
  rcases hor with ⟨rfl, hor⟩ | ⟨hne, hdom⟩
  · refine hae.imp_left fun ⟨heq, hsub⟩ => ⟨heq, .inr ?_⟩
    have hv := hor.resolve_left hphi
    have hnd := hs.listing.nodup b (hs.flow.reached_mem hr)
    rw [hvals] at hnd hsub
    obtain ⟨-, -, hlt⟩ := (sublist_pair_iff hnd).mp hsub
    by_contra ha
    rw [List.idxOf_append_of_notMem ha, List.idxOf_append_of_mem hv] at hlt
    have := List.idxOf_lt_length_of_mem hv
    omega
  · rcases hae with ⟨rfl, -⟩ | ⟨-, heb⟩
    · exact .inr ⟨hne, hdom⟩
    · refine .inr ⟨?_, heb.trans hdom⟩
      rintro rfl
      exact hne (hdom.antisymm hr heb)

theorem StoresVoid.share (h : f.StoresVoid) (hs : f.Ssa) (hsh : f.Shares b v w) :
    (f.replaceValue v (.value w)).StoresVoid := by
  intro c hc x hx a ha hstore
  have hb := hsh.block_mem hs
  have hcf : c ∈ f.layout := (hsh.keeps hs).graph.layout ▸ hc
  have hxf : x ∈ (f.block c).values := by
    rw [values_replaceValue hs hb hsh.mem] at hx
    split at hx
    · next heq => exact heq ▸ List.mem_of_mem_erase hx
    · exact hx
  obtain ⟨as, has⟩ := replaceValue_head (w := w) hs hb hsh.mem a
  rw [has] at hstore ⊢
  rw [value_replaceValue_of_mem hs hb hsh.mem hcf hxf] at ha
  obtain ⟨o, ho, hoa⟩ := List.mem_map.mp ha
  unfold swap at hoa
  split at hoa
  · obtain rfl : w = a := by simpa using hoa
    exact absurd hstore hsh.source_noStore
  · exact h c hcf x hxf a (hoa ▸ ho) hstore

/-- `g` is `f` with values given up for others, and runs in step with it; and whenever a value that is
given up can be read in `f`, it equals the one that stands for it. -/
structure Shared (W : World) (f g : Func) (σ : ValueId → ValueId) : Prop where
  graph : SameGraph f g
  substituted : Substituted f g σ
  lockstep : Lockstep W.interp (fun v => σ v = v) f g
  equal : ∀ (s₀ : W.interp.State) n b pre s, f.Sees s₀ n b pre s →
    ∀ v, f.Known b pre v → s.env v = s.env (σ v)
  storesVoid : g.StoresVoid
  noSums : g.NoFloatSums

theorem Shared.refl (W : World) (hv : f.StoresVoid) (hsums : f.NoFloatSums) : Shared W f f id :=
  ⟨.refl f, .refl f, .refl _ f, fun _ _ _ _ _ _ _ _ => rfl, hv, hsums⟩

/-- What can be read in `f` and is left can be read in the other function. -/
theorem Substituted.known (h : Substituted f g σ) (hfg : SameGraph f g) {pre' : List ValueId}
    (hb : b ∈ g.layout) (hv : v ∈ (g.block b).values) (hpre : v ∈ pre' ↔ v ∈ pre)
    (hk : f.Known c pre v) : g.Known c pre' v := by
  obtain ⟨-, -, -, hval⟩ := h.mem hfg hb hv
  obtain ⟨hstore, d, hd, hor⟩ := hk
  refine ⟨by rw [hval]; exact hstore, d, by rw [hval]; exact hd, ?_⟩
  rw [hval, hpre, hfg.dominates]
  exact hor

theorem Shared.share (h : Shared W f k σ) (hW : W.Determined) (hf : f.Ssa) (hs : k.Ssa)
    (hsh : k.Shares b v w) : ∃ σ', Shared W f (k.replaceValue v (.value w)) σ' := by
  have hbk := hsh.block_mem hs
  obtain ⟨hadd, hmul⟩ := h.noSums b hbk v hsh.mem
  obtain ⟨hb, hvb, hσv, hkv⟩ := h.substituted.mem h.graph hbk hsh.mem
  obtain ⟨d, hdk, hwd⟩ := (hsh.before.listed hs.listing).resolve_left hsh.source_noStore
  obtain ⟨-, -, hσw, -⟩ := h.substituted.mem h.graph hdk hwd
  have hstep := hsh.lockstep hs hW h.storesVoid hadd hmul
  have hsub := h.substituted.share h.graph hf hs hsh
  refine ⟨_, h.graph.trans (hsh.keeps hs).graph, hsub, (h.lockstep.trans hstep).mono fun x hx => ?_,
    fun s₀ n c pre s hsees x hk => ?_, h.storesVoid.share hs hsh,
    (descends_replaceValue hs hbk hsh.mem (hsh.covers hs)).noFloatSums h.noSums⟩
  · split at hx
    · next heq => exact absurd (heq.symm.trans (hx ▸ hσw)) (hsh.ne hs).symm
    · next hxv => exact ⟨hx, fun heq => hxv (heq ▸ hσv)⟩
  · rw [h.equal s₀ n c pre s hsees x hk]
    split
    · next heq =>
      rw [heq]
      have hkv : f.Known c pre v := by
        by_cases hxv : σ x = x
        · exact heq ▸ hxv.symm ▸ hk
        · obtain ⟨e, he, hxe, hearly⟩ := h.substituted.earlier x hxv
          obtain ⟨hpx, hpv⟩ := h.substituted.pure x hxv
          rw [heq] at hearly hpv
          have hrc := ((Invariant.trivial f).sees hf hsees).1
          obtain ⟨-, post, -, hvals, -⟩ := hsees
          exact hk.of_earlier hf hrc hvals (isPure_op hpx).1
            ((hf.listing.listed x e).mpr ⟨hf.flow.reached_mem he, hxe⟩) hearly (isPure_op hpv).2.2.1
      obtain ⟨pre', t, ht, hmem, hsame⟩ := h.lockstep.points s₀ n c pre s hsees
      rw [hsame.env v hσv, hsame.env w hσw]
      exact hsh.equal hs hW h.storesVoid hadd hmul ht
        (h.substituted.known h.graph hbk hsh.mem (hmem v hσv) hkv)
    · rfl

/-- Sharing common values comes to an answer, and the function runs as before. A value is given up for
one before it that does the same work, and equals it whenever it can be read. -/
theorem shareCommon_alike (W : World) (hW : W.Determined) (h : f.Consistent)
    (hsums : f.NoFloatSums) : ∃ g ch σ, f.shareCommon = .ok (g, ch) ∧ Alike W.interp f g ∧
      Substituted f g σ ∧ ∀ (s₀ : W.interp.State) n b pre s, f.Sees s₀ n b pre s →
        ∀ v, f.Known b pre v → s.env v = s.env (σ v) := by
  obtain ⟨g, ch, hg, -, -, σ, hdone⟩ := shareCommon_keeps (P := fun k => ∃ σ, Shared W f k σ)
    (fun k b v w hk ⟨σ, hσ⟩ hsh => hσ.share hW h.ssa hk hsh) h.ssa
    ⟨id, .refl W h.storesVoid hsums⟩
  exact ⟨g, ch, σ, hg, hdone.lockstep.alike, hdone.substituted, hdone.equal⟩

/-- A sum made again the other way round in one branch, and a square made in the other and after both. -/
def again : Func where
  name := "again"
  ret := .i32
  params := [.i32, .i32]
  values := #[
    { op := .param, type := .i32, block := some 0 },
    { op := .param, type := .i32, block := some 0, aux := 1 },
    { op := .add, type := .i32, block := some 0, args := [.value 0, .value 1] },
    { op := .icmp, type := .i1, block := some 0, args := [.value 0, .value 2], aux := 2 },
    { op := .add, type := .i32, block := some 1, args := [.value 1, .value 0] },
    { op := .mul, type := .i32, block := some 2, args := [.value 0, .value 0] },
    { op := .phi, type := .i32, block := some 3, args := [.value 4, .value 5] },
    { op := .mul, type := .i32, block := some 3, args := [.value 0, .value 0] },
    { op := .sub, type := .i32, block := some 3, args := [.value 6, .value 7] }]
  blocks := #[
    { values := [0, 1, 2, 3], kind := .branch, control := .value 3, succs := [1, 2] },
    { values := [4], kind := .jump, succs := [3], preds := [0] },
    { values := [5], kind := .jump, succs := [3], preds := [0] },
    { values := [6, 7, 8], kind := .ret, control := .value 8, preds := [1, 2] }]
  layout := [0, 1, 2, 3]
  paramValues := [0, 1]

/-- The second sum gives way to the first. The square that is made on one way only stays, and so does the
one after it. -/
theorem shareCommon_alike_again : World.zeros.Determined ∧ again.Consistent ∧ again.NoFloatSums ∧
    ∃ g ch σ, again.shareCommon = .ok (g, ch) ∧ Alike World.zeros.interp again g ∧
      Substituted again g σ ∧ (g.value 6).args = [.value 2, .value 5] ∧ (g.block 1).values = [] ∧
        (g.block 3).values = [6, 7, 8] := by
  have hdet : World.zeros.Determined := fun y _ _ _ =>
    ⟨.ok (List.replicate y.type.numLanes 0), fun _ z _ _ hz => by
      change Except.ok (List.replicate z.type.numLanes 0, _) = _
      rw [hz.type]
      rfl⟩
  have hcons : again.Consistent := by decide +kernel
  have hsums : again.NoFloatSums := by decide +kernel
  obtain ⟨g, ch, σ, hg, halike, hsub, -⟩ := shareCommon_alike World.zeros hdet hcons hsums
  have hrun : again.shareCommon.toOption.map
      (fun r => ((r.1.value 6).args, (r.1.block 1).values, (r.1.block 3).values)) =
      some ([.value 2, .value 5], [], [6, 7, 8]) := by decide +kernel
  rw [hg] at hrun
  obtain ⟨hargs, hvals⟩ := Prod.mk.inj (Option.some.inj hrun)
  obtain ⟨hone, hlast⟩ := Prod.mk.inj hvals
  exact ⟨hdet, hcons, hsums, g, ch, σ, hg, halike, hsub, hargs, hone, hlast⟩

end Func
end SsaJit
