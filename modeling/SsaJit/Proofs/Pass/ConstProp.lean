import Mathlib.Logic.Relation
import SsaJit.Proofs.Pass.Facts
import SsaJit.Proofs.Ssa.Edges

/-! What propagating constants does, step by step. `Func.Puts` lists the steps: a constant is entered,
a value known to be constant gives way to one that is, and a branch on a known condition becomes a
jump. Each step takes the facts along, so that what they say can be used again at the next. -/

namespace SsaJit.Func

variable {f g k : Func} {b c d p : BlockId} {u v w x : ValueId} {o : Operand}
variable {s t r : Facts} {lanes : List UInt64} {i : Nat}

/-! ## Constants behind the phis -/

/-- A constant behind the phis can be read wherever a phi of the block can. -/
theorem Ssa.phi_covers (h : f.Ssa) (hb : b ∈ f.layout) (hv : v ∈ (f.block b).values)
    (hphi : (f.value v).op = .phi) :
    (f.inserted b (f.firstNonPhi b) (constOf (f.value v).type lanes)).Covers f.numValues v := by
  have hne : v ≠ f.numValues := Nat.ne_of_lt (h.listing.lt hb hv)
  have hold : (f.inserted b (f.firstNonPhi b) (constOf (f.value v).type lanes)).value v = f.value v := by
    rw [value_inserted, if_neg hne]
  have hnew : ((f.inserted b (f.firstNonPhi b) (constOf (f.value v).type lanes)).value
      f.numValues).block = some b := by rw [value_inserted, if_pos rfl]
  have hblock : (f.value v).block = some b := (h.listing.listed v b).mpr ⟨hb, hv⟩
  refine ⟨?_, fun c hc => ?_, fun c u hc hu hup huparam hmem huse => ?_⟩
  · rw [hold, value_inserted, if_pos rfl]
    exact constOf_type
  · obtain ⟨v', hv', hor⟩ := hc
    obtain rfl : v = v' := by simpa using hv'
    rw [hold] at hor
    obtain ⟨d, hd, hdom⟩ := hor.resolve_left (by simp [hphi])
    obtain rfl : b = d := Option.some.inj (hblock.symm.trans hd)
    exact ⟨_, rfl, .inr ⟨b, hnew, hdom⟩⟩
  · obtain ⟨v', hv', hor⟩ := huse
    obtain rfl : v = v' := by simpa using hv'
    rw [hold] at hor
    obtain ⟨_, hearly⟩ := hor.resolve_left (by simp [hphi])
    refine ⟨_, rfl, .inr ⟨by rw [hnew]; rfl, fun hr => ⟨b, hnew, ?_⟩⟩⟩
    obtain ⟨d, hd, hor⟩ := hearly hr
    rw [hold] at hd
    obtain rfl : b = d := Option.some.inj (hblock.symm.trans hd)
    refine hor.imp (fun ⟨hbc, _⟩ => ⟨hbc, ?_⟩) id
    subst hbc
    have hun : u ≠ f.numValues := by
      rintro rfl
      rw [value_inserted, if_pos rfl] at hmem
      simp at hmem
    rw [value_inserted, if_neg hun] at hup huparam
    rw [block_inserted (h.flow.lt b hb), if_pos rfl] at hu ⊢
    have hu : u ∈ (f.block b).values :=
      ((List.mem_insertIdx firstNonPhi_le).mp hu).resolve_left hun
    rw [insertIdx_split firstNonPhi_le]
    exact ((List.singleton_sublist.mpr (mem_behind hu hup huparam)).cons_cons _).trans
      (List.sublist_append_right _ _)

/-! ## The steps -/

/-- The edge that a condition with these lanes takes. -/
def edgeOf (lanes : List UInt64) : Nat := if lanes.headD 0 ≠ 0 then 0 else 1

/-- One step of propagating constants. -/
inductive Puts (f : Func) (s : Facts) : Func → Facts → Prop
  | insert (b : BlockId) (i : Nat) (t : Ty) (lanes : List UInt64) (hb : b ∈ f.layout)
      (hi : i ≤ (f.block b).values.length) (ht : t.Valid) (hfit : t.Fits lanes)
      (hphis : ∀ p ∈ (f.block b).values.drop i, (f.value p).op ≠ .phi) :
      Puts f s (f.inserted b i (constOf t lanes)) { s with values := s.values.push (.const lanes) }
  | replace (b : BlockId) (v c : ValueId) (lanes : List UInt64) (hb : b ∈ f.layout)
      (hv : v ∈ (f.block b).values) (hkind : (f.value v).isPure = true ∨ (f.value v).op = .phi)
      (hne : c ≠ v) (hc : (f.value c).op = .const) (hcover : f.Covers c v)
      (hfact : s.fact v = .const lanes) (hsame : s.fact c = .const lanes) :
      Puts f s (f.replaceValue v (.value c)) s
  | fold (b : BlockId) (lanes : List UInt64) (g : Func) (keep drop : BlockId) (i : Nat)
      (hb : b ∈ f.layout) (hkind : (f.block b).kind = .branch)
      (hfact : s.operand (f.block b).control = .const lanes)
      (hfold : BranchFolded f g b (edgeOf lanes) keep drop i) : Puts f s g s

/-- Steps of propagating constants. -/
abbrev PutsAll (x y : Func × Facts) : Prop :=
  Relation.ReflTransGen (fun x y : Func × Facts => Puts x.1 x.2 y.1 y.2) x y

theorem constLanes_head {y : Value} {a : List Operand} {d : Option BlockId} :
    Value.constLanes { y with args := a, block := d } = y.constLanes := rfl

/-- The data fits its types if the listed values have the heads of values that fit. -/
theorem Fit.of_heads (h : f.Fit) (hg : g.Ssa) (hheads : ∀ b ∈ g.layout, ∀ v ∈ (g.block b).values,
    ∃ c ∈ f.layout, v ∈ (f.block c).values ∧
      ∃ a d, g.value v = { f.value v with args := a, block := d }) : g.Fit := by
  refine ⟨hg, fun b hb v hv lanes hl => ?_, fun b hb v hv => ?_⟩
  · obtain ⟨c, hc, hv, a, d, heq⟩ := hheads b hb v hv
    rw [heq, constLanes_head] at hl
    rw [heq]
    exact h.consts c hc v hv lanes hl
  · obtain ⟨c, hc, hv, a, d, heq⟩ := hheads b hb v hv
    rw [heq]
    exact h.types c hc v hv

theorem Fit.inserted (h : f.Fit) (hb : b ∈ f.layout) (hi : i ≤ (f.block b).values.length) {t : Ty}
    (ht : t.Valid) (hfit : t.Fits lanes)
    (hphis : ∀ p ∈ (f.block b).values.drop i, (f.value p).op ≠ .phi) :
    (f.inserted b i (constOf t lanes)).Fit := by
  have hblt := h.ssa.flow.lt b hb
  have hmem : ∀ {c v}, v ∈ ((f.inserted b i (constOf t lanes)).block c).values →
      v ≠ f.numValues → v ∈ (f.block c).values := by
    intro c v hv hne
    rw [block_inserted hblt] at hv
    split at hv
    · next heq =>
      subst heq
      exact ((List.mem_insertIdx hi).mp hv).resolve_left hne
    · exact hv
  refine ⟨h.ssa.inserted hb hi (by simp) (by simp) (constOf_wellTyped hfit.1) hphis,
    fun c hc v hv ls hls => ?_, fun c hc v hv => ?_⟩
  · rw [value_inserted] at hls ⊢
    split
    · next heq =>
      rw [if_pos heq] at hls
      have hls : (constOf t lanes).constLanes = some ls := hls
      rw [constLanes_constOf hfit.1, hfit.map_canon] at hls
      obtain rfl := Option.some.inj hls
      intro w hw
      simpa using hfit.2 w hw
    · next hne =>
      rw [if_neg hne] at hls
      exact h.consts c hc v (hmem hv hne) ls hls
  · rw [value_inserted]
    split
    · simpa using ht
    · next hne => exact h.types c hc v (hmem hv hne)

theorem Fit.replaceValue (h : f.Fit) (hb : b ∈ f.layout) (hv : v ∈ (f.block b).values)
    (hne : w ≠ v) (hc : f.Covers w v) : (f.replaceValue v (.value w)).Fit := by
  have hkeeps := Keeps.replaceValue h.ssa hb hv hc
  refine h.of_heads (h.ssa.replaceValue hb hv hne hc) fun c hcl x hx => ?_
  rw [hkeeps.graph.layout] at hcl
  rw [values_replaceValue h.ssa hb hv] at hx
  obtain ⟨a, ha⟩ := replaceValue_head (w := w) h.ssa hb hv x
  refine ⟨c, hcl, ?_, a, _, ha⟩
  split at hx
  · next heq => exact heq ▸ List.mem_of_mem_erase hx
  · exact hx

theorem BranchFolded.fit {keep drop : BlockId} {n : Nat} (h : BranchFolded f g b n keep drop i)
    (hf : f.Fit) (hb : b ∈ f.layout) : g.Fit := by
  refine hf.of_heads (h.ssa hf.ssa hb) fun c hc v hv => ?_
  obtain ⟨a, ha⟩ := h.head v
  rw [h.layout] at hc
  rw [h.values] at hv
  exact ⟨c, hc, hv, a, _, ha⟩

theorem Puts.fit (h : Puts f s g t) (hf : f.Fit) : g.Fit := by
  cases h with
  | insert b i t lanes hb hi ht hfit hphis => exact hf.inserted hb hi ht hfit hphis
  | replace b v c lanes hb hv hkind hne hc hcover hfact hsame =>
    exact hf.replaceValue hb hv hne hcover
  | fold b lanes _ keep drop i hb hkind hfact hfold => exact hfold.fit hf hb

theorem Puts.good (h : Puts f s g t) (hf : f.Good True) : g.Good True := by
  refine ⟨(h.fit hf.fit).ssa, ?_⟩
  cases h with
  | insert b i t lanes hb hi ht hfit hphis =>
    exact hf.tidy.inserted hf.ssa hb hi (constOf_tidy hfit.1 ht hfit.cut_canon) (by simp) (by simp)
  | replace b v c lanes hb hv hkind hne hc hcover hfact hsame =>
    exact hf.tidy.replaceValue hf.ssa hb hv hcover (by simp [hc])
  | fold b lanes _ keep drop i hb hkind hfact hfold => exact hfold.tidy hf.tidy

theorem PutsAll.keeps {P : Func → Prop} (hstep : ∀ f s g t, Puts f s g t → P f → P g)
    {x y : Func × Facts} (h : PutsAll x y) (hx : P x.1) : P y.1 := by
  induction h with
  | refl => exact hx
  | tail _ hs ih => exact hstep _ _ _ _ hs ih

/-! ## Constants for values -/

/-- The facts with one about a new constant. -/
def Facts.and (s : Facts) (lanes : List UInt64) : Facts :=
  { s with values := s.values.push (.const lanes) }

theorem Facts.fact_and : (s.and lanes).fact v = if v = s.values.size then .const lanes else s.fact v := by
  simp only [fact, Facts.and, Array.getD_eq_getD_getElem?, Array.getElem?_push]
  split <;> rfl

theorem Facts.Ok.insert {t : Ty} (h : s.Ok f) (hb : b < f.numBlocks) (hfit : t.Fits lanes) :
    (s.and lanes).Ok (f.inserted b i (constOf t lanes)) where
  size := by
    rw [numValues_inserted, ← h.size]
    simp [Facts.and]
  fits v ls hv := by
    rw [fact_and, h.size] at hv
    rw [value_inserted]
    split at hv
    · next heq =>
      obtain rfl : lanes = ls := by simpa using hv
      rw [if_pos heq]
      simpa using hfit
    · next hne =>
      rw [if_neg hne]
      exact h.fits v ls hv
  executable c hc := (sameGraph_inserted hb).reached.mpr (h.executable c hc)
  nodup := h.nodup

theorem Facts.Ok.replace (h : s.Ok f) (hf : f.Ssa) (hb : b ∈ f.layout)
    (hv : v ∈ (f.block b).values) (hc : f.Covers w v) : s.Ok (f.replaceValue v (.value w)) where
  size := h.size.trans (numValues_replaceValue hf hb hv).symm
  fits x ls hx := by
    obtain ⟨a, ha⟩ := replaceValue_head (w := w) hf hb hv x
    rw [ha]
    exact h.fits x ls hx
  executable c hx := (Keeps.replaceValue hf hb hv hc).graph.reached.mpr (h.executable c hx)
  nodup := h.nodup

/-- `k` with the facts `r` comes from `f` with `s` by putting constants for values. -/
structure Carried (f : Func) (s : Facts) (k : Func) (r : Facts) : Prop where
  steps : PutsAll (f, s) (k, r)
  fit : k.Fit
  ok : r.Ok k
  keeps : Keeps f k
  facts : ∀ v < f.numValues, r.fact v = s.fact v
  kind : ∀ b ∈ f.layout, (k.block b).kind = (f.block b).kind
  control : ∀ b ∈ f.layout, (f.block b).kind = .branch →
    r.operand (k.block b).control = s.operand (f.block b).control

theorem Carried.refl (hf : f.Fit) (hs : s.Ok f) : Carried f s f s :=
  ⟨.refl, hf, hs, .refl f, fun _ _ => rfl, fun _ _ => rfl, fun _ _ _ => rfl⟩

theorem Ssa.branch_control (h : f.Ssa) (hb : b ∈ f.layout) (hk : (f.block b).kind = .branch) :
    f.operandType (f.block b).control = .i1 ∧ f.AtEnd (f.block b).control b := by
  have hends := h.ends b hb
  simp only [EndsWell, hk] at hends
  exact hends.2

theorem Carried.insert {t : Ty} (h : Carried f s k r) (hb : b ∈ k.layout)
    (hi : i ≤ (k.block b).values.length) (ht : t.Valid) (hfit : t.Fits lanes)
    (hphis : ∀ p ∈ (k.block b).values.drop i, (k.value p).op ≠ .phi) :
    Carried f s (k.inserted b i (constOf t lanes)) (r.and lanes) := by
  have hblt := h.fit.ssa.flow.lt b hb
  have hend : ∀ c, ((k.inserted b i (constOf t lanes)).block c).kind = (k.block c).kind ∧
      ((k.inserted b i (constOf t lanes)).block c).control = (k.block c).control := by
    intro c
    rw [block_inserted hblt]
    split
    · next heq => rw [heq]; exact ⟨rfl, rfl⟩
    · exact ⟨rfl, rfl⟩
  refine ⟨h.steps.tail (.insert b i t lanes hb hi ht hfit hphis),
    h.fit.inserted hb hi ht hfit hphis, h.ok.insert hblt hfit, h.keeps.trans (.inserted hblt),
    fun v hv => ?_, fun c hc => (hend c).1.trans (h.kind c hc), fun c hc hk => ?_⟩
  · rw [Facts.fact_and, h.ok.size,
      if_neg (Nat.ne_of_lt (Nat.lt_of_lt_of_le hv h.keeps.numValues)), h.facts v hv]
  · have hck : c ∈ k.layout := by rwa [h.keeps.graph.layout]
    obtain ⟨_, hat⟩ := h.fit.ssa.branch_control hck ((h.kind c hc).trans hk)
    rw [(hend c).2, ← h.control c hc hk]
    obtain ⟨v, hv⟩ := hat.isValue
    rw [hv] at hat ⊢
    change (r.and lanes).fact v = r.fact v
    rw [Facts.fact_and, h.ok.size, if_neg hat.ne_numValues]

theorem Carried.replace (h : Carried f s k r) (hb : b ∈ k.layout) (hv : v ∈ (k.block b).values)
    (hkind : (k.value v).isPure = true ∨ (k.value v).op = .phi) (hne : w ≠ v)
    (hw : (k.value w).op = .const) (hc : k.Covers w v) (hfact : r.fact v = .const lanes)
    (hsame : r.fact w = .const lanes) : Carried f s (k.replaceValue v (.value w)) r := by
  refine ⟨h.steps.tail (.replace b v w lanes hb hv hkind hne hw hc hfact hsame),
    h.fit.replaceValue hb hv hne hc, h.ok.replace h.fit.ssa hb hv hc,
    h.keeps.trans (.replaceValue h.fit.ssa hb hv hc), h.facts, fun c hcl => ?_,
    fun c hcl hk => ?_⟩
  · have hck : c ∈ k.layout := by rwa [h.keeps.graph.layout]
    exact (control_replaceValue h.fit.ssa hb hv hck).2.trans (h.kind c hcl)
  · have hck : c ∈ k.layout := by rwa [h.keeps.graph.layout]
    rw [(control_replaceValue h.fit.ssa hb hv hck).1, ← h.control c hcl hk]
    unfold swap
    split
    · next heq =>
      rw [heq]
      exact hsame.trans hfact.symm
    · rfl

/-- What putting constants does at one value. -/
def substituteAt (s : Facts) (b : BlockId) (x : Func × Bool) (id : ValueId) : Optimized :=
  match s.fact id with
  | .const lanes =>
    if (x.1.value id).op = .const ∨ (!(x.1.value id).isPure ∧ (x.1.value id).op ≠ .phi) then .ok x
    else x.1.insertConst b (if (x.1.value id).op = .phi then (x.1.firstNonPhi b : Int)
      else x.1.indexIn b id) (x.1.value id).type lanes >>= fun y =>
        .ok (y.1.replaceValue id (.value y.2), true)
  | _ => .ok x

theorem substituteBlock_eq : substituteBlock s f b =
    (f.block b).values.foldlM (substituteAt s b) (f, false) := rfl

/-- A constant in place `i` of a value's block, and for the value. -/
theorem Carried.substitute (h : Carried f s k r) (hb : b ∈ k.layout)
    (hv : v ∈ (k.block b).values) (hi : i ≤ (k.block b).values.length)
    (hphis : ∀ p ∈ (k.block b).values.drop i, (k.value p).op ≠ .phi)
    (hkind : (k.value v).isPure = true ∨ (k.value v).op = .phi) (hfact : r.fact v = .const lanes)
    (hc : (k.inserted b i (constOf (k.value v).type lanes)).Covers k.numValues v) :
    ∃ g, (k.insertConst b i (k.value v).type lanes >>= fun y =>
        (.ok (y.1.replaceValue v (.value y.2), true) : Optimized)) = .ok (g, true) ∧
      Carried f s g (r.and lanes) ∧ ∀ x ∈ (k.block b).values, x ≠ v → x ∈ (g.block b).values := by
  have hfit := (h.ok.fits v lanes hfact).2
  have hblt := h.fit.ssa.flow.lt b hb
  have hlt := h.fit.ssa.listing.lt hb hv
  have hne : v ≠ k.numValues := Nat.ne_of_lt hlt
  have hins := h.insert hb hi (h.fit.types b hb v hv) hfit hphis
  have hval : (k.inserted b i (constOf (k.value v).type lanes)).value v = k.value v := by
    rw [value_inserted, if_neg hne]
  have hmem : ∀ x ∈ (k.block b).values,
      x ∈ ((k.inserted b i (constOf (k.value v).type lanes)).block b).values := by
    intro x hx
    rw [block_inserted hblt, if_pos rfl]
    exact (List.mem_insertIdx hi).mpr (.inr hx)
  have hrep := hins.replace (b := b) hb (hmem v hv) (by rwa [hval]) hne.symm
    (by rw [value_inserted, if_pos rfl]; simp) hc
    (by rw [Facts.fact_and, h.ok.size, if_neg hne, hfact])
    (by rw [Facts.fact_and, h.ok.size, if_pos rfl])
  refine ⟨_, by rw [insertConst_eq hi hfit.1]; rfl, hrep, fun x hx hxv => ?_⟩
  rw [values_replaceValue hins.fit.ssa hb (hmem v hv), if_pos rfl]
  exact (List.mem_erase_of_ne hxv).mpr (hmem x hx)

theorem Carried.substituteAt (h : Carried f s k r) (hs : s.Ok f) (hb : b ∈ k.layout)
    (hv : v ∈ (k.block b).values) (ch : Bool) :
    ∃ g more t, substituteAt s b (k, ch) v = .ok (g, more) ∧ Carried f s g t ∧
      ∀ x ∈ (k.block b).values, x ≠ v → x ∈ (g.block b).values := by
  have hstay : ∃ g more t, (.ok (k, ch) : Optimized) = .ok (g, more) ∧ Carried f s g t ∧
      ∀ x ∈ (k.block b).values, x ≠ v → x ∈ (g.block b).values :=
    ⟨k, ch, r, rfl, h, fun _ hx _ => hx⟩
  unfold Func.substituteAt
  cases hfact : s.fact v with
  | unknown => exact hstay
  | varies => exact hstay
  | const lanes =>
    have hlt : v < f.numValues := by
      by_contra hge
      have : s.fact v = .unknown := by
        simp only [Facts.fact, Array.getD_eq_getD_getElem?]
        rw [Array.getElem?_eq_none (by rw [hs.size]; exact Nat.le_of_not_lt hge)]
        rfl
      simp [this] at hfact
    have hfact : r.fact v = .const lanes := (h.facts v hlt).trans hfact
    simp only
    split
    · exact hstay
    · next hskip =>
      simp only [not_or, not_and, not_not, Bool.not_eq_true'] at hskip
      obtain ⟨_, hkind⟩ := hskip
      by_cases hphi : (k.value v).op = .phi
      · obtain ⟨g, hg, hcar, hmem⟩ := h.substitute hb hv firstNonPhi_le
          (h.fit.ssa.no_phi_behind hb) (.inr hphi) hfact (h.fit.ssa.phi_covers hb hv hphi)
        exact ⟨g, true, _, by rw [if_pos hphi]; exact hg, hcar, hmem⟩
      · have hpure : (k.value v).isPure = true := by
          by_contra hp
          exact hphi (hkind (by simpa using hp))
        obtain ⟨_, hparam, hstore, _⟩ := isPure_op hpure
        obtain ⟨g, hg, hcar, hmem⟩ := h.substitute hb hv
          (Nat.le_of_lt (List.idxOf_lt_length_of_mem hv))
          (h.fit.ssa.no_phi_from hb hv hphi hparam) (.inl hpure) hfact
          (withConst_covers h.fit.ssa hb hv hphi hparam hstore (h.ok.fits v lanes hfact).2.1)
        exact ⟨g, true, _, by rw [if_neg hphi, indexIn_eq hv]; exact hg, hcar, hmem⟩

theorem Carried.substituteBlock (h : Carried f s k r) (hs : s.Ok f) (hb : b ∈ k.layout) :
    ∃ g ch t, substituteBlock s k b = .ok (g, ch) ∧ Carried f s g t := by
  rw [substituteBlock_eq]
  have hrun := Outcome.foldlM_keeps_done (b := (k, false)) (l := (k.block b).values)
    (g := Func.substituteAt s b)
    (P := fun before (x : Func × Bool) => (∃ t, Carried f s x.1 t) ∧
      ∀ v ∈ (k.block b).values, v ∉ before → v ∈ (x.1.block b).values)
    ?_ ⟨⟨r, h⟩, fun _ hv _ => hv⟩
  · obtain ⟨⟨g, ch⟩, hg, ⟨t, ht⟩, _⟩ := hrun
    exact ⟨g, ch, t, hg, ht⟩
  rintro before v after ⟨m, ch⟩ hsplit ⟨⟨t, ht⟩, hleft⟩
  have hnd := h.fit.ssa.listing.nodup b hb
  rw [hsplit, List.nodup_append] at hnd
  have hv : v ∉ before := fun hv => hnd.2.2 v hv v List.mem_cons_self rfl
  have hbm : b ∈ m.layout := by
    rw [ht.keeps.graph.layout, ← h.keeps.graph.layout]
    exact hb
  obtain ⟨g, more, t', hg, hcar, hmem⟩ := ht.substituteAt hs hbm
    (hleft v (by simp [hsplit]) hv) ch
  refine ⟨(g, more), hg, ⟨t', hcar⟩, fun x hx hxb => ?_⟩
  simp only [List.mem_append, List.mem_singleton, not_or] at hxb
  exact hmem x (hleft x hx hxb.1) hxb.2

/-! ## Jumps for branches -/

/-- What is known of the branches that are to become jumps. -/
def Decided (f : Func) (s : Facts) (b : BlockId) (n : Nat) : Prop :=
  b ∈ f.layout ∧ (f.block b).kind = .branch ∧
    ∃ lanes, s.operand (f.block b).control = .const lanes ∧ n = edgeOf lanes

/-- What `constBranches` does with one block. -/
def decideAt (f : Func) (s : Facts) (folds : List (BlockId × Nat)) (b : BlockId) :
    Outcome (List (BlockId × Nat)) := do
  if (f.block b).kind ≠ .branch || !s.executable.contains b then return folds
  match ← s.of f (f.block b).control with
  | .const lanes => return folds ++ [(b, ← takenEdge lanes)]
  | _ => return folds

theorem constBranches_spec (hf : f.Fit) (hs : s.Ok f) :
    ∃ folds, f.constBranches s = .ok folds ∧ ∀ x ∈ folds, f.Decided s x.1 x.2 := by
  have heq : f.constBranches s = f.layout.foldlM (decideAt f s) [] := rfl
  rw [heq]
  refine Outcome.foldlM_keeps (fun folds b hb hall => ?_) (by simp)
  by_cases hkind : (f.block b).kind = .branch
  · by_cases hx : b ∈ s.executable
    · obtain ⟨hty, hat⟩ := hf.ssa.branch_control hb hkind
      have hof := Facts.of_atEnd hs hat
      cases hfact : s.operand (f.block b).control with
      | unknown => exact ⟨folds, by simp [decideAt, hkind, hx, hof, hfact], hall⟩
      | varies => exact ⟨folds, by simp [decideAt, hkind, hx, hof, hfact], hall⟩
      | const lanes =>
        obtain ⟨w, rfl⟩ := Facts.operand_cond hs hty hfact
        refine ⟨folds ++ [(b, edgeOf [w])], ?_, fun x hx => ?_⟩
        · simp [decideAt, hkind, hx, hof, hfact, takenEdge, Outcome.at?, edgeOf]
        · rcases List.mem_append.mp hx with hx | hx
          · exact hall x hx
          · obtain rfl := List.mem_singleton.mp hx
            exact ⟨hb, hkind, [w], hfact, rfl⟩
    · exact ⟨folds, by simp [decideAt, hkind, hx], hall⟩
  · exact ⟨folds, by simp [decideAt, hkind], hall⟩

theorem mem_of_lookup {l : List (BlockId × Nat)} {n : Nat} (h : l.lookup b = some n) :
    (b, n) ∈ l := by
  obtain ⟨l₁, l₂, rfl, _⟩ := List.lookup_eq_some_iff.mp h
  simp

theorem edgeOf_lt (lanes : List UInt64) : edgeOf lanes < 2 := by
  unfold edgeOf
  split <;> omega

/-- What propagating constants does with one block's end. -/
def settleAt (folds : List (BlockId × Nat)) (x : Func × Bool) (b : BlockId) : Optimized :=
  match folds.lookup b with
  | some n => x.1.foldBranch b n >>= fun g => .ok (g, true)
  | none => .ok x

theorem Carried.settle (h : Carried f s k r) {folds : List (BlockId × Nat)}
    (hfolds : ∀ x ∈ folds, f.Decided s x.1 x.2) (ch : Bool) :
    ∃ g more, k.layout.foldlM (settleAt folds) (k, ch) = .ok (g, more) ∧
      PutsAll (f, s) (g, r) ∧ g.Fit := by
  have hrun := Outcome.foldlM_keeps_done (b := (k, ch)) (l := k.layout) (g := settleAt folds)
    (P := fun before (x : Func × Bool) => PutsAll (f, s) (x.1, r) ∧ x.1.Fit ∧
      x.1.layout = k.layout ∧ ∀ b ∉ before, (x.1.block b).kind = (k.block b).kind ∧
        (x.1.block b).control = (k.block b).control)
    ?_ ⟨h.steps, h.fit, rfl, fun _ _ => ⟨rfl, rfl⟩⟩
  · obtain ⟨⟨g, more⟩, hg, hsteps, hfit, _⟩ := hrun
    exact ⟨g, more, hg, hsteps, hfit⟩
  rintro before b after ⟨m, ch⟩ hsplit ⟨hsteps, hfit, hlayout, hsame⟩
  have hstay : ∀ c ∉ before ++ [b], c ∉ before ∧ c ≠ b := fun c hc => by
    simpa only [List.mem_append, List.mem_singleton, not_or] using hc
  unfold settleAt
  cases hlook : folds.lookup b with
  | none => exact ⟨(m, ch), rfl, hsteps, hfit, hlayout, fun c hc => hsame c (hstay c hc).1⟩
  | some n =>
    obtain ⟨hb, hkind, lanes, hfact, hn⟩ := hfolds _ (mem_of_lookup hlook)
    simp only at hb hkind hfact hn
    subst hn
    have hnd := h.fit.ssa.flow.layout_nodup
    rw [hsplit, List.nodup_append] at hnd
    have hbefore : b ∉ before := fun hv => hnd.2.2 b hv b List.mem_cons_self rfl
    have hbm : b ∈ m.layout := by
      rw [hlayout, h.keeps.graph.layout]
      exact hb
    have hkm : (m.block b).kind = .branch := (hsame b hbefore).1.trans ((h.kind b hb).trans hkind)
    have hfm : r.operand (m.block b).control = .const lanes := by
      rw [(hsame b hbefore).2, h.control b hb hkind, hfact]
    obtain ⟨g, keep, drop, i, hg, hfold⟩ := foldBranch_spec hfit.ssa hbm hkm
      (edgeOf_lt lanes)
    refine ⟨(g, true), by simp [hg], hsteps.tail (.fold b lanes g keep drop i hbm hkm hfm hfold),
      hfold.fit hfit hbm, hfold.layout.trans hlayout, fun c hc => ?_⟩
    obtain ⟨hcb, hne⟩ := hstay c hc
    exact ⟨(hfold.others c hne).1.trans (hsame c hcb).1,
      (hfold.others c hne).2.1.trans (hsame c hcb).2⟩

/-! ## The whole -/

/-- What propagating constants does with the values of one block. -/
def substituteIn (s : Facts) (x : Func × Bool) (b : BlockId) : Optimized :=
  if !s.executable.contains b then .ok x
  else substituteBlock s x.1 b >>= fun y => .ok (y.1, x.2 || y.2)

theorem propagateConstants_eq : f.propagateConstants = f.facts >>= fun s =>
    f.constBranches s >>= fun folds => f.layout.foldlM (substituteIn s) (f, false) >>= fun x =>
      x.1.layout.foldlM (settleAt folds) x >>= fun y =>
        y.1.removeUnreachable >>= fun z => .ok (z.1, y.2 || z.2) := by
  unfold propagateConstants
  rfl

/-- Propagating constants is a sequence of its steps, and then what is out of reach is dropped. -/
theorem propagateConstants_steps (hf : f.Fit) : ∃ s r k g ch live, f.facts = .ok s ∧ s.Stable f ∧
    f.propagateConstants = .ok (g, ch) ∧ PutsAll (f, s) (k, r) ∧ k.Fit ∧
      (∀ b, live b = true ↔ k.Reached b) ∧ Trimmed k g live := by
  obtain ⟨s, hs, hstable⟩ := facts_spec hf
  obtain ⟨folds, hfolds, hall⟩ := constBranches_spec hf hstable.ok
  have hsub := Outcome.foldlM_keeps (b := (f, false)) (l := f.layout) (g := substituteIn s)
    (P := fun x : Func × Bool => ∃ r, Carried f s x.1 r) ?_ ⟨s, .refl hf hstable.ok⟩
  · obtain ⟨⟨m, c₁⟩, hm, r, hcar⟩ := hsub
    obtain ⟨k, c₂, hk, hsteps, hfit⟩ := hcar.settle hall c₁
    obtain ⟨g, c₃, live, hg, hlive, htrim⟩ := removeUnreachable_spec hfit.ssa
    refine ⟨s, r, k, g, c₂ || c₃, live, hs, hstable, ?_, hsteps, hfit, hlive, htrim⟩
    rw [propagateConstants_eq, hs, Outcome.ok_bind, hfolds, Outcome.ok_bind, hm, Outcome.ok_bind,
      hk, Outcome.ok_bind, hg, Outcome.ok_bind]
  rintro ⟨m, ch⟩ b hb ⟨r, hcar⟩
  unfold substituteIn
  split
  · exact ⟨(m, ch), rfl, r, hcar⟩
  · obtain ⟨g, more, t, hg, hcar'⟩ := hcar.substituteBlock hstable.ok
      (show b ∈ m.layout by rwa [hcar.keeps.graph.layout])
    exact ⟨(g, ch || more), by simp [hg], t, hcar'⟩

theorem propagateConstants_good (hf : f.Good True) :
    ∃ g ch, f.propagateConstants = .ok (g, ch) ∧ g.Good True := by
  obtain ⟨s, r, k, g, ch, live, _, _, hg, hsteps, _, hlive, htrim⟩ := propagateConstants_steps hf.fit
  have hk : k.Good True := hsteps.keeps (P := fun k => k.Good True) (fun _ _ _ _ hp => hp.good) hf
  exact ⟨g, ch, hg, htrim.ssa hk.ssa hlive, htrim.tidy hk.tidy⟩

end SsaJit.Func
