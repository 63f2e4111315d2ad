import Mathlib.Logic.Relation
import SsaJit.Proofs.Pass.Basic
import SsaJit.Proofs.Ssa.Merge

/-! What simplifying control flow does, step by step. `Func.Reshape` lists the steps with what is known
when each is taken; the optimisation is a sequence of them, so whatever each step keeps, the form of
the function among it, the whole keeps. -/

namespace SsaJit.Func

variable {f g k : Func} {b c d s p : BlockId} {u v w x : ValueId} {o : Operand}

/-! ## The steps -/

/-- The branch at the end of the block always goes along its `k`-th edge: its condition is constant. -/
def ConstBranch (f : Func) (b : BlockId) (k : Nat) : Prop :=
  ∃ v, (f.block b).control = .value v ∧ (f.value v).isConst = true ∧
    k = if (f.value v).aux ≠ 0 then 0 else 1

/-- Both edges of the branch lead to one block and bring the same arguments to its phis. -/
def EdgesAlike (f : Func) (b : BlockId) : Prop :=
  ∃ s, (f.block b).succs = [s, s] ∧ ∀ v ∈ (f.block s).values, (f.value v).op = .phi →
    ∀ i j, (f.predPlaces s b)[0]? = some i → (f.predPlaces s b)[1]? = some j →
      (f.value v).args[i]? = (f.value v).args[j]?

/-- One step of simplifying control flow. -/
inductive Reshape (f g : Func) : Prop
  | fold (b : BlockId) (k : Nat) (keep drop : BlockId) (i : Nat) (hb : b ∈ f.layout)
      (hkind : (f.block b).kind = .branch) (hfold : BranchFolded f g b k keep drop i)
      (why : f.ConstBranch b k ∨ f.EdgesAlike b)
  | trim (live : BlockId → Bool) (hlive : ∀ b, live b = true ↔ f.Reached b)
      (htrim : Trimmed f g live)
  | phi (b : BlockId) (v w : ValueId) (hb : b ∈ f.layout) (hv : v ∈ (f.block b).values)
      (hsource : f.OneSource v w) (heq : g = f.replaceValue v (.value w))
  | merge (b c : BlockId) (hmerge : Merged f g b c)

theorem Reshape.ssa (h : Reshape f g) (hf : f.Ssa) : g.Ssa := by
  cases h with
  | fold b k keep drop i hb hkind hfold why => exact hfold.ssa hf hb
  | trim live hlive htrim => exact htrim.ssa hf hlive
  | phi b v w hb hv hsource heq => exact heq ▸ hf.dropPhi hb hv hsource
  | merge b c hmerge => exact hmerge.ssa hf

theorem Reshape.good (h : Reshape f g) (hf : f.Good True) : g.Good True := by
  refine ⟨h.ssa hf.ssa, ?_⟩
  cases h with
  | fold b k keep drop i hb hkind hfold why => exact hfold.tidy hf.tidy
  | trim live hlive htrim => exact htrim.tidy hf.tidy
  | phi b v w hb hv hsource heq =>
    exact heq ▸ hf.tidy.replaceValue hf.ssa hb hv (hsource.covers hf.ssa hb hv)
      (hf.tidy.noStore_arg hb hv hsource.mem w rfl)
  | merge b c hmerge => exact hmerge.tidy hf.tidy hf.ssa.flow

/-- Steps of simplifying control flow. -/
abbrev Reshapes : Func → Func → Prop := Relation.ReflTransGen Reshape

theorem Reshapes.keeps {P : Func → Prop} (hstep : ∀ f g, Reshape f g → P f → P g)
    (h : Reshapes f g) (hf : P f) : P g := by
  induction h with
  | refl => exact hf
  | tail _ hstep' ih => exact hstep _ _ hstep' ih

theorem Reshapes.ssa (h : Reshapes f g) (hf : f.Ssa) : g.Ssa :=
  h.keeps (fun _ _ hs => hs.ssa) hf

/-! ## Folding branches -/

theorem AtEnd.find (h : f.AtEnd o b) : ∃ v, o = .value v ∧ f.find o = .ok (f.value v) := by
  obtain ⟨v, rfl⟩ := h.isValue
  exact ⟨v, rfl, rfl⟩

theorem samePhiArgs_spec (h : f.Ssa) (hs : s ∈ f.layout) :
    ∃ r, f.samePhiArgs s b = .ok r ∧ (r = true → ∀ v ∈ (f.block s).values, (f.value v).op = .phi →
      ∀ i j, (f.predPlaces s b)[0]? = some i → (f.predPlaces s b)[1]? = some j →
        (f.value v).args[i]? = (f.value v).args[j]?) := by
  unfold samePhiArgs
  split
  · next i j hplaces =>
    have hplace : ∀ {n m : Nat}, (f.predPlaces s b)[n]? = some m → ∀ v ∈ (f.block s).values,
        (f.value v).op = .phi → ∃ o, (f.value v).args[m]? = some o := by
      intro n m hm v hv hphi
      obtain ⟨hp, _⟩ := getElem?_predPlaces.mp hm
      have hlt := (List.getElem?_eq_some_iff.mp hp).1
      rw [← (h.phis s hs v hv hphi).1] at hlt
      exact ⟨_, List.getElem?_eq_getElem hlt⟩
    have hi : (f.predPlaces s b)[0]? = some i := by rw [hplaces]; rfl
    have hj : (f.predPlaces s b)[1]? = some j := by rw [hplaces]; rfl
    have hrun := Outcome.foldlM_keeps_done (b := true) (l := f.phisOf s)
      (P := fun done same => same = true → ∀ x ∈ done, x.2.args[i]? = x.2.args[j]?)
      (g := fun same (x : ValueId × Value) => do
        if !same then return false
        return (← .at? x.2.args i) == (← .at? x.2.args j)) ?_ (by simp)
    · obtain ⟨r, hr, hall⟩ := hrun
      refine ⟨r, hr, fun htrue v hv hphi i' j' hi' hj' => ?_⟩
      obtain rfl : i = i' := Option.some.inj (hi.symm.trans hi')
      obtain rfl : j = j' := Option.some.inj (hj.symm.trans hj')
      refine hall htrue (v, f.value v) (List.mem_filter.mpr ⟨List.mem_map.mpr ⟨v, hv, rfl⟩, ?_⟩)
      simpa using hphi
    · intro done x rest same hsplit hdone
      have hx : x ∈ f.phisOf s := by rw [hsplit]; simp
      obtain ⟨hx, hphi⟩ := List.mem_filter.mp hx
      obtain ⟨v, hv, rfl⟩ := List.mem_map.mp hx
      have hphi : (f.value v).op = .phi := by simpa using hphi
      obtain ⟨oi, hoi⟩ := hplace hi v hv hphi
      obtain ⟨oj, hoj⟩ := hplace hj v hv hphi
      cases same with
      | false => exact ⟨false, rfl, by simp⟩
      | true =>
        refine ⟨oi == oj, by simp [Outcome.at?, hoi, hoj], fun heq y hy => ?_⟩
        rcases List.mem_append.mp hy with hy | hy
        · exact hdone rfl y hy
        · obtain rfl : y = (v, f.value v) := by simpa using hy
          rw [hoi, hoj, beq_iff_eq.mp heq]
  · exact ⟨false, rfl, by simp⟩

/-- What `foldBranches` does with one block. -/
def foldBranchAt (r : Func × Bool) (b : BlockId) : Optimized := do
  let blk := r.1.block b
  if blk.kind ≠ .branch then return r
  let cond ← r.1.find blk.control
  if cond.isConst then
    return (← r.1.foldBranch b (if cond.aux ≠ 0 then 0 else 1), true)
  let yes ← .at? blk.succs 0
  let no ← .at? blk.succs 1
  if yes = no then
    if ← r.1.samePhiArgs yes b then return (← r.1.foldBranch b 0, true)
  return r

theorem foldBranches_eq : f.foldBranches = f.layout.foldlM foldBranchAt (f, false) := rfl

theorem foldBranchAt_spec (h : f.Ssa) (hb : b ∈ f.layout) (ch : Bool) :
    ∃ r, foldBranchAt (f, ch) b = .ok r ∧ r.1.layout = f.layout ∧ Reshapes f r.1 := by
  by_cases hkind : (f.block b).kind = .branch
  · have hends := h.ends b hb
    simp only [EndsWell, hkind] at hends
    obtain ⟨v, hctl, hfind⟩ := hends.2.2.find
    obtain ⟨yes, no, hs⟩ := h.branch_succs hb hkind
    by_cases hc : (f.value v).isConst = true
    · have hk : (if (f.value v).aux ≠ 0 then 0 else 1) < 2 := by split <;> omega
      obtain ⟨g, keep, drop, i, hg, hfold⟩ := foldBranch_spec h hb hkind hk
      refine ⟨(g, true), ?_, hfold.layout, .single (.fold b _ keep drop i hb hkind hfold
        (.inl ⟨v, hctl, hc, rfl⟩))⟩
      simp only [foldBranchAt, hkind, hfind, hc, hg, ne_eq, not_true_eq_false, if_false, if_true,
        Outcome.ok_bind]
      rfl
    · by_cases hyn : yes = no
      · subst hyn
        have hyl := h.flow.succs_mem b hb yes (by rw [hs]; simp)
        obtain ⟨r, hr, hall⟩ := samePhiArgs_spec (b := b) h hyl
        cases r with
        | false => exact ⟨(f, ch), by simp [foldBranchAt, hkind, hfind, hc, hs, Outcome.at?, hr],
            rfl, .refl⟩
        | true =>
          obtain ⟨g, keep, drop, i, hg, hfold⟩ := foldBranch_spec h hb hkind (k := 0) (by omega)
          refine ⟨(g, true), ?_, hfold.layout, .single (.fold b _ keep drop i hb hkind hfold
            (.inr ⟨yes, hs, hall rfl⟩))⟩
          simp [foldBranchAt, hkind, hfind, hc, hs, Outcome.at?, hr, hg]
      · exact ⟨(f, ch), by simp [foldBranchAt, hkind, hfind, hc, hs, Outcome.at?, hyn], rfl, .refl⟩
  · exact ⟨(f, ch), by simp [foldBranchAt, hkind], rfl, .refl⟩

theorem foldBranches_reshapes (h : f.Ssa) :
    ∃ g ch, f.foldBranches = .ok (g, ch) ∧ Reshapes f g := by
  have hrun := Outcome.foldlM_keeps (b := (f, false)) (l := f.layout) (g := foldBranchAt)
    (P := fun r : Func × Bool => r.1.layout = f.layout ∧ Reshapes f r.1) ?_ ⟨rfl, .refl⟩
  · obtain ⟨⟨g, ch⟩, hg, _, hsteps⟩ := hrun
    exact ⟨g, ch, hg, hsteps⟩
  · rintro ⟨k, ch⟩ b hb ⟨hlay, hsteps⟩
    obtain ⟨r, hr, hlay', hmore⟩ := foldBranchAt_spec (hsteps.ssa h) (hlay ▸ hb) ch
    exact ⟨r, hr, hlay'.trans hlay, hsteps.trans hmore⟩

/-! ## Dropping phis -/

theorem foldl_keeps {α β : Type} {P : β → Prop} {h : β → α → β} {l : List α} {b : β}
    (step : ∀ b, ∀ x ∈ l, P b → P (h b x)) (hb : P b) : P (l.foldl h b) := by
  induction l generalizing b with
  | nil => exact hb
  | cons x l ih =>
    exact ih (fun b y hy => step b y (List.mem_cons_of_mem _ hy)) (step b x List.mem_cons_self hb)

/-- What `simplifyPhis` does with one value. -/
def dropPhiAt (r : Func × Bool) (id : ValueId) : Func × Bool :=
  let v := r.1.value id
  if v.op != .phi || v.block.isNone then r
  else match onlySource id .missing v.args with
    | .missing => r
    | o => (r.1.replaceValue id o, true)

theorem simplifyPhis_eq : f.simplifyPhis =
    f.layout.foldl (fun r b => (r.1.block b).values.foldl dropPhiAt r) (f, false) := rfl

theorem dropPhiAt_spec (h : f.Ssa) (ch : Bool) (v : ValueId) :
    SameGraph f (dropPhiAt (f, ch) v).1 ∧ Reshapes f (dropPhiAt (f, ch) v).1 := by
  unfold dropPhiAt
  simp only
  split
  · exact ⟨.refl f, .refl⟩
  · next hcond =>
    simp only [Bool.or_eq_true, bne_iff_ne, not_or, not_not, Option.isNone_iff_eq_none] at hcond
    obtain ⟨b, hb⟩ := Option.ne_none_iff_exists'.mp hcond.2
    obtain ⟨hbl, hv⟩ := (h.listing.listed v b).mp hb
    rcases oneSource_of_onlySource h hbl hv hcond.1 with hm | ⟨w, hw, hsource⟩
    · rw [hm]
      exact ⟨.refl f, .refl⟩
    · rw [hw]
      exact ⟨(Keeps.replaceValue h hbl hv (hsource.covers h hbl hv)).graph,
        .single (.phi b v w hbl hv hsource rfl)⟩

theorem simplifyPhis_reshapes (h : f.Ssa) :
    SameGraph f f.simplifyPhis.1 ∧ Reshapes f f.simplifyPhis.1 := by
  rw [simplifyPhis_eq]
  refine foldl_keeps (P := fun r : Func × Bool => SameGraph f r.1 ∧ Reshapes f r.1) ?_
    ⟨.refl f, .refl⟩
  intro r b _ hr
  refine foldl_keeps (P := fun r : Func × Bool => SameGraph f r.1 ∧ Reshapes f r.1) ?_ hr
  rintro ⟨k, ch⟩ v _ ⟨hg, hsteps⟩
  obtain ⟨hg', hmore⟩ := dropPhiAt_spec (hsteps.ssa h) ch v
  exact ⟨hg.trans hg', hsteps.trans hmore⟩

/-! ## Merging blocks -/

/-- What `mergeInto` does first: it puts the one argument for each phi. -/
def dropPhiOf (f : Func) (id : ValueId) : Outcome Func := do
  let v := f.value id
  if v.op == .phi then return f.replaceValue id (← .at? v.args 0) else return f

theorem mergeInto_eq : f.mergeInto b c =
    (f.block c).values.foldlM dropPhiOf f >>= fun k => .ok (k.joined b c) := rfl

theorem kind_replaceValue (h : f.Ssa) (hb : b ∈ f.layout) (hv : v ∈ (f.block b).values) :
    ((f.replaceValue v (.value w)).block c).kind = (f.block c).kind := by
  have ht := h.inTables
  have hlt : b < (f.replaceUses (.value v) (.value w)).numBlocks := by
    rw [numBlocks_replaceUses ht]
    exact h.flow.lt b hb
  rw [replaceValue_eq h hb hv, block_removeValue hlt (by rwa [values_replaceUses ht])]
  split
  · next heq => rw [heq]; exact kind_replaceUses ht
  · exact kind_replaceUses ht

/-- A phi behind a jump has one source. -/
theorem Joins.oneSource (hj : f.Joins b c) (h : f.Ssa) (hv : v ∈ (f.block c).values)
    (hphi : (f.value v).op = .phi) : ∃ w, (f.value v).args = [.value w] ∧ f.OneSource v w := by
  obtain ⟨hlen, hall⟩ := h.phis c hj.second v hv hphi
  rw [hj.preds] at hlen hall
  obtain ⟨o, ho⟩ := List.length_eq_one_iff.mp hlen
  obtain ⟨_, w, rfl, hend⟩ := hall (o, b) (by rw [ho]; simp)
  refine ⟨w, ho, hphi, ?_, by rw [ho]; simp, fun o' ho' => .inr (by simpa [ho] using ho')⟩
  rintro rfl
  obtain ⟨d, hd, hdom⟩ := hend.resolve_left (by simp [hphi])
  obtain rfl : c = d := Option.some.inj (((h.listing.listed w c).mpr ⟨hj.second, hv⟩).symm.trans hd)
  have hcs : c ≠ f.start := by
    rintro rfl
    exact h.entry_phis w hv hphi
  have hbc : f.Dominates b c := by
    refine Dom.of_preds hcs fun y hy hedge => ?_
    have := (h.flow.mem_preds_iff (h.flow.reached_mem hy) hj.second).mpr hedge
    rw [hj.preds, List.mem_singleton] at this
    rw [this]
    exact .refl _ _ _
  exact hj.ne (((hdom hj.reached).antisymm hj.reached hbc).symm)

theorem Joins.sameGraph (hj : f.Joins b c) (hg : SameGraph f g)
    (hkind : (g.block b).kind = (f.block b).kind) : g.Joins b c where
  first := hg.layout ▸ hj.first
  second := hg.layout ▸ hj.second
  ne := hj.ne
  reached := hg.reached.mpr hj.reached
  jump := hkind.trans hj.jump
  succs := (hg.succs b).trans hj.succs
  preds := (hg.preds c).trans hj.preds

/-- What is true while the phis of a block are dropped: those left to come to are still there. -/
structure Dropping (f k : Func) (b c : BlockId) (done : List ValueId) : Prop where
  steps : Reshapes f k
  graph : SameGraph f k
  joins : k.Joins b c
  left : ∀ x ∈ (f.block c).values, x ∉ done → x ∈ (k.block c).values
  gone : ∀ x ∈ (k.block c).values, (k.value x).op = .phi → x ∈ (f.block c).values ∧ x ∉ done

theorem Dropping.step {done : List ValueId} (hd : Dropping f k b c done) (h : f.Ssa)
    (hv : v ∈ (f.block c).values) (hdone : v ∉ done) :
    ∃ m, dropPhiOf k v = .ok m ∧ Dropping f m b c (done ++ [v]) := by
  have hk := hd.steps.ssa h
  have hvk := hd.left v hv hdone
  by_cases hphi : (k.value v).op = .phi
  · obtain ⟨w, hargs, hsource⟩ := hd.joins.oneSource hk hvk hphi
    have hc := hd.joins.second
    have hvals : ((k.replaceValue v (.value w)).block c).values = (k.block c).values.erase v := by
      rw [values_replaceValue hk hc hvk, if_pos rfl]
    have hg := (Keeps.replaceValue hk hc hvk (hsource.covers hk hc hvk)).graph
    refine ⟨k.replaceValue v (.value w), by simp [dropPhiOf, hphi, hargs, Outcome.at?],
      hd.steps.tail (.phi c v w hc hvk hsource rfl), hd.graph.trans hg,
      hd.joins.sameGraph hg (kind_replaceValue hk hc hvk), fun x hx hxd => ?_,
      fun x hx hxp => ?_⟩
    · rw [List.mem_append, List.mem_singleton, not_or] at hxd
      rw [hvals]
      exact (List.mem_erase_of_ne hxd.2).mpr (hd.left x hx hxd.1)
    · rw [hvals, (hk.listing.nodup c hc).mem_erase_iff] at hx
      obtain ⟨a, ha⟩ := replaceValue_head (w := w) hk hc hvk x
      rw [ha] at hxp
      obtain ⟨hxf, hxd⟩ := hd.gone x hx.2 hxp
      exact ⟨hxf, by simpa using ⟨hxd, hx.1⟩⟩
  · refine ⟨k, by simp [dropPhiOf, hphi], hd.steps, hd.graph, hd.joins, fun x hx hxd => ?_,
      fun x hx hxp => ?_⟩
    · exact hd.left x hx fun hm => hxd (List.mem_append_left _ hm)
    · obtain ⟨hxf, hxd⟩ := hd.gone x hx hxp
      refine ⟨hxf, ?_⟩
      rw [List.mem_append, List.mem_singleton, not_or]
      exact ⟨hxd, fun heq => hphi (heq ▸ hxp)⟩

theorem mergeInto_spec (h : f.Ssa) (hj : f.Joins b c) :
    ∃ k g, f.mergeInto b c = .ok g ∧ Reshapes f k ∧ SameGraph f k ∧ Merged k g b c := by
  have hnd := h.listing.nodup c hj.second
  have hrun := Outcome.foldlM_keeps_done (b := f) (l := (f.block c).values) (g := dropPhiOf)
    (P := fun done k => Dropping f k b c done) ?_
    ⟨.refl, .refl f, hj, fun x hx _ => hx, fun x hx _ => ⟨hx, by simp⟩⟩
  · obtain ⟨k, hk, hd⟩ := hrun
    refine ⟨k, k.joined b c, by rw [mergeInto_eq, hk]; rfl, hd.steps, hd.graph,
      joined_spec (hd.steps.ssa h) hd.joins fun v hv hphi => ?_⟩
    obtain ⟨hin, hout⟩ := hd.gone v hv hphi
    exact hout hin
  · intro done x rest k hsplit hd
    rw [hsplit] at hnd
    have hx : x ∈ (f.block c).values := by rw [hsplit]; simp
    exact hd.step h hx fun hm => (List.nodup_append.mp hnd).2.2 x hm x List.mem_cons_self rfl

theorem Merged.reached_of (hm : Merged f g b c) (hf : f.Flow) {x : BlockId} (hx : f.Reached x) :
    g.Reached (moved b c x) := by
  refine Reach.induct (P := fun y => g.Reached (moved b c y)) ?_ (fun y z hy ih hz => ?_) hx
  · rw [moved, if_neg (hm.ne_start hf).symm, Reached, hm.start hf]
    exact .refl _ _
  · by_cases hzc : z = c
    · subst hzc
      have hyb : y = b := by
        have := (hf.mem_preds_iff (hf.reached_mem hy) hm.joins.second).mpr hz
        rwa [hm.joins.preds, List.mem_singleton] at this
      subst hyb
      rw [moved, if_neg hm.joins.ne] at ih
      rwa [moved, if_pos rfl]
    · rw [moved, if_neg hzc]
      by_cases hyc : y = c
      · subst hyc
        rw [moved, if_pos rfl] at ih
        exact ih.step (by rw [hm.next_first]; exact hz)
      · rw [moved, if_neg hyc] at ih
        refine ih.step ?_
        rw [hm.next_other hyc]
        · exact hz
        · rintro rfl
          rw [next, hm.joins.succs, List.mem_singleton] at hz
          exact hzc hz

/-- What `mergeBlocks` does with one block. -/
def mergeAt (r : Func × Bool) (c : BlockId) : Optimized := do
  if c = (← r.1.entry) then return r
  match (r.1.block c).preds with
  | [b] =>
    if b = c ∨ (r.1.block b).kind ≠ .jump then return r
    return (← r.1.mergeInto b c, true)
  | _ => return r

theorem mergeBlocks_eq : f.mergeBlocks = f.layout.foldlM mergeAt (f, false) := rfl

theorem mergeAt_spec (h : f.Ssa) (hall : ∀ b ∈ f.layout, f.Reached b) (hc : c ∈ f.layout)
    (ch : Bool) : ∃ r, mergeAt (f, ch) c = .ok r ∧ Reshapes f r.1 ∧
      (∀ b ∈ r.1.layout, r.1.Reached b) ∧ ∀ b ∈ f.layout, b ≠ c → b ∈ r.1.layout := by
  have hskip : Reshapes f f ∧ (∀ b ∈ f.layout, f.Reached b) ∧
      ∀ b ∈ f.layout, b ≠ c → b ∈ f.layout := ⟨.refl, hall, fun b hb _ => hb⟩
  have hentry := h.flow.entry_eq
  by_cases hcs : c = f.start
  · exact ⟨(f, ch), by simp [mergeAt, hentry, hcs], hskip⟩
  match hp : (f.block c).preds with
  | [] => exact ⟨(f, ch), by simp [mergeAt, hentry, hp], hskip⟩
  | _ :: _ :: _ => exact ⟨(f, ch), by simp [mergeAt, hentry, hp], hskip⟩
  | [b] =>
    by_cases hno : b = c ∨ (f.block b).kind ≠ .jump
    · exact ⟨(f, ch), by simp [mergeAt, hentry, hp, hno], hskip⟩
    · have hbl := h.flow.preds_mem c hc b (by rw [hp]; simp)
      have hjump : (f.block b).kind = .jump := by
        by_contra hne
        exact hno (.inr hne)
      have hends := h.ends b hbl
      simp only [EndsWell, hjump] at hends
      obtain ⟨s, hs⟩ := List.length_eq_one_iff.mp hends
      have hcs' : c ∈ (f.block b).succs := (h.flow.mem_preds_iff hbl hc).mp (by rw [hp]; simp)
      obtain rfl : c = s := by simpa [hs] using hcs'
      have hj : f.Joins b c := ⟨hbl, hc, fun heq => hno (.inl heq), hall b hbl, hjump, hs, hp⟩
      obtain ⟨k, g, hg, hsteps, hgraph, hm⟩ := mergeInto_spec h hj
      have hk := hsteps.ssa h
      refine ⟨(g, true), ?_, hsteps.tail (.merge b c hm), fun x hx => ?_, fun x hx hxc => ?_⟩
      · simp [mergeAt, hentry, hcs, hp, hno, hg]
      · obtain ⟨hx, hxc⟩ := (hm.mem_layout hk.flow).mp hx
        have := hm.reached_of hk.flow (hgraph.reached.mpr (hall x (hgraph.layout ▸ hx)))
        rwa [Merged.moved, if_neg hxc] at this
      · exact (hm.mem_layout hk.flow).mpr ⟨hgraph.layout ▸ hx, hxc⟩

theorem mergeBlocks_reshapes (h : f.Ssa) (hall : ∀ b ∈ f.layout, f.Reached b) :
    ∃ g ch, f.mergeBlocks = .ok (g, ch) ∧ Reshapes f g := by
  have hnd := h.flow.layout_nodup
  have hrun := Outcome.foldlM_keeps_done (b := (f, false)) (l := f.layout) (g := mergeAt)
    (P := fun done r => Reshapes f r.1 ∧ (∀ b ∈ r.1.layout, r.1.Reached b) ∧
      ∀ b ∈ f.layout, b ∉ done → b ∈ r.1.layout) ?_ ⟨.refl, hall, fun b hb _ => hb⟩
  · obtain ⟨⟨g, ch⟩, hg, hsteps, _⟩ := hrun
    exact ⟨g, ch, hg, hsteps⟩
  · rintro done c rest ⟨k, ch⟩ hsplit ⟨hsteps, hreached, hleft⟩
    rw [hsplit] at hnd
    have hc : c ∈ f.layout := by rw [hsplit]; simp
    have hcd : c ∉ done := fun hm => (List.nodup_append.mp hnd).2.2 c hm c List.mem_cons_self rfl
    obtain ⟨r, hr, hmore, hreached', hstay⟩ := mergeAt_spec (hsteps.ssa h) hreached
      (hleft c hc hcd) ch
    refine ⟨r, hr, hsteps.trans hmore, hreached', fun b hb hbd => ?_⟩
    rw [List.mem_append, List.mem_singleton, not_or] at hbd
    exact hstay b (hleft b hb hbd.1) hbd.2

/-! ## All of it -/

/-- The four steps of a round, one by one. -/
theorem controlFlowRound_steps (h : f.Ssa) : ∃ r₁ r₂ r₄,
    f.foldBranches = .ok r₁ ∧ Reshapes f r₁.1 ∧ r₁.1.removeUnreachable = .ok r₂ ∧
    Reshapes r₁.1 r₂.1 ∧ Reshapes r₂.1 r₂.1.simplifyPhis.1 ∧
    r₂.1.simplifyPhis.1.mergeBlocks = .ok r₄ ∧ Reshapes r₂.1.simplifyPhis.1 r₄.1 ∧
    f.controlFlowRound = .ok (r₄.1, r₁.2 || r₂.2 || r₂.1.simplifyPhis.2 || r₄.2) := by
  obtain ⟨f₁, c₁, h₁, hs₁⟩ := foldBranches_reshapes h
  have hf₁ := hs₁.ssa h
  obtain ⟨f₂, c₂, live, h₂, hlive, htrim⟩ := removeUnreachable_spec hf₁
  have hf₂ := htrim.ssa hf₁ hlive
  obtain ⟨hgraph, hs₃⟩ := simplifyPhis_reshapes hf₂
  have hall : ∀ b ∈ f₂.simplifyPhis.1.layout, f₂.simplifyPhis.1.Reached b := fun b hb =>
    hgraph.reached.mpr (htrim.all_reached hf₁.flow hlive (hgraph.layout ▸ hb))
  obtain ⟨f₄, c₄, h₄, hs₄⟩ := mergeBlocks_reshapes (hs₃.ssa hf₂) hall
  refine ⟨(f₁, c₁), (f₂, c₂), (f₄, c₄), h₁, hs₁, h₂, .single (.trim live hlive htrim), hs₃, h₄, hs₄,
    ?_⟩
  simp only [controlFlowRound, h₁, Outcome.ok_bind, h₂, h₄]
  rfl

theorem controlFlowRound_reshapes (h : f.Ssa) :
    ∃ g ch, f.controlFlowRound = .ok (g, ch) ∧ Reshapes f g := by
  obtain ⟨r₁, r₂, r₄, _, hs₁, _, hs₂, hs₃, _, hs₄, hround⟩ := controlFlowRound_steps h
  exact ⟨_, _, hround, ((hs₁.trans hs₂).trans hs₃).trans hs₄⟩

theorem controlFlowRounds_reshapes (fuel : Nat) : ∀ f ch, f.Ssa →
    ∃ g ch', controlFlowRounds fuel f ch = .ok (g, ch') ∧ Reshapes f g := by
  induction fuel with
  | zero => exact fun f ch _ => ⟨f, ch, rfl, .refl⟩
  | succ fuel ih =>
    intro f ch h
    obtain ⟨k, more, hk, hsteps⟩ := controlFlowRound_reshapes h
    rw [controlFlowRounds, hk]
    cases more with
    | false => exact ⟨k, ch, rfl, hsteps⟩
    | true =>
      obtain ⟨g, ch', hg, hmore⟩ := ih k true (hsteps.ssa h)
      exact ⟨g, ch', hg, hsteps.trans hmore⟩

/-- Simplifying control flow gives a result, by steps. -/
theorem simplifyControlFlow_reshapes (h : f.Ssa) :
    ∃ g ch, f.simplifyControlFlow = .ok (g, ch) ∧ Reshapes f g :=
  controlFlowRounds_reshapes _ f false h

theorem simplifyControlFlow_good (h : f.Good True) :
    ∃ g ch, f.simplifyControlFlow = .ok (g, ch) ∧ g.Good True := by
  obtain ⟨g, ch, hg, hsteps⟩ := simplifyControlFlow_reshapes h.ssa
  exact ⟨g, ch, hg, hsteps.keeps (fun _ _ hs => hs.good) h⟩

end SsaJit.Func
