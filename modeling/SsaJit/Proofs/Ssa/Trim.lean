import SsaJit.Proofs.Ssa.Edges

/-! Dropping the blocks that control never comes to. Each such block gives up its edges one by one;
what is left of a block's predecessors are those that control does come to, and what is left of a phi
are the arguments that belong to them. -/

namespace SsaJit.Func

variable {f g k : Func} {b c d s p : BlockId} {u v w x : ValueId} {o : Operand}

theorem filter_eraseIdx {α : Type} {l : List α} {i : Nat} {a : α} {q : α → Bool}
    (h : l[i]? = some a) (hq : q a = false) : (l.eraseIdx i).filter q = l.filter q := by
  induction l generalizing i with
  | nil => simp
  | cons y l ih =>
    cases i with
    | zero =>
      obtain rfl : y = a := by simpa using h
      simp [hq]
    | succ i =>
      rw [List.eraseIdx_cons_succ, List.filter_cons, List.filter_cons, ih (by simpa using h)]

/-- The arguments that a phi has for the predecessors of a class, with these. -/
def argsFrom (f : Func) (q : BlockId → Bool) (s : BlockId) (v : ValueId) :
    List (Operand × BlockId) :=
  ((f.value v).args.zip (f.block s).preds).filter fun x => q x.2

/-- Only predecessors, and arguments of phis, differ. -/
structure PhisOnly (f k : Func) : Prop where
  layout : k.layout = f.layout
  ret : k.ret = f.ret
  numValues : k.numValues = f.numValues
  numBlocks : k.numBlocks = f.numBlocks
  values : ∀ b, (k.block b).values = (f.block b).values
  own : ∀ b, (k.block b).isForeign = (f.block b).isForeign
  head : ∀ v, ∃ a, k.value v = { f.value v with args := a }
  others : ∀ v, (f.value v).op ≠ .phi → k.value v = f.value v

theorem PhisOnly.refl (f : Func) : PhisOnly f f :=
  ⟨rfl, rfl, rfl, rfl, fun _ => rfl, fun _ => rfl, fun v => ⟨(f.value v).args, rfl⟩, fun _ _ => rfl⟩

theorem PhisOnly.op (h : PhisOnly f k) : (k.value v).op = (f.value v).op := by
  obtain ⟨a, ha⟩ := h.head v
  rw [ha]

theorem PhisOnly.trans {m : Func} (h₁ : PhisOnly f k) (h₂ : PhisOnly k m) : PhisOnly f m where
  layout := h₂.layout.trans h₁.layout
  ret := h₂.ret.trans h₁.ret
  numValues := h₂.numValues.trans h₁.numValues
  numBlocks := h₂.numBlocks.trans h₁.numBlocks
  values b := (h₂.values b).trans (h₁.values b)
  own b := (h₂.own b).trans (h₁.own b)
  head v := by
    obtain ⟨a, ha⟩ := h₁.head v
    obtain ⟨a', ha'⟩ := h₂.head v
    exact ⟨a', by rw [ha', ha]⟩
  others v hv := (h₂.others v (h₁.op ▸ hv)).trans (h₁.others v hv)

/-- Phis are in step with the predecessors. -/
def InStep (f : Func) : Prop :=
  ∀ s ∈ f.layout, ∀ v ∈ (f.block s).values, (f.value v).op = .phi →
    (f.value v).args.length = (f.block s).preds.length

/-- The tables hold all blocks and their values, each value once. -/
structure Tabled (f : Func) : Prop where
  inTables : InTables f f.layout
  nodup : ∀ b ∈ f.layout, (f.block b).values.Nodup
  once : ∀ b ∈ f.layout, ∀ c ∈ f.layout, ∀ v ∈ (f.block b).values, v ∈ (f.block c).values → b = c

theorem Ssa.tabled (h : f.Ssa) : f.Tabled :=
  ⟨h.inTables, h.listing.nodup, fun _ hb _ hc _ hvb hvc => h.listing.unique hb hc hvb hvc⟩

theorem PhisOnly.tabled (h : PhisOnly f k) (hf : f.Tabled) : k.Tabled where
  inTables b hb := by
    rw [h.layout] at hb
    rw [h.numBlocks, h.numValues, h.values]
    exact hf.inTables b hb
  nodup b hb := by
    rw [h.values]
    exact hf.nodup b (h.layout ▸ hb)
  once b hb c hc v hvb hvc := by
    rw [h.values] at hvb hvc
    exact hf.once b (h.layout ▸ hb) c (h.layout ▸ hc) v hvb hvc

/-- The phis of the block have one argument per predecessor. -/
def PhisInStep (f : Func) (b : BlockId) : Prop :=
  ∀ v ∈ (f.block b).values, (f.value v).op = .phi →
    (f.value v).args.length = (f.block b).preds.length

/-- The blocks are the same or list different values. -/
def ListApart (f : Func) (c b : BlockId) : Prop :=
  ∀ v ∈ (f.block c).values, v ∈ (f.block b).values → c = b

theorem Tabled.listApart (h : f.Tabled) (hc : c ∈ f.layout) (hb : b ∈ f.layout) :
    f.ListApart c b :=
  fun v hvc hvb => h.once c hc b hb v hvc hvb

/-! ## One predecessor less -/

namespace PredDropped

variable {i : Nat}

theorem phisOnly (h : PredDropped f g b i) : PhisOnly f g where
  layout := h.layout
  ret := h.ret
  numValues := h.numValues
  numBlocks := h.numBlocks
  values c := by rw [h.block]; split <;> simp_all
  own c := by rw [h.block]; split <;> simp_all
  head := h.head
  others v hv := by rw [h.value, if_neg fun hphi => hv hphi.2]

/-- No block ends otherwise. -/
theorem ends (h : PredDropped f g s i) (c : BlockId) : (g.block c).kind = (f.block c).kind ∧
    (g.block c).control = (f.block c).control ∧ (g.block c).succs = (f.block c).succs := by
  rw [h.block]
  split
  · next heq => rw [heq]; exact ⟨rfl, rfl, rfl⟩
  · exact ⟨rfl, rfl, rfl⟩

theorem preds (h : PredDropped f g b i) (c : BlockId) : (g.block c).preds =
    if c = b then (f.block c).preds.eraseIdx i else (f.block c).preds := by
  rw [h.block]
  split
  · next heq => rw [heq]
  · rfl

theorem args (h : PredDropped f g b i) (hap : f.ListApart c b) (hv : v ∈ (f.block c).values)
    (hphi : (f.value v).op = .phi) : (g.value v).args =
      if c = b then (f.value v).args.eraseIdx i else (f.value v).args := by
  rw [h.value]
  by_cases hcb : c = b
  · subst hcb
    rw [if_pos ⟨hv, hphi⟩, if_pos rfl]
  · rw [if_neg fun hin => hcb (hap v hv hin.1), if_neg hcb]

theorem phisInStep (h : PredDropped f g b i) (hap : f.ListApart c b) (hstep : f.PhisInStep c) :
    g.PhisInStep c := by
  intro v hv hphi
  rw [h.phisOnly.values] at hv
  rw [h.op] at hphi
  have hlen := hstep v hv hphi
  rw [h.args hap hv hphi, h.preds]
  split
  · rw [List.length_eraseIdx, List.length_eraseIdx, hlen]
  · exact hlen

/-- What a phi has for its predecessors, one place less. -/
theorem zip_eq (h : PredDropped f g b i) (hap : f.ListApart c b) (hv : v ∈ (f.block c).values)
    (hphi : (f.value v).op = .phi) : (g.value v).args.zip (g.block c).preds =
      if c = b then ((f.value v).args.zip (f.block c).preds).eraseIdx i
      else (f.value v).args.zip (f.block c).preds := by
  rw [h.args hap hv hphi, h.preds]
  split
  · exact zip_eraseIdx _ _ _
  · rfl

/-- What a phi has for other predecessors stays. -/
theorem argsFrom_eq (h : PredDropped f g b i) (hap : f.ListApart c b) (hp : (f.block b).preds[i]? = some p)
    (hv : v ∈ (f.block c).values) (hphi : (f.value v).op = .phi) (hstep : f.PhisInStep c) :
    g.argsFrom (· != p) c v = f.argsFrom (· != p) c v := by
  rw [argsFrom, h.zip_eq hap hv hphi, argsFrom]
  split
  · next heq =>
    subst heq
    have hi : i < (f.value v).args.length := hstep v hv hphi ▸ (List.getElem?_eq_some_iff.mp hp).1
    refine filter_eraseIdx (a := ((f.value v).args[i], p)) ?_ (by simp)
    exact List.getElem?_zip_eq_some.mpr ⟨List.getElem?_eq_getElem hi, hp⟩
  · rfl

/-- The other predecessors stay. -/
theorem filter_preds (h : PredDropped f g s i) (hp : (f.block s).preds[i]? = some p) (c : BlockId) :
    (g.block c).preds.filter (· != p) = (f.block c).preds.filter (· != p) := by
  rw [h.preds]
  split
  · next heq =>
    subst heq
    exact filter_eraseIdx hp (by simp)
  · rfl

/-- One edge to `s` is taken from the list of edges there are. -/
theorem count {rest : List BlockId} (h : PredDropped f g s i) (hp : (f.block s).preds[i]? = some p)
    (hcount : (f.block c).preds.count p = (s :: rest).count c) :
    (g.block c).preds.count p = rest.count c := by
  rw [h.preds]
  by_cases hcs : c = s
  · subst hcs
    have herase := count_eraseIdx hp p
    rw [if_pos rfl] at herase ⊢
    rw [List.count_cons_self] at hcount
    omega
  · rw [if_neg hcs, hcount, List.count_cons_of_ne (Ne.symm hcs)]

end PredDropped

/-! ## Giving up the edges of one block -/

/-- `k` is `f` without edges from `p`, except that those to the blocks in `rest` are still there. -/
structure Thinning (f k : Func) (p : BlockId) (rest : List BlockId) : Prop where
  same : PhisOnly f k
  ends : ∀ c, (k.block c).kind = (f.block c).kind ∧ (k.block c).control = (f.block c).control ∧
    (k.block c).succs = (f.block c).succs
  inStep : k.InStep
  count : ∀ s ∈ f.layout, (k.block s).preds.count p = rest.count s
  preds : ∀ s ∈ f.layout, (k.block s).preds.filter (· != p) = (f.block s).preds.filter (· != p)
  phis : ∀ s ∈ f.layout, ∀ v ∈ (f.block s).values, (f.value v).op = .phi →
    k.argsFrom (· != p) s v = f.argsFrom (· != p) s v

theorem predIndex?_eq_some (h : p ∈ (f.block s).preds) :
    ∃ i, (f.block s).predIndex? p = some i ∧ (f.block s).preds[i]? = some p := by
  obtain ⟨i, hi⟩ : ∃ i, (f.block s).preds.findIdx? (· == p) = some i := by
    rw [← Option.isSome_iff_exists, List.findIdx?_isSome]
    exact List.any_eq_true.mpr ⟨p, h, by simp⟩
  obtain ⟨hlt, hp, _⟩ := List.findIdx?_eq_some_iff_getElem.mp hi
  exact ⟨i, hi, by rw [List.getElem?_eq_getElem hlt]; simpa using hp⟩

/-- Take away the first edge from `p` to `s`. -/
def cutEdge (p : BlockId) (f : Func) (s : BlockId) : Outcome Func :=
  match (f.block s).predIndex? p with
  | some i => f.removePred s i
  | none => .ok f

theorem cutEdge_absent (h : p ∉ (f.block s).preds) : cutEdge p f s = .ok f := by
  have hnone : (f.block s).predIndex? p = none :=
    List.findIdx?_eq_none_iff.mpr fun x hx => by simpa using fun heq : x = p => h (heq ▸ hx)
  rw [cutEdge, hnone]

/-- The block without its end. -/
def unended (blk : Block) : Block :=
  { blk with succs := [], control := .missing, kind := .pending }

theorem clearTerminator_eq : f.clearTerminator p =
    (f.block p).succs.foldlM (cutEdge p) f >>= fun f => .ok (f.modifyBlock p unended) := rfl

theorem phisOnly_unended (hp : p < f.numBlocks) : PhisOnly f (f.modifyBlock p unended) where
  layout := rfl
  ret := rfl
  numValues := rfl
  numBlocks := numBlocks_modifyBlock
  values c := by rw [block_modifyBlock hp]; split <;> simp_all [unended]
  own c := by rw [block_modifyBlock hp]; split <;> simp_all [unended]
  head v := ⟨(f.value v).args, rfl⟩
  others _ _ := rfl

theorem preds_unended (hp : p < f.numBlocks) (c : BlockId) :
    ((f.modifyBlock p unended).block c).preds = (f.block c).preds := by
  rw [block_modifyBlock hp]
  split
  · next heq => rw [heq]; rfl
  · rfl

theorem PhisInStep.unended (h : f.PhisInStep c) (hp : p < f.numBlocks) :
    (f.modifyBlock p unended).PhisInStep c := fun v hv hphi => by
  rw [preds_unended hp]
  exact h v ((phisOnly_unended hp).values c ▸ hv) hphi

/-- A phi whose block has predecessors of the class only has nothing for others. -/
theorem zip_eq_argsFrom {q : BlockId → Bool} (h : ∀ p ∈ (f.block s).preds, q p = true) :
    (f.value v).args.zip (f.block s).preds = f.argsFrom q s v :=
  (List.filter_eq_self.mpr fun x hx => h x.2 (List.of_mem_zip hx).2).symm

/-- Of edges that are all taken away none is left. -/
theorem all_of_count_nil (h : (f.block s).preds.count p = ([] : List BlockId).count s) :
    ∀ x ∈ (f.block s).preds, (x != p) = true := fun x hx => by
  rw [List.count_nil, List.count_eq_zero] at h
  simpa using fun heq : x = p => h (heq ▸ hx)

/-- The first edge from `p` to `s` can be taken away if there is one. -/
theorem Tabled.cutEdge (hf : f.Tabled) (hstep : f.InStep) (hs : s ∈ f.layout)
    (hp : p ∈ (f.block s).preds) :
    ∃ g i, f.cutEdge p s = .ok g ∧ (f.block s).preds[i]? = some p ∧ PredDropped f g s i := by
  obtain ⟨i, hi, hip⟩ := predIndex?_eq_some hp
  have hlt := (List.getElem?_eq_some_iff.mp hip).1
  obtain ⟨g, hg, hdrop⟩ := removePred_spec (hf.inTables s hs).1 (hf.nodup s hs) (hf.inTables s hs).2 hlt
    fun v hv hphi => lt_of_lt_of_eq hlt (hstep s hs v hv hphi).symm
  exact ⟨g, i, by rw [Func.cutEdge, hi]; exact hg, hip, hdrop⟩

theorem Thinning.step {rest : List BlockId} (h : Thinning f k p (s :: rest)) (hf : f.Tabled)
    (hs : s ∈ f.layout) : ∃ m, cutEdge p k s = .ok m ∧ Thinning f m p rest := by
  have hk := h.same.tabled hf
  have hsk : s ∈ k.layout := h.same.layout ▸ hs
  have hin : p ∈ (k.block s).preds := by
    rw [← List.count_pos_iff, h.count s hs]
    simp
  obtain ⟨m, i, hm, hp, hdrop⟩ := hk.cutEdge h.inStep hsk hin
  have apart : ∀ c ∈ k.layout, k.ListApart c s := fun c hc => hk.listApart hc hsk
  exact ⟨m, hm, {
    same := h.same.trans hdrop.phisOnly
    ends c := by
      obtain ⟨hkind, hcontrol, hsuccs⟩ := hdrop.ends c
      rw [hkind, hcontrol, hsuccs]
      exact h.ends c
    inStep c hc := by
      rw [hdrop.layout] at hc
      exact hdrop.phisInStep (apart c hc) (h.inStep c hc)
    count c hc := hdrop.count hp (h.count c hc)
    preds c hc := (hdrop.filter_preds hp c).trans (h.preds c hc)
    phis c hc v hv hphi := by
      have hck : c ∈ k.layout := h.same.layout ▸ hc
      rw [← h.phis c hc v hv hphi]
      exact hdrop.argsFrom_eq (apart c hck) hp (h.same.values c ▸ hv) (h.same.op.trans hphi)
        (h.inStep c hck) }⟩

theorem Thinning.run {rest : List BlockId} (h : Thinning f k p rest) (hf : f.Tabled)
    (hrest : ∀ s ∈ rest, s ∈ f.layout) :
    ∃ m, rest.foldlM (cutEdge p) k = .ok m ∧ Thinning f m p [] := by
  induction rest generalizing k with
  | nil => exact ⟨k, rfl, h⟩
  | cons s rest ih =>
    obtain ⟨m, hm, hthin⟩ := h.step hf (hrest s List.mem_cons_self)
    obtain ⟨m', hm', hdone⟩ := ih hthin fun t ht => hrest t (List.mem_cons_of_mem _ ht)
    exact ⟨m', by rw [List.foldlM_cons, hm]; exact hm', hdone⟩

/-- `k` is `f` without the edges from blocks that are not kept. -/
structure Thinned (f k : Func) (keep : BlockId → Bool) : Prop where
  same : PhisOnly f k
  ends : ∀ c, keep c = true → (k.block c).kind = (f.block c).kind ∧
    (k.block c).control = (f.block c).control ∧ (k.block c).succs = (f.block c).succs
  inStep : k.InStep
  preds : ∀ s ∈ f.layout, (k.block s).preds = (f.block s).preds.filter keep
  phis : ∀ s ∈ f.layout, ∀ v ∈ (f.block s).values, (f.value v).op = .phi →
    (k.value v).args.zip (k.block s).preds = f.argsFrom keep s v

theorem clearTerminator_spec {keep : BlockId → Bool} (h : Thinned f k keep) (hf : f.Tabled)
    (hflow : f.Flow) (hp : p ∈ f.layout) (hkeep : keep p = true) :
    ∃ m, k.clearTerminator p = .ok m ∧ Thinned f m fun c => keep c && c != p := by
  have hk := h.same.tabled hf
  have hlay := h.same.layout
  have hsuccs : (k.block p).succs = (f.block p).succs := (h.ends p hkeep).2.2
  have hstart : Thinning k k p (k.block p).succs := by
    refine ⟨.refl k, fun _ => ⟨rfl, rfl, rfl⟩, h.inStep, fun s hs => ?_, fun _ _ => rfl,
      fun _ _ _ _ _ => rfl⟩
    rw [hlay] at hs
    rw [h.preds s hs, List.count_filter hkeep, hsuccs]
    exact (hflow.edges p hp s hs).symm
  obtain ⟨m, hm, hthin⟩ := hstart.run hk fun s hs => by
    rw [hlay]
    exact hflow.succs_mem p hp s (hsuccs ▸ hs)
  have hpm : p < m.numBlocks := by
    rw [hthin.same.numBlocks]
    exact (hk.inTables p (hlay ▸ hp)).1
  have hlayk : ∀ s ∈ f.layout, s ∈ k.layout := fun s hs => hlay ▸ hs
  have hgone : ∀ s ∈ f.layout, ∀ x ∈ (m.block s).preds, (x != p) = true := fun s hs =>
    all_of_count_nil (hthin.count s (hlayk s hs))
  have hfilter : ∀ {α : Type} (l : List α) (q : α → BlockId),
      (l.filter fun x => keep (q x)).filter (fun x => q x != p) =
        l.filter fun x => keep (q x) && q x != p := fun l q => by
    rw [List.filter_filter]
    exact List.filter_congr fun _ _ => Bool.and_comm _ _
  refine ⟨m.modifyBlock p unended, by rw [clearTerminator_eq, hm]; rfl, {
    same := (h.same.trans hthin.same).trans (phisOnly_unended hpm)
    ends c hc := ?ends
    inStep s hs := PhisInStep.unended (hthin.inStep s hs) hpm
    preds s hs := ?preds
    phis s hs v hv hphi := ?phis }⟩
  case ends =>
    simp only [Bool.and_eq_true, bne_iff_ne] at hc
    obtain ⟨hkind, hcontrol, hsuccs⟩ := hthin.ends c
    rw [block_modifyBlock_ne hc.2, hkind, hcontrol, hsuccs]
    exact h.ends c hc.1
  case preds =>
    rw [preds_unended hpm, ← List.filter_eq_self.mpr (hgone s hs), hthin.preds s (hlayk s hs),
      h.preds s hs]
    exact hfilter _ id
  case phis =>
    have hnew := hthin.phis s (hlayk s hs) v (h.same.values s ▸ hv) (h.same.op.trans hphi)
    rw [preds_unended hpm, value_modifyBlock, zip_eq_argsFrom (hgone s hs), hnew, argsFrom,
      h.phis s hs v hv hphi, argsFrom]
    exact hfilter _ Prod.snd

theorem clear_foldlM (hf : f.Ssa) (l : List BlockId) : ∀ (k : Func) (keep : BlockId → Bool),
    Thinned f k keep → l.Nodup → (∀ p ∈ l, p ∈ f.layout ∧ keep p = true) →
    ∃ m, l.foldlM (fun f b => f.clearTerminator b) k = .ok m ∧
      Thinned f m fun c => keep c && !l.contains c := by
  induction l with
  | nil => exact fun k keep h _ _ => ⟨k, rfl, by simpa using h⟩
  | cons p l ih =>
    intro k keep h hnd hl
    obtain ⟨hp, hnd⟩ := List.nodup_cons.mp hnd
    obtain ⟨hlay, hkeep⟩ := hl p List.mem_cons_self
    obtain ⟨m, hm, hthin⟩ := clearTerminator_spec h hf.tabled hf.flow hlay hkeep
    obtain ⟨m', hm', hdone⟩ := ih m _ hthin hnd fun q hq => by
      obtain ⟨hq', hkq⟩ := hl q (List.mem_cons_of_mem _ hq)
      have hne : q ≠ p := fun heq => hp (heq ▸ hq)
      exact ⟨hq', by simp [hkq, hne]⟩
    refine ⟨m', by rw [List.foldlM_cons, hm]; exact hm', ?_⟩
    have hsame : (fun c => (keep c && c != p) && !l.contains c) =
        fun c => keep c && !(p :: l).contains c := by
      funext c
      by_cases hcp : c = p
      · simp [hcp]
      · simp [hcp, bne_iff_ne.mpr hcp]
    rwa [hsame] at hdone

/-! ## Taking blocks out -/

/-- Take a block and its values out. -/
def dropBlock (f : Func) (b : BlockId) : Func :=
  ((f.block b).values.foldl (fun f v =>
    f.modifyValue v fun val => { val with block := none }) f).removeBlock b

theorem removeUnreachable_eq : f.removeUnreachable = f.reversePostOrder >>= fun live =>
    (f.layout.filter fun b => !live.contains b).foldlM (fun f b => f.clearTerminator b) f >>=
      fun k => .ok ((f.layout.filter fun b => !live.contains b).foldl dropBlock k,
        !(f.layout.filter fun b => !live.contains b).isEmpty) := rfl

theorem dropBlock_foldl {l : List BlockId} (h : InTables f l) (hnd : f.layout.Nodup) :
    (l.foldl dropBlock f).layout = f.layout.filter (fun b => !l.contains b) ∧
    (l.foldl dropBlock f).ret = f.ret ∧ (l.foldl dropBlock f).numValues = f.numValues ∧
    (l.foldl dropBlock f).numBlocks = f.numBlocks ∧
    (∀ c, (l.foldl dropBlock f).block c = f.block c) ∧
    (∀ v, (l.foldl dropBlock f).value v = if ∃ b ∈ l, v ∈ (f.block b).values
      then { f.value v with block := none } else f.value v) := by
  induction l generalizing f with
  | nil => simp
  | cons b l ih =>
    obtain ⟨_, hv⟩ := h b List.mem_cons_self
    have hblock : ∀ c, (f.dropBlock b).block c = f.block c := fun c => by
      change (((f.block b).values.foldl _ f).block c) = _
      exact block_foldl_modifyValue
    have hval : ∀ w, (f.dropBlock b).value w = if w ∈ (f.block b).values
        then { f.value w with block := none } else f.value w := fun w => by
      change (((f.block b).values.foldl _ f).value w) = _
      exact value_foldl_modifyValue (fun _ => rfl) hv
    have hlay : (f.dropBlock b).layout = f.layout.erase b := by
      simp [dropBlock, removeBlock]
    have hret : (f.dropBlock b).ret = f.ret := by
      change ((f.block b).values.foldl _ f).ret = _
      exact ret_foldl_modifyValue
    have hnv : (f.dropBlock b).numValues = f.numValues := by
      change ((f.block b).values.foldl _ f).numValues = _
      exact numValues_foldl_modifyValue
    have hnb : (f.dropBlock b).numBlocks = f.numBlocks := by
      change ((f.block b).values.foldl _ f).numBlocks = _
      exact numBlocks_foldl_modifyValue
    obtain ⟨h₁, h₂, h₃, h₄, h₅, h₆⟩ := ih (f := f.dropBlock b)
      (fun c hc => by
        rw [hnv, hnb, hblock]
        exact h c (List.mem_cons_of_mem _ hc))
      (by rw [hlay]; exact hnd.erase b)
    rw [List.foldl_cons]
    refine ⟨?_, h₂.trans hret, h₃.trans hnv, h₄.trans hnb, fun c => (h₅ c).trans (hblock c),
      fun v => ?_⟩
    · rw [h₁, hlay, hnd.erase_eq_filter, List.filter_filter]
      refine List.filter_congr fun c _ => ?_
      by_cases hcb : c = b <;> simp [hcb]
    · rw [h₆, hval]
      simp only [hblock, List.mem_cons, exists_eq_or_imp]
      by_cases hvb : v ∈ (f.block b).values
      · simp [hvb]
      · simp [hvb]

/-- `g` is `f` without the blocks that are not live. -/
structure Trimmed (f g : Func) (live : BlockId → Bool) : Prop where
  layout : g.layout = f.layout.filter live
  ret : g.ret = f.ret
  numBlocks : g.numBlocks = f.numBlocks
  values : ∀ b, (g.block b).values = (f.block b).values
  own : ∀ b, (g.block b).isForeign = (f.block b).isForeign
  ends : ∀ b ∈ f.layout, live b = true → (g.block b).kind = (f.block b).kind ∧
    (g.block b).control = (f.block b).control ∧ (g.block b).succs = (f.block b).succs
  preds : ∀ b ∈ f.layout, (g.block b).preds = (f.block b).preds.filter live
  head : ∀ v, ∃ a d, g.value v = { f.value v with args := a, block := d }
  block : ∀ v, (g.value v).block = (f.value v).block.filter live
  others : ∀ v, (f.value v).op ≠ .phi → (g.value v).args = (f.value v).args
  inStep : ∀ b ∈ f.layout, ∀ v ∈ (f.block b).values, (f.value v).op = .phi →
    (g.value v).args.length = (g.block b).preds.length
  phis : ∀ b ∈ f.layout, ∀ v ∈ (f.block b).values, (f.value v).op = .phi →
    (g.value v).args.zip (g.block b).preds = f.argsFrom live b v

/-- The dead blocks are cut off from the others first; what is left when they go is the trimmed
function. -/
theorem Thinned.trimmed {keep live : BlockId → Bool} {dead : List BlockId} (h : Thinned f k keep)
    (hf : f.Ssa) (hdead : ∀ b, b ∈ dead ↔ b ∈ f.layout ∧ live b = false)
    (hkeep : ∀ b ∈ f.layout, keep b = live b) : Trimmed f (dead.foldl dropBlock k) live := by
  have hin : InTables k dead := fun b hb =>
    (h.same.tabled hf.tabled).inTables b (h.same.layout ▸ ((hdead b).mp hb).1)
  obtain ⟨hlayout, hret, -, hblocks, hblock, hvalue⟩ :=
    dropBlock_foldl hin (h.same.layout ▸ hf.flow.layout_nodup)
  have hargs : ∀ v, ((dead.foldl dropBlock k).value v).args = (k.value v).args := fun v => by
    rw [hvalue]
    split <;> rfl
  -- a value goes just if the block that lists it does
  have hgone : ∀ v d, (f.value v).block = some d →
      ((∃ b ∈ dead, v ∈ (k.block b).values) ↔ live d = false) := by
    intro v d hd
    obtain ⟨hd, hvd⟩ := (hf.listing.listed v d).mp hd
    constructor
    · rintro ⟨b, hb, hv⟩
      obtain ⟨hb, hl⟩ := (hdead b).mp hb
      rw [h.same.values] at hv
      rwa [hf.listing.unique hd hb hvd hv]
    · exact fun hl => ⟨d, (hdead d).mpr ⟨hd, hl⟩, by rwa [h.same.values]⟩
  refine ⟨?_, hret.trans h.same.ret, hblocks.trans h.same.numBlocks, fun b => ?_, fun b => ?_,
    fun b hb hl => ?_, fun b hb => ?_, fun v => ?_, fun v => ?_, fun v hv => ?_,
    fun b hb v hv hp => ?_, fun b hb v hv hp => ?_⟩
  · rw [hlayout, h.same.layout]
    refine List.filter_congr fun b hb => ?_
    cases hl : live b <;> simp [hdead, hb, hl]
  · rw [hblock, h.same.values]
  · rw [hblock, h.same.own]
  · rw [hblock]
    exact h.ends b ((hkeep b hb).trans hl)
  · rw [hblock, h.preds b hb]
    exact List.filter_congr fun p hp => hkeep p (hf.flow.preds_mem b hb p hp)
  · obtain ⟨a, ha⟩ := h.same.head v
    rw [hvalue, ha]
    split
    · exact ⟨a, none, rfl⟩
    · exact ⟨a, (f.value v).block, rfl⟩
  · obtain ⟨a, ha⟩ := h.same.head v
    rw [hvalue, ha]
    cases hd : (f.value v).block with
    | none => split <;> simp [hd]
    | some d => cases hl : live d <;> simp [hgone v d hd, hd, hl, Option.filter]
  · rw [hargs, h.same.others v hv]
  · rw [hargs, hblock]
    exact h.inStep b (h.same.layout ▸ hb) v (h.same.values b ▸ hv) (h.same.op.trans hp)
  · rw [hargs, hblock, h.phis b hb v hv hp]
    refine List.filter_congr fun x hx => hkeep x.2 ?_
    exact hf.flow.preds_mem b hb x.2 (List.of_mem_zip hx).2

theorem removeUnreachable_spec (h : f.Ssa) : ∃ g ch live, f.removeUnreachable = .ok (g, ch) ∧
    (∀ b, live b = true ↔ f.Reached b) ∧ Trimmed f g live := by
  obtain ⟨rpo, hrpo, hpost⟩ : ∃ l, f.reversePostOrder = .ok l ∧ Postordered f f.start l := by
    refine ⟨_, ?_, reversePostOrderFrom_spec h.flow.wired.linkage.lt⟩
    simp [Func.reversePostOrder, h.flow.entry_eq]
  obtain ⟨dead, hdeq⟩ : ∃ dead, dead = f.layout.filter fun b => !rpo.contains b := ⟨_, rfl⟩
  have hdead : ∀ b, b ∈ dead ↔ b ∈ f.layout ∧ rpo.contains b = false := by
    simp [hdeq, List.mem_filter]
  obtain ⟨k, hk, hthin⟩ := clear_foldlM h dead f (fun _ => true)
    ⟨.refl f, fun _ _ => ⟨rfl, rfl, rfl⟩, fun s hs v hv hp => (h.phis s hs v hv hp).1,
      fun _ _ => by simp, fun _ _ _ _ _ => by simp [argsFrom]⟩
    (hdeq ▸ h.flow.layout_nodup.filter _) fun p hp => ⟨((hdead p).mp hp).1, rfl⟩
  have hkeep : ∀ b ∈ f.layout, (true && !dead.contains b) = rpo.contains b := by
    intro b hb
    by_cases hr : b ∈ rpo <;> simp [hr, hb, hdead]
  refine ⟨dead.foldl dropBlock k, !dead.isEmpty, fun b => rpo.contains b, ?_, fun b => ?_,
    hthin.trimmed h hdead hkeep⟩
  · rw [removeUnreachable_eq, hrpo, Outcome.ok_bind, ← hdeq, hk]
    rfl
  · simp only [List.contains_eq_mem, decide_eq_true_eq]
    exact hpost.mem_iff b

namespace Trimmed

variable {live : BlockId → Bool}

theorem op (h : Trimmed f g live) : (g.value v).op = (f.value v).op := by
  obtain ⟨a, d, ha⟩ := h.head v
  rw [ha]

theorem operandType (h : Trimmed f g live) : g.operandType o = f.operandType o := by
  cases o with
  | value v =>
    obtain ⟨a, d, ha⟩ := h.head v
    change (g.value v).type = (f.value v).type
    rw [ha]
  | missing => rfl
  | foreign k => rfl

theorem mem_layout (h : Trimmed f g live) : b ∈ g.layout ↔ b ∈ f.layout ∧ live b = true := by
  rw [h.layout, List.mem_filter]

theorem start (h : Trimmed f g live) (hlive : ∀ b, live b = true ↔ f.Reached b) :
    g.start = f.start := by
  have hs : live f.start = true := (hlive _).mpr (.refl _ _)
  unfold Func.start at hs ⊢
  rw [h.layout]
  cases hl : f.layout with
  | nil => rfl
  | cons b l =>
    have hb : live b = true := by rw [hl] at hs; exact hs
    rw [List.filter_cons_of_pos hb]
    rfl

section

variable (h : Trimmed f g live) (hf : f.Flow) (hlive : ∀ b, live b = true ↔ f.Reached b)

include h hf hlive

theorem next_eq (x : BlockId) (hx : f.Reached x) : g.next x = f.next x :=
  (h.ends x (hf.reached_mem hx) ((hlive x).mpr hx)).2.2

theorem reached : g.Reached b ↔ f.Reached b := by
  rw [Reached, h.start hlive]
  exact Reach.congr fun x hx => h.next_eq hf hlive x hx

theorem dominates : g.Dominates d b ↔ f.Dominates d b := by
  rw [Dominates, h.start hlive]
  exact Dom.congr fun x hx => h.next_eq hf hlive x hx

theorem narrows : Narrows f g := ⟨(h.reached hf hlive).mp, (h.dominates hf hlive).mpr⟩

theorem all_reached (hb : b ∈ g.layout) : g.Reached b :=
  (h.reached hf hlive).mpr ((hlive b).mp (h.mem_layout.mp hb).2)

theorem flow : g.Flow := by
  have hs := h.start hlive
  refine ⟨fun hnil => ?_, ?_, fun b hb => ?_, fun b hb => ?_, fun b hb s hs => ?_,
    fun b hb p hp => ?_, fun b hb c hc => ?_, ?_⟩
  · have : f.start ∈ g.layout := h.mem_layout.mpr ⟨hf.start_mem, (hlive _).mpr (.refl _ _)⟩
    simp [hnil] at this
  · rw [h.layout]
    exact hf.layout_nodup.filter _
  · rw [h.numBlocks]
    exact hf.lt b (h.mem_layout.mp hb).1
  · rw [h.own]
    exact hf.own b (h.mem_layout.mp hb).1
  · obtain ⟨hb, hl⟩ := h.mem_layout.mp hb
    rw [(h.ends b hb hl).2.2] at hs
    refine h.mem_layout.mpr ⟨hf.succs_mem b hb s hs, (hlive s).mpr ?_⟩
    exact ((hlive b).mp hl).step hs
  · obtain ⟨hb, _⟩ := h.mem_layout.mp hb
    rw [h.preds b hb] at hp
    obtain ⟨hp, hl⟩ := List.mem_filter.mp hp
    exact h.mem_layout.mpr ⟨hf.preds_mem b hb p hp, hl⟩
  · obtain ⟨hb, hl⟩ := h.mem_layout.mp hb
    obtain ⟨hc, _⟩ := h.mem_layout.mp hc
    rw [(h.ends b hb hl).2.2, h.preds c hc, List.count_filter hl]
    exact hf.edges b hb c hc
  · rw [hs, h.preds _ hf.start_mem, hf.entry_preds]
    rfl

end

section

variable (h : Trimmed f g live) (hlive : ∀ b, live b = true ↔ f.Reached b)

include h hlive

theorem mem_reached (hb : b ∈ g.layout) : b ∈ f.layout ∧ f.Reached b := by
  obtain ⟨hb, hl⟩ := h.mem_layout.mp hb
  exact ⟨hb, (hlive b).mp hl⟩

theorem defined (hd : (f.value v).block = some d) (hr : f.Reached d) :
    (g.value v).block = some d := by
  rw [h.block, hd]
  simp [(hlive d).mpr hr, Option.filter]

variable (hf : f.Ssa)

include hf

theorem atEnd (hr : f.Reached b) (ho : f.AtEnd o b) : g.AtEnd o b := by
  obtain ⟨v, ho, hv⟩ := ho
  refine ⟨v, ho, ?_⟩
  rcases hv with hv | ⟨d, hd, hdom⟩
  · exact .inl (h.op.trans hv)
  · exact .inr ⟨d, h.defined hlive hd ((hdom hr).reach hr),
      fun _ => (h.narrows hf.flow hlive).dominates (hdom hr)⟩

theorem before (hr : f.Reached b) (ho : f.Before o u b) : g.Before o u b := by
  obtain ⟨w, hw, hor⟩ := ho
  refine ⟨w, hw, hor.imp (fun hst => h.op.trans hst) fun ⟨_, hearly⟩ => ?_⟩
  obtain ⟨e, he, hor⟩ := hearly hr
  have hre : f.Reached e := by
    rcases hor with ⟨rfl, _⟩ | ⟨_, hdom⟩
    · exact hr
    · exact hdom.reach hr
  have hge := h.defined hlive he hre
  refine ⟨by rw [hge]; rfl, fun _ => ⟨e, hge, hor.imp (fun ⟨heq, hs⟩ => ⟨heq, ?_⟩)
    fun ⟨hne, hdom⟩ => ⟨hne, (h.narrows hf.flow hlive).dominates hdom⟩⟩⟩
  rwa [h.values]

theorem endsWell (hb : b ∈ g.layout) : g.EndsWell b := by
  obtain ⟨hb, hr⟩ := h.mem_reached hlive hb
  obtain ⟨hkind, hctl, hsucc⟩ := h.ends b hb ((hlive b).mpr hr)
  refine (hf.ends b hb).transfer hkind (by rw [hsucc]) h.ret (by rw [hctl]) fun ho => ?_
  rw [hctl]
  exact ⟨h.atEnd hlive hf hr ho, h.operandType⟩

theorem phiWell (hb : b ∈ g.layout) (hv : v ∈ (g.block b).values) (hp : (g.value v).op = .phi) :
    g.PhiWell b v := by
  obtain ⟨hb, -⟩ := h.mem_reached hlive hb
  rw [h.values] at hv
  rw [h.op] at hp
  obtain ⟨_, hall⟩ := hf.phis b hb v hv hp
  refine ⟨h.inStep b hb v hv hp, fun x hx => ?_⟩
  rw [h.phis b hb v hv hp] at hx
  obtain ⟨hx, hl⟩ := List.mem_filter.mp hx
  obtain ⟨a, d, ha⟩ := h.head v
  rw [ha]
  exact ⟨h.operandType.trans (hall x hx).1, h.atEnd hlive hf ((hlive _).mp hl) (hall x hx).2⟩

theorem valueWell (hb : b ∈ g.layout) (hv : v ∈ (g.block b).values) (hp : (g.value v).op ≠ .phi) :
    g.ValueWell b v := by
  obtain ⟨hb, hr⟩ := h.mem_reached hlive hb
  rw [h.values] at hv
  rw [h.op] at hp
  obtain ⟨hbefore, htyped⟩ := hf.values b hb v hv hp
  have hargs := h.others v hp
  obtain ⟨a, d, ha⟩ := h.head v
  obtain rfl : a = (f.value v).args := by rw [ha] at hargs; exact hargs
  have hts : g.argTypes { f.value v with args := (f.value v).args, block := d } =
      f.argTypes (f.value v) := List.map_congr_left fun o _ => h.operandType
  unfold ValueWell
  rw [ha, h.start hlive, hts]
  exact ⟨fun hparam o ho => h.before hlive hf hr (hbefore hparam o ho), htyped⟩

end

theorem ssa (h : Trimmed f g live) (hf : f.Ssa) (hlive : ∀ b, live b = true ↔ f.Reached b) :
    g.Ssa where
  flow := h.flow hf.flow hlive
  listing := by
    refine ⟨fun v b => ?_, fun b hb => ?_⟩
    · rw [h.block, h.mem_layout, h.values, Option.filter_eq_some_iff, hf.listing.listed v b]
      exact ⟨fun ⟨⟨hb, hv⟩, hl⟩ => ⟨⟨hb, hl⟩, hv⟩, fun ⟨⟨hb, hl⟩, hv⟩ => ⟨⟨hb, hv⟩, hl⟩⟩
    · rw [h.values]
      exact hf.listing.nodup b (h.mem_reached hlive hb).1
  entry_phis := fun v hv => by
    rw [h.start hlive, h.values] at hv
    rw [h.op]
    exact hf.entry_phis v hv
  ends := fun _ hb => h.endsWell hlive hf hb
  phisFirst := fun b hb y p hs hp => by
    rw [h.op] at hp ⊢
    rw [h.values] at hs
    exact hf.phisFirst b (h.mem_reached hlive hb).1 y p hs hp
  phis := fun _ hb _ hv hp => h.phiWell hlive hf hb hv hp
  values := fun _ hb _ hv hp => h.valueWell hlive hf hb hv hp

/-- A value keeps all but the arguments of a phi and its place. -/
theorem each {P : Value → Prop} (h : Trimmed f g live)
    (hP : ∀ y a d, P y → (y.op ≠ .phi → a = y.args) → P { y with args := a, block := d })
    (hf : f.Each P) : g.Each P := by
  intro b hb v hv
  obtain ⟨hb, _⟩ := h.mem_layout.mp hb
  rw [h.values] at hv
  have hargs := h.others v
  obtain ⟨a, d, ha⟩ := h.head v
  rw [ha] at hargs ⊢
  exact hP _ a d (hf b hb v hv) hargs

/-- No operand comes new. -/
theorem mem_args (h : Trimmed f g live) (hb : b ∈ g.layout) (hv : v ∈ (g.block b).values)
    (ho : o ∈ (g.value v).args) :
    b ∈ f.layout ∧ v ∈ (f.block b).values ∧ o ∈ (f.value v).args := by
  obtain ⟨hb, _⟩ := h.mem_layout.mp hb
  rw [h.values] at hv
  refine ⟨hb, hv, ?_⟩
  by_cases hp : (f.value v).op = .phi
  · obtain ⟨i, hi⟩ := List.getElem?_of_mem ho
    have hlt := (List.getElem?_eq_some_iff.mp hi).1
    rw [h.inStep b hb v hv hp] at hlt
    have hz : (o, (g.block b).preds[i]) ∈ (g.value v).args.zip (g.block b).preds := by
      refine List.mem_of_getElem? (i := i) ?_
      rw [List.getElem?_zip_eq_some]
      exact ⟨hi, List.getElem?_eq_getElem hlt⟩
    rw [h.phis b hb v hv hp] at hz
    exact (List.of_mem_zip (List.mem_filter.mp hz).1).1
  · rwa [h.others v hp] at ho

theorem storesUnused (h : Trimmed f g live) (hf : f.StoresUnused) : g.StoresUnused := by
  have hop : ∀ {o}, f.NoStore o → g.NoStore o := fun ho v hv => h.op ▸ ho v hv
  refine storesUnused_of (fun b hb v hv o ho => ?_) fun b hb => ?_
  · obtain ⟨hb, hv, ho⟩ := h.mem_args hb hv ho
    exact hop (hf.arg hb hv ho)
  · obtain ⟨hb, hl⟩ := h.mem_layout.mp hb
    rw [(h.ends b hb hl).2.1]
    exact hop (hf.control hb)

theorem tidy {strict : Prop} (h : Trimmed f g live) (hf : f.Tidy strict) : g.Tidy strict := by
  refine tidy_of (h.each (fun y a d hy ha => ?_) hf.each) (h.storesUnused hf.stores)
    fun hs b hb hbr hret => ?_
  · refine ⟨hy.consts, hy.type, fun hs hp => ?_⟩
    exact (ha (by simp [show y.op = .param from hp])).trans (hy.params hs hp)
  · obtain ⟨hb, hl⟩ := h.mem_layout.mp hb
    obtain ⟨hkind, hctl, _⟩ := h.ends b hb hl
    rw [hkind] at hbr hret
    rw [hctl]
    exact hf.ends hs b hb hbr hret

end Trimmed

end SsaJit.Func
