import Mathlib.Logic.Function.Basic
import SsaJit.Proofs.Pass.Slots

/-! The walk down the dominator tree that puts current values for the reads of a slot. Its outcome is
said in closed form: a renaming of the values, which sends each read of the slot to the value current
there, and for each block the values current at its start and at its end. -/

namespace SsaJit.Func

variable {f k : Func} {b d p s : BlockId} {slot u v w x : ValueId} {o : Operand} {t : Ty}
variable {phis : PlacedPhis} {σ σ' : ValueId → ValueId} {args args' : BlockId → BlockId → Operand}

/-! ## Renamed functions -/

/-- `k` is `f` with its values renamed and the phis placed, with `args s q` for the arguments that
they get in `s` from `q`. -/
structure Renaming (f k : Func) (t : Ty) (phis : PlacedPhis) (σ : ValueId → ValueId)
    (args : BlockId → BlockId → Operand) : Prop where
  graph : SameGraph f k
  ret : k.ret = f.ret
  kind : ∀ b, (k.block b).kind = (f.block b).kind
  control : ∀ b ∈ f.layout, (k.block b).control = rename σ (f.block b).control
  values : ∀ b, (k.block b).values = (phis.lookup b).toList ++ (f.block b).values
  numValues : f.numValues ≤ k.numValues
  head : ∀ v < f.numValues, ∃ a, k.value v = { f.value v with args := a }
  old : ∀ b ∈ f.layout, ∀ v ∈ (f.block b).values,
    k.value v = { f.value v with args := (f.value v).args.map (rename σ) }
  new : ∀ b x, phis.lookup b = some x → f.numValues ≤ x ∧ x < k.numValues ∧
    k.value x = { op := .phi, type := t, args := (f.block b).preds.map (args b), block := some b }
  only : ∀ v < k.numValues, v < f.numValues ∨ ∃ b, phis.lookup b = some v
  mem : ∀ b x, phis.lookup b = some x → b ∈ f.layout ∧ b ≠ f.start

theorem Placed.renaming {g : Func} (h : Placed f g t phis) (hf : f.Listing) :
    Renaming f g t phis id fun _ _ => .missing where
  graph := h.graph
  ret := h.ret
  kind b := (h.ends b).1
  control b _ := by rw [(h.ends b).2, rename_id]
  values := h.values
  numValues := h.numValues
  head v hv := ⟨_, by rw [h.old v hv]⟩
  old b hb v hv := by
    rw [h.old v (hf.lt hb hv), show rename id = id from funext rename_id, List.map_id]
  new b x hx := by
    obtain ⟨hge, hlt, hval⟩ := h.new b x hx
    refine ⟨hge, hlt, hval.trans ?_⟩
    simp [openPhi, List.map_const']
  only := h.only
  mem := h.mem

namespace Renaming

theorem inTables (h : Renaming f k t phis σ args) (hf : f.Ssa) : InTables k k.layout := by
  intro b hb
  rw [h.graph.layout] at hb
  refine ⟨by rw [h.graph.numBlocks]; exact hf.flow.lt b hb, fun v hv => ?_⟩
  rw [h.values, List.mem_append] at hv
  rcases hv with hv | hv
  · exact (h.new b v (by simpa using hv)).2.1
  · exact Nat.lt_of_lt_of_le (hf.listing.lt hb hv) h.numValues

theorem congr (h : Renaming f k t phis σ args)
    (hargs : ∀ b x, phis.lookup b = some x → ∀ q ∈ (f.block b).preds, args' b q = args b q) :
    Renaming f k t phis σ args' :=
  { h with
    new := fun b x hx => by
      obtain ⟨hge, hlt, hval⟩ := h.new b x hx
      exact ⟨hge, hlt, by rw [hval, List.map_congr_left (hargs b x hx)]⟩ }

/-- The placed phis are none of the old values. -/
theorem ne_phi (h : Renaming f k t phis σ args) (hv : v < f.numValues) : phis.lookup b ≠ some v :=
  fun hx => Nat.not_lt_of_le (h.new b v hx).1 hv

/-- Putting `c` for a value that nothing is renamed to but itself renames it to `c`. -/
theorem replaceUses (h : Renaming f k t phis σ args) (hf : f.Ssa)
    (hσ : ∀ x, σ x = v ↔ x = v) (hargs : ∀ s q, args s q ≠ .value v) (c : ValueId) :
    Renaming f (k.replaceUses (.value v) (.value c)) t phis (Function.update σ v c) args := by
  have ht := h.inTables hf
  have hswap : ∀ o, swap (.value v) (.value c) (rename σ o) = rename (Function.update σ v c) o := by
    intro o
    cases o with
    | missing => rfl
    | foreign k => rfl
    | value x =>
      by_cases hx : x = v
      · subst hx
        simp [swap, rename, (hσ x).mpr rfl]
      · have : σ x ≠ v := fun heq => hx ((hσ x).mp heq)
        simp [swap, rename, hx, this]
  refine ⟨h.graph.trans (sameGraph_replaceUses ht), (ret_replaceUses ht).trans h.ret,
    fun b => (kind_replaceUses ht).trans (h.kind b), fun b hb => ?_,
    fun b => (values_replaceUses ht).trans (h.values b),
    by rw [numValues_replaceUses ht]; exact h.numValues, fun x hx => ?_, fun b hb x hx => ?_,
    fun b x hx => ?_, by rw [numValues_replaceUses ht]; exact h.only, h.mem⟩
  · have hbk : b ∈ k.layout := h.graph.layout ▸ hb
    rw [block_replaceUses ht, if_pos hbk]
    simp only [h.control b hb, hswap]
  · obtain ⟨a, ha⟩ := h.head x hx
    obtain ⟨a', ha'⟩ := replaceUses_head (.value v) (.value c) ht x
    exact ⟨a', by rw [ha', ha]⟩
  · have hbk : b ∈ k.layout := h.graph.layout ▸ hb
    rw [value_replaceUses_of_mem ht hbk (by rw [h.values]; exact List.mem_append_right _ hx),
      h.old b hb x hx]
    simp only [List.map_map]
    congr 1
    exact List.map_congr_left fun o _ => hswap o
  · obtain ⟨hge, hlt, hval⟩ := h.new b x hx
    have hbk : b ∈ k.layout := h.graph.layout ▸ (h.mem b x hx).1
    rw [numValues_replaceUses ht, value_replaceUses_of_mem ht hbk (by rw [h.values, hx]; simp), hval]
    refine ⟨hge, hlt, ?_⟩
    simp only [List.map_map]
    congr 1
    refine List.map_congr_left fun q _ => ?_
    rw [Function.comp, swap, if_neg (hargs b q)]

theorem mem_predPlaces {i : Nat} : i ∈ k.predPlaces s b ↔ (k.block s).preds[i]? = some b := by
  simp only [predPlaces, List.mem_map, List.mem_filter, beq_iff_eq, Prod.exists]
  constructor
  · rintro ⟨q, j, ⟨hm, rfl⟩, rfl⟩
    exact List.mem_zipIdx_iff_getElem?.mp hm
  · exact fun h => ⟨b, i, ⟨List.mem_zipIdx_iff_getElem?.mpr h, rfl⟩, rfl⟩

theorem setPhiArgs (h : Renaming f k t phis σ args) (hs : phis.lookup s = some x)
    (hl : f.Listing) (hinj : ∀ b, phis.lookup b = some x → b = s) :
    Renaming f (k.setPhiArgs s x b o) t phis σ
      fun s' q => if s' = s ∧ q = b then o else args s' q := by
  obtain ⟨hge, hlt, hval⟩ := h.new s x hs
  have hmap : ((f.block s).preds.map (args s)).mapIdx
      (fun i a => if (k.predPlaces s b).contains i then o else a) =
        (f.block s).preds.map fun q => if q = b then o else args s q := by
    refine List.ext_getElem? fun i => ?_
    rw [List.getElem?_mapIdx, List.getElem?_map, List.getElem?_map]
    cases hq : (f.block s).preds[i]? with
    | none => rfl
    | some q =>
      have hmem : i ∈ k.predPlaces s b ↔ q = b := by
        rw [mem_predPlaces, h.graph.preds s, hq, Option.some.injEq]
      by_cases hqb : q = b
      · simp [hqb, hmem.mpr hqb]
      · simp [hqb, mt hmem.mp hqb]
  have hother : ∀ {y}, y ≠ x → (k.setPhiArgs s x b o).value y = k.value y :=
    fun hy => value_modifyValue_ne hy
  refine { h with
    graph := h.graph.trans sameGraph_modifyValue
    numValues := by simpa [Func.setPhiArgs] using h.numValues
    head := fun v hv => ?_
    old := fun c hc v hv => ?_
    new := fun c y hy => ?_
    only := by simpa [Func.setPhiArgs] using h.only }
  · rw [hother (by rintro rfl; exact h.ne_phi hv hs)]
    exact h.head v hv
  · rw [hother (by rintro rfl; exact h.ne_phi (hl.lt hc hv) hs)]
    exact h.old c hc v hv
  · obtain ⟨hge', hlt', hval'⟩ := h.new c y hy
    refine ⟨hge', by simpa [Func.setPhiArgs] using hlt', ?_⟩
    by_cases hyx : y = x
    · subst hyx
      obtain rfl := hinj c hy
      rw [Func.setPhiArgs, value_modifyValue hlt, if_pos rfl, hval]
      simp only [hmap, true_and]
    · rw [hother hyx, hval']
      have hcs : c ≠ s := by
        rintro rfl
        exact hyx (Option.some.inj (hy.symm.trans hs))
      simp [hcs]

end Renaming

/-! ## Current values -/

/-- Neither the slot nor a read of it. -/
def Clean (f : Func) (slot c : ValueId) : Prop := ¬ f.Reads slot c ∧ c ≠ slot

/-- A renaming of reads of the slot. -/
structure Resolves (f : Func) (slot : ValueId) (σ : ValueId → ValueId) : Prop where
  fixed : ∀ x, ¬ f.Reads slot x → σ x = x
  clean : ∀ x, σ x = x ∨ f.Clean slot (σ x)
  listed : ∀ x, σ x ≠ x → f.IsListed x

/-- Whatever `σ` has renamed, `σ'` has renamed alike. -/
def Extends (σ σ' : ValueId → ValueId) : Prop := ∀ x, σ x ≠ x → σ' x = σ x

theorem Extends.refl (σ : ValueId → ValueId) : Extends σ σ := fun _ _ => rfl

theorem Extends.trans {σ'' : ValueId → ValueId} (h : Extends σ σ') (h' : Extends σ' σ'') :
    Extends σ σ'' := by
  intro x hx
  have hx' := h x hx
  rw [h' x (by rwa [hx']), hx']

/-- From the value current before the list to the one current behind it. -/
inductive Threads (f : Func) (slot : ValueId) (σ : ValueId → ValueId) :
    ValueId → List ValueId → ValueId → Prop
  | nil {c : ValueId} : Threads f slot σ c [] c
  | read {c d v : ValueId} {l : List ValueId} : f.Reads slot v → σ v = c → c ≠ v →
      Threads f slot σ c l d → Threads f slot σ c (v :: l) d
  | write {c d v w : ValueId} {l : List ValueId} : f.Writes slot v w → (f.Reads slot w → σ w ≠ w) →
      Threads f slot σ (σ w) l d → Threads f slot σ c (v :: l) d
  | other {c d v : ValueId} {l : List ValueId} : ¬ f.Accesses slot v →
      Threads f slot σ c l d → Threads f slot σ c (v :: l) d

namespace Threads

variable {c c' c'' : ValueId} {l l' : List ValueId}

theorem append (h : Threads f slot σ c l c') (h' : Threads f slot σ c' l' c'') :
    Threads f slot σ c (l ++ l') c'' := by
  induction h with
  | nil => exact h'
  | read hr hσ hne _ ih => exact .read hr hσ hne (ih h')
  | write hw hσ _ ih => exact .write hw hσ (ih h')
  | other hn _ ih => exact .other hn (ih h')

theorem mono (h : Threads f slot σ c l c') (hσ : Resolves f slot σ) (hσ' : Resolves f slot σ')
    (hext : Extends σ σ') : Threads f slot σ' c l c' := by
  induction h with
  | nil => exact .nil
  | read hr heq hne _ ih => exact .read hr ((hext _ (by rwa [heq])).trans heq) hne ih
  | @write c c' v w l hw hres _ ih =>
    have heq : σ' w = σ w := by
      by_cases hr : f.Reads slot w
      · exact hext w (hres hr)
      · rw [hσ.fixed w hr, hσ'.fixed w hr]
    exact .write hw (by rwa [heq]) (heq ▸ ih)
  | other hn _ ih => exact .other hn ih

end Threads

/-! ## One block -/

/-- What `renameBlock` does with one value. -/
def renameAt (slot : ValueId) (s : Func × Operand × List ValueId) (id : ValueId) :
    Outcome (Func × Operand × List ValueId) := do
  if ← readsSlot slot (s.1.value id) then
    return (s.1.replaceUses (.value id) s.2.1, s.2.1, s.2.2 ++ [id])
  if ← writesSlot slot (s.1.value id) then
    return (s.1, ← .at? (s.1.value id).args 0, s.2.2 ++ [id])
  return s

theorem renameBlock_eq {cur : Operand} : renameBlock slot k cur b =
    (k.block b).values.foldlM (renameAt slot) (k, cur, []) := rfl

/-- Nothing is renamed to the slot but itself. -/
theorem Resolves.eq_slot (h : Resolves f slot σ) (hs : ¬ f.Reads slot slot) :
    σ x = slot ↔ x = slot := by
  constructor
  · intro hx
    rcases h.clean x with heq | hc
    · exact heq.symm.trans hx
    · exact absurd hx hc.2
  · rintro rfl
    exact h.fixed x hs

theorem renameAt_phi {cur : Operand} {dead : List ValueId} (hop : (k.value v).op = .phi) :
    renameAt slot (k, cur, dead) v = .ok (k, cur, dead) := by
  simp [renameAt, readsSlot, writesSlot, hop]

/-- What a value does with the current value, told from the function before renaming. -/
theorem Renaming.renameAt (h : Renaming f k t phis σ args) (hf : f.Ssa) (hσ : Resolves f slot σ)
    (hs : ¬ f.Reads slot slot) (hb : b ∈ f.layout) (hv : v ∈ (f.block b).values) (c : ValueId)
    (dead : List ValueId) : renameAt slot (k, .value c, dead) v = .ok (k, .value c, dead) ∧
        ¬ f.Accesses slot v ∨
      renameAt slot (k, .value c, dead) v =
        .ok (k.replaceUses (.value v) (.value c), .value c, dead ++ [v]) ∧ f.Reads slot v ∨
      ∃ w, renameAt slot (k, .value c, dead) v = .ok (k, .value (σ w), dead ++ [v]) ∧
        f.Writes slot v w := by
  have hold := h.old b hb v hv
  have hslot : ∀ x, σ x = slot ↔ x = slot := fun x => hσ.eq_slot hs
  by_cases hload : (f.value v).op = .load
  · obtain ⟨a, hargs⟩ := hf.load_args hb hv hload
    by_cases ha : a = slot
    · refine .inr (.inl ⟨?_, hload, by rw [hargs, ha]⟩)
      simp [Func.renameAt, readsSlot, hold, hload, hargs, rename, Outcome.at?, (hslot a).mpr ha]
    · refine .inl ⟨?_, ?_⟩
      · simp [Func.renameAt, readsSlot, writesSlot, hold, hload, hargs, rename, Outcome.at?, hslot,
          ha]
      · rintro (⟨_, hr⟩ | ⟨w, hw, _⟩)
        · exact ha (by simpa [hargs] using hr)
        · simp [hload] at hw
  by_cases hstore : (f.value v).op = .store
  · obtain ⟨w, a, hargs⟩ := hf.store_args hb hv hstore
    by_cases ha : a = slot
    · refine .inr (.inr ⟨w, ?_, hstore, by rw [hargs, ha]⟩)
      simp [Func.renameAt, readsSlot, writesSlot, hold, hstore, hargs, rename, Outcome.at?,
        (hslot a).mpr ha]
    · refine .inl ⟨?_, ?_⟩
      · simp [Func.renameAt, readsSlot, writesSlot, hold, hstore, hargs, rename, Outcome.at?, hslot,
          ha]
      · rintro (⟨hr, _⟩ | ⟨_, _, hw⟩)
        · exact hload hr
        · exact ha (by have := hw; simp [hargs] at this; exact this.2)
  · refine .inl ⟨by simp [Func.renameAt, readsSlot, writesSlot, hold, hload, hstore], ?_⟩
    rintro (⟨hr, _⟩ | ⟨_, hw, _⟩)
    · exact hload hr
    · exact hstore hw

/-- No argument of a placed phi is a read of the slot. -/
def NoReads (f : Func) (slot : ValueId) (args : BlockId → BlockId → Operand) : Prop :=
  ∀ s q v, f.Reads slot v → args s q ≠ .value v

/-- What renaming a block has come to. -/
structure BlockRenamed (f : Func) (slot : ValueId) (t : Ty) (phis : PlacedPhis)
    (args : BlockId → BlockId → Operand) (σ : ValueId → ValueId) (c : ValueId) (l : List ValueId)
    (k : Func) (σ' : ValueId → ValueId) (c' : ValueId) (dead : List ValueId) : Prop where
  renamed : Renaming f k t phis σ' args
  resolves : Resolves f slot σ'
  extended : Extends σ σ'
  clean : f.Clean slot c'
  threads : Threads f slot σ' c l c'
  kept : ∀ v ∉ l, σ' v = σ v
  read : ∀ v ∈ l, f.Reads slot v → σ' v ≠ v
  sub : dead.Sublist l
  dead : ∀ v, v ∈ dead ↔ v ∈ l ∧ f.Accesses slot v

namespace BlockRenamed

variable {c c' : ValueId} {l dead : List ValueId}
  (h : BlockRenamed f slot t phis args σ c l k σ' c' dead)
include h

/-- A value that does not touch the slot. -/
theorem snoc_other (hno : ¬ f.Accesses slot v) :
    BlockRenamed f slot t phis args σ c (l ++ [v]) k σ' c' dead where
  renamed := h.renamed
  resolves := h.resolves
  extended := h.extended
  clean := h.clean
  threads := h.threads.append (.other hno .nil)
  kept x hx := h.kept x fun hm => hx (List.mem_append_left _ hm)
  read x hx hr := by
    rcases List.mem_append.mp hx with hx | hx
    · exact h.read x hx hr
    · obtain rfl := List.mem_singleton.mp hx
      exact absurd (.inl hr) hno
  sub := h.sub.trans (List.sublist_append_left _ _)
  dead x := by
    rw [h.dead, List.mem_append, List.mem_singleton]
    constructor
    · rintro ⟨hx, ha⟩
      exact ⟨.inl hx, ha⟩
    · rintro ⟨hx | rfl, ha⟩
      · exact ⟨hx, ha⟩
      · exact absurd ha hno

theorem mem_dead_snoc (ha : f.Accesses slot v) :
    x ∈ dead ++ [v] ↔ x ∈ l ++ [v] ∧ f.Accesses slot x := by
  rw [List.mem_append, List.mem_append, List.mem_singleton, h.dead]
  constructor
  · rintro (⟨hx, hax⟩ | rfl)
    · exact ⟨.inl hx, hax⟩
    · exact ⟨.inr rfl, ha⟩
  · rintro ⟨hx | rfl, hax⟩
    · exact .inl ⟨hx, hax⟩
    · exact .inr rfl

/-- A read is renamed to the current value. -/
theorem snoc_read (hf : f.Ssa) (hargs : f.NoReads slot args) (hlisted : f.IsListed v)
    (hread : f.Reads slot v) (hσv : σ' v = v) :
    BlockRenamed f slot t phis args σ c (l ++ [v]) (k.replaceUses (.value v) (.value c'))
      (Function.update σ' v c') c' (dead ++ [v]) := by
  have hσ' : ∀ x, σ' x = v ↔ x = v := by
    refine fun x => ⟨fun hx => ?_, fun hx => hx ▸ hσv⟩
    rcases h.resolves.clean x with hxx | hcl
    · exact hxx.symm.trans hx
    · exact absurd (hx ▸ hread) hcl.1
  have hcv : c' ≠ v := fun heq => h.clean.1 (heq ▸ hread)
  have hres : Resolves f slot (Function.update σ' v c') := by
    refine ⟨fun x hx => ?_, fun x => ?_, fun x hx => ?_⟩
    · have hxv : x ≠ v := fun heq => hx (heq ▸ hread)
      rw [Function.update_of_ne hxv]
      exact h.resolves.fixed x hx
    · by_cases hxv : x = v
      · subst hxv
        rw [Function.update_self]
        exact .inr h.clean
      · rw [Function.update_of_ne hxv]
        exact h.resolves.clean x
    · by_cases hxv : x = v
      · exact hxv ▸ hlisted
      · rw [Function.update_of_ne hxv] at hx
        exact h.resolves.listed x hx
  have hext : Extends σ' (Function.update σ' v c') := by
    intro x hx
    rw [Function.update_of_ne]
    rintro rfl
    exact hx hσv
  refine ⟨h.renamed.replaceUses hf hσ' (fun s q => hargs s q v hread) c', hres,
    h.extended.trans hext, h.clean, (h.threads.mono h.resolves hres hext).append
      (.read hread (Function.update_self ..) hcv .nil), fun x hx => ?_, fun x hx hr => ?_,
    h.sub.append (.refl _), fun x => h.mem_dead_snoc (.inl hread)⟩
  · rw [List.mem_append, List.mem_singleton, not_or] at hx
    rw [Function.update_of_ne hx.2]
    exact h.kept x hx.1
  · by_cases hxv : x = v
    · rw [hxv, Function.update_self]
      exact hcv
    · rw [Function.update_of_ne hxv]
      refine h.read x ((List.mem_append.mp hx).resolve_right fun hx => ?_) hr
      exact hxv (List.mem_singleton.mp hx)

/-- What is written becomes current. -/
theorem snoc_write (hslot : f.Slot slot t) (hb : b ∈ f.layout) (hv : v ∈ (f.block b).values)
    (hwrite : f.Writes slot v w) (hres : f.Reads slot w → σ' w ≠ w) :
    BlockRenamed f slot t phis args σ c (l ++ [v]) k σ' (σ' w) (dead ++ [v]) where
  renamed := h.renamed
  resolves := h.resolves
  extended := h.extended
  clean := by
    by_cases hr : f.Reads slot w
    · exact (h.resolves.clean w).resolve_left (hres hr)
    · rw [h.resolves.fixed w hr]
      refine ⟨hr, ?_⟩
      rcases hslot.uses b hb v hv (by simp [hwrite.2]) with ⟨⟨hop, -⟩, -⟩ | ⟨w', hne, hw', -⟩
      · simp [hwrite.1] at hop
      · have := hw'.2.symm.trans hwrite.2
        obtain rfl : w' = w := by simpa using this
        exact hne
  threads := h.threads.append (.write hwrite hres .nil)
  kept x hx := h.kept x fun hm => hx (List.mem_append_left _ hm)
  read x hx hr := by
    rcases List.mem_append.mp hx with hx | hx
    · exact h.read x hx hr
    · obtain rfl := List.mem_singleton.mp hx
      have := hwrite.1.symm.trans hr.1
      cases this
  sub := h.sub.append (.refl _)
  dead x := h.mem_dead_snoc (.inr ⟨w, hwrite⟩)

end BlockRenamed

/-- Placed phis are passed over. -/
theorem Renaming.skip_phis (h : Renaming f k t phis σ args) {cur : Operand} :
    (phis.lookup b).toList.foldlM (Func.renameAt slot) (k, cur, []) = .ok (k, cur, []) := by
  cases hlook : phis.lookup b with
  | none => rfl
  | some v =>
    have hphi : (k.value v).op = .phi := by
      rw [(h.new b v hlook).2.2]
    rw [Option.toList_some, List.foldlM_cons, renameAt_phi hphi]
    rfl

theorem renameBlock_spec {c : ValueId} (hf : f.Ssa) (hslot : f.Slot slot t)
    (hs : ¬ f.Reads slot slot) (h : Renaming f k t phis σ args) (hσ : Resolves f slot σ)
    (hc : f.Clean slot c) (hargs : f.NoReads slot args) (hb : b ∈ f.layout)
    (hfresh : ∀ v ∈ (f.block b).values, σ v = v)
    (habove : ∀ v ∈ (f.block b).values, ∀ w, f.Writes slot v w → f.Reads slot w →
      σ w ≠ w ∨ [w, v].Sublist (f.block b).values) :
    ∃ k' c' dead σ', renameBlock slot k (.value c) b = .ok (k', .value c', dead) ∧
      BlockRenamed f slot t phis args σ c (f.block b).values k' σ' c' dead := by
  rw [renameBlock_eq, h.values b, List.foldlM_append, h.skip_phis, Outcome.ok_bind]
  have hrun := Outcome.foldlM_keeps_done (b := (k, .value c, [])) (l := (f.block b).values)
    (g := Func.renameAt slot) (P := fun before s => ∃ σ' c', s.2.1 = .value c' ∧
      BlockRenamed f slot t phis args σ c before s.1 σ' c' s.2.2) ?_
    ⟨σ, c, rfl, h, hσ, .refl σ, hc, .nil, fun _ _ => rfl, by simp, .slnil, by simp⟩
  · obtain ⟨⟨k', cur, dead⟩, hrun, σ', c', hcur, hspec⟩ := hrun
    exact ⟨k', c', dead, σ', by rw [hrun]; exact congrArg _ (by rw [← hcur]), hspec⟩
  rintro before v after ⟨k', cur, dead⟩ hsplit ⟨σ', c', hcur, hspec⟩
  simp only at hcur hspec
  subst hcur
  have hv : v ∈ (f.block b).values := by simp [hsplit]
  have hnd : (before ++ v :: after).Nodup := hsplit ▸ hf.listing.nodup b hb
  have hapart := (List.nodup_append.mp hnd).2.2
  have hvb : v ∉ before := fun hm => hapart v hm v List.mem_cons_self rfl
  rcases hspec.renamed.renameAt hf hspec.resolves hs hb hv c' dead with
    ⟨heq, hno⟩ | ⟨heq, hread⟩ | ⟨w, heq, hwrite⟩
  · exact ⟨_, heq, σ', c', rfl, hspec.snoc_other hno⟩
  · have hσv : σ' v = v := (hspec.kept v hvb).trans (hfresh v hv)
    exact ⟨_, heq, _, c', rfl, hspec.snoc_read hf hargs ⟨b, hb, hv⟩ hread hσv⟩
  · refine ⟨_, heq, σ', σ' w, rfl, hspec.snoc_write hslot hb hv hwrite fun hr => ?_⟩
    -- a read whose result is stored has been renamed, here or in a block above
    rcases habove v hv w hwrite hr with hw | hw
    · rwa [hspec.extended w hw]
    · refine hspec.read w ?_ hr
      rw [hsplit] at hw
      obtain ⟨hwm, -, hlt⟩ := (sublist_pair_iff hnd).mp hw
      rw [List.idxOf_append_of_notMem hvb, List.idxOf_cons_self] at hlt
      rcases List.mem_append.mp hwm with hwm | hwm
      · exact hwm
      · have hwb : w ∉ before := fun hm => hapart w hm w hwm rfl
        rw [List.idxOf_append_of_notMem hwb] at hlt
        omega

end SsaJit.Func
