import SsaJit.Proofs.Pass.Renamed
import SsaJit.Proofs.Ssa.Trim

/-! Promoting a slot, and then every slot that can be. A zero goes in front of the instructions, phis go
to the frontiers of the writes, the walk down the dominator tree renames the reads, and the accesses and
the slot are taken out. Where a block has no phi for the slot, all its predecessors agree on the value
that is current when control comes to it. -/

namespace SsaJit.Func

variable {f g k : Func} {b c d p q s : BlockId} {slot u v w x blank : ValueId} {o : Operand} {t : Ty}
variable {phis : PlacedPhis} {σ : ValueId → ValueId} {args : BlockId → BlockId → Operand}
variable {dom : DomTree} {out : BlockId → ValueId} {l : List ValueId} {strict : Prop}

/-! ## One graph -/

theorem SameGraph.frontiers (h : SameGraph f g) : g.frontiers dom = f.frontiers dom := by
  unfold Func.frontiers
  simp only [h.layout, h.preds, h.numBlocks]

theorem SameGraph.tree (h : SameGraph f g) (ht : dom.Of f f.start) : dom.Of g g.start := by
  have hround : ∀ order l idom, g.idomRound order l idom = f.idomRound order l idom := by
    intro order l idom
    unfold idomRound improvedIdom
    simp only [h.preds, h.numBlocks]
  rw [h.start]
  obtain ⟨hpost, hreach, hset, hstill, hlt, hch⟩ := ht
  obtain ⟨hsize, hforest, hall, hdom⟩ := hset
  refine ⟨⟨?_, hpost.nodup, hpost.head?, ?_⟩, ?_, ⟨hsize.trans h.numBlocks.symm, ?_, ?_, ?_⟩,
    (hround _ _ _).trans hstill, ?_, ?_⟩
  all_goals first | rw [h.next] | rw [h.numBlocks]
  · exact hpost.mem_iff
  · exact hpost.pred
  · exact hreach
  · exact hforest
  · exact hall
  · exact hdom
  · rw [h.numBlocks]
    exact hlt
  · exact hch

/-! ## The value that stands for what was not written -/

/-- The function with a zero of the type in front of its instructions. -/
def blanked (f : Func) (t : Ty) : Func :=
  f.inserted f.start (f.firstNonPhi f.start) (constOf t (splat t 0))

theorem value_blanked : (f.blanked t).value x = if x = f.numValues then
    { constOf t (splat t 0) with block := some f.start } else f.value x :=
  value_inserted

section blanked

variable (hf : f.Ssa)
include hf

theorem Ssa.blanked : (f.blanked t).Ssa :=
  hf.inserted hf.flow.start_mem firstNonPhi_le (by simp) (by simp)
    (constOf_wellTyped (List.length_replicate)) fun p hp => hf.entry_phis p (List.mem_of_mem_drop hp)

theorem Ssa.sameGraph_blanked : SameGraph f (f.blanked t) :=
  sameGraph_inserted (hf.flow.lt _ hf.flow.start_mem)

theorem Ssa.values_blanked : ((f.blanked t).block f.start).values =
    (f.block f.start).values.insertIdx (f.firstNonPhi f.start) f.numValues := by
  rw [Func.blanked, block_inserted (hf.flow.lt _ hf.flow.start_mem), if_pos rfl]

theorem Ssa.mem_blanked : v ∈ ((f.blanked t).block f.start).values ↔
    v = f.numValues ∨ v ∈ (f.block f.start).values := by
  rw [hf.values_blanked, List.mem_insertIdx firstNonPhi_le]

/-- What the zero is put in front of stays. -/
theorem Ssa.of_mem_blanked (hv : v ∈ ((f.blanked t).block b).values) (hne : v ≠ f.numValues) :
    v ∈ (f.block b).values ∧ (f.blanked t).value v = f.value v :=
  ⟨mem_of_mem_inserted (hf.flow.lt _ hf.flow.start_mem) firstNonPhi_le hv hne,
    by rw [value_blanked, if_neg hne]⟩

/-- The zero does not use the slot. -/
theorem Slot.blanked (h : f.Slot slot t) (hslot : slot < f.numValues) : (f.blanked t).Slot slot t where
  uses b hb v hv hargs := by
    rw [hf.sameGraph_blanked.layout] at hb
    have hne : v ≠ f.numValues := by
      rintro rfl
      rw [value_blanked, if_pos rfl] at hargs
      simp at hargs
    obtain ⟨hv, heq⟩ := hf.of_mem_blanked hv hne
    rw [heq] at hargs
    simp only [Reads, Writes, heq]
    refine (h.uses b hb v hv hargs).imp id fun ⟨w, hws, hw, hvol, hty⟩ => ⟨w, hws, hw, hvol, ?_⟩
    have hold := (hf.before hb hv (by simp [hw.1]) (by simp [hw.1])
      (show .value w ∈ (f.value v).args by simp [hw.2])).ne_numValues
    rw [value_blanked, if_neg hold]
    exact hty
  control b hb := by
    rw [hf.sameGraph_blanked.layout] at hb
    rw [Func.blanked, (end_inserted (hf.flow.lt _ hf.flow.start_mem)).2]
    exact h.control b hb
  size := by
    rw [value_blanked, if_neg (Nat.ne_of_lt hslot)]
    exact h.size

theorem Ssa.promoting (hslot : f.Slot slot t)
    (halloca : (f.value slot).op = .alloca) (hhome : slot ∈ (f.block f.start).values)
    (htree : dom.Of f f.start) (hreached : ∀ b ∈ f.layout, f.Reached b) :
    Promoting (f.blanked t) slot t dom f.numValues where
  ssa := hf.blanked
  promotable := hslot.blanked hf (hf.listing.lt hf.flow.start_mem hhome)
  alloca := by
    rw [value_blanked, if_neg (Nat.ne_of_lt (hf.listing.lt hf.flow.start_mem hhome))]
    exact halloca
  home := by
    rw [hf.sameGraph_blanked.start]
    exact hf.mem_blanked.mpr (.inr hhome)
  tree := hf.sameGraph_blanked.tree htree
  reached b hb := hf.sameGraph_blanked.reached.mpr (hreached b (hf.sameGraph_blanked.layout ▸ hb))
  listed := by
    rw [hf.sameGraph_blanked.start]
    exact hf.mem_blanked.mpr (.inl rfl)
  const := by
    rw [value_blanked, if_pos rfl]
    simp
  type := by
    rw [value_blanked, if_pos rfl]
    simp
  first v hv hphi hparam hne := by
    rw [hf.sameGraph_blanked.start] at hv ⊢
    obtain ⟨hv, heq⟩ := hf.of_mem_blanked hv hne
    rw [heq] at hphi hparam
    rw [hf.values_blanked, insertIdx_split firstNonPhi_le]
    have hmem := mem_behind hv hphi hparam
    exact ((List.singleton_sublist.mpr hmem).cons_cons _).trans (List.sublist_append_right _ _)

end blanked

/-! ## Phis where they are needed -/

theorem Threads.unwritten (h : Threads f slot σ c l d)
    (hno : ∀ v ∈ l, ∀ w, ¬ f.Writes slot v w) : d = c := by
  induction h with
  | nil => rfl
  | read _ _ _ _ ih => exact ih fun v hv => hno v (List.mem_cons_of_mem _ hv)
  | write hw _ _ _ => exact absurd hw (hno _ List.mem_cons_self _)
  | other _ _ ih => exact ih fun v hv => hno v (List.mem_cons_of_mem _ hv)

/-- What is current where a block without a placed phi begins is current at the end of each predecessor:
up the tree from a predecessor to the immediate dominator nothing is written and no phi is placed, for
otherwise the block would be in a frontier that has been served. -/
theorem Walked.joined (h : Walked f slot t dom phis blank f.Reached k σ args out)
    (hp : Promoting f slot t dom blank) {defs : List BlockId}
    (hwrites : ∀ b ∈ f.layout, f.WritesIn slot b → b ∈ defs)
    (hphis : ∀ b x, phis.lookup b = some x → b ∈ defs)
    (hserved : Served f (f.frontiers dom) defs phis) (hq : f.Reached q) (hb : b ∈ f.next q)
    (hnone : phis.lookup b = none) : startValue dom phis blank out b = out q := by
  have hlink := hp.ssa.flow.wired.linkage
  have hr : f.Reached b := hq.step hb
  have hpred : q ∈ (f.block b).preds := (hlink.preds b q hr hq).mpr hb
  have hbs : b ≠ f.start := by
    rintro rfl
    rw [hp.ssa.flow.entry_preds] at hpred
    cases hpred
  obtain ⟨d, hd, -⟩ := hp.tree.idom?_spec hr hbs
  have hup : out q = out d := by
    refine hp.tree.same_up hlink hr hbs (hp.ssa.flow.reached_mem hr) hq hpred hd fun x hx hbx p hxp => ?_
    have hxd : x ∉ defs := fun hxd => by
      have := hserved x hxd b hbx hbs
      simp [hnone] at this
    have hthread := (h.threads x hx).unwritten fun v hv w hw =>
      hxd (hwrites x (hp.ssa.flow.reached_mem hx) ⟨v, hv, w, hw⟩)
    have hxnone : phis.lookup x = none := by
      by_contra hne
      obtain ⟨y, hy⟩ := Option.ne_none_iff_exists'.mp hne
      exact hxd (hphis x y hy)
    rw [hthread]
    simp [startValue, hxnone, hxp]
  rw [hup]
  simp [startValue, hnone, hd]

theorem placePhis_all (hf : f.Ssa) : ∃ defs g phis defs', f.writingBlocks slot = .ok defs ∧
    placePhis t f.start (f.frontiers dom) (f.numBlocks + 1) f [] defs defs.reverse = .ok (g, phis) ∧
      Placed f g t phis ∧ (∀ b ∈ f.layout, f.WritesIn slot b → b ∈ defs') ∧
        (∀ b x, phis.lookup b = some x → b ∈ defs') ∧ Served f (f.frontiers dom) defs' phis := by
  obtain ⟨defs, hdefs, hnd, hmem⟩ := @writingBlocks_spec f slot hf
  obtain ⟨g, phis, defs', hrun, hplaced, hseeds, hphis, hserved⟩ :=
    @placePhis_spec f t (f.frontiers dom) defs hf.flow
      (fun _ _ hd => (mem_frontiers.mp hd).1) (f.numBlocks + 1) f [] defs defs.reverse []
      ⟨.refl f t, by simpa using hnd, by simp, fun _ hb => hb, fun b hb => ((hmem b).mp hb).1, by simp⟩
      (by simp [Served]) (by simp)
  exact ⟨defs, g, phis, defs', hdefs, hrun, hplaced, fun b hb hw => hseeds b ((hmem b).mpr ⟨hb, hw⟩),
    hphis, hserved⟩

/-! ## Taking the accesses out -/

theorem modifyValue_self {e : Value → Value} (h : e (f.value v) = f.value v) :
    f.modifyValue v e = f := by
  unfold modifyValue
  congr 1
  refine Array.ext (by simp) fun i hi hi' => ?_
  rw [Array.getElem_modify]
  split
  · next heq =>
    subst heq
    have hget : f.value v = f.values[v] := by simp [value, hi']
    rwa [hget] at h
  · rfl

theorem lookup_of_mem {l : PlacedPhis} (hnd : (l.map Prod.fst).Nodup) (h : (b, x) ∈ l) :
    l.lookup b = some x := by
  induction l with
  | nil => cases h
  | cons y l ih =>
    rw [List.map_cons, List.nodup_cons] at hnd
    rw [List.lookup_cons]
    rcases List.mem_cons.mp h with rfl | h
    · simp
    · have hne : b ≠ y.1 := by
        rintro rfl
        exact hnd.1 (List.mem_map.mpr ⟨(y.1, x), h, rfl⟩)
      simp only [beq_eq_false_iff_ne.mpr hne]
      exact ih hnd.2 h

/-- Give the phi the blank value where it has no argument. -/
def fillPhi (blank : ValueId) (f : Func) (y : BlockId × ValueId) : Func :=
  f.modifyValue y.2 fun v => { v with
    args := v.args.map fun o => if o = .missing then .value blank else o }

theorem Pruned.trans {keep keep' : ValueId → Bool} (h : Pruned f g keep) (h' : Pruned g k keep') :
    Pruned f k fun v => keep v && keep' v where
  graph := h.graph.trans h'.graph
  ret := h'.ret.trans h.ret
  kind b := (h'.kind b).trans (h.kind b)
  control b := (h'.control b).trans (h.control b)
  values b hb := by
    rw [h'.values b (h.graph.layout ▸ hb), h.values b hb, List.filter_filter]
    exact List.filter_congr fun v _ => Bool.and_comm _ _
  kept v hv := by
    rw [Bool.and_eq_true] at hv
    rw [h'.kept v hv.2, h.kept v hv.1]
  dropped v hv := by
    cases hk : keep v with
    | true =>
      have hk' : keep' v = false := by simpa [hk] using hv
      rw [h'.dropped v hk', h.kept v hk]
    | false =>
      cases hk' : keep' v with
      | true => rw [h'.kept v hk', h.dropped v hk]
      | false => rw [h'.dropped v hk', h.dropped v hk]

theorem Pruned.nothing (f : Func) : Pruned f f fun v => !([] : List ValueId).contains v where
  graph := .refl f
  ret := rfl
  kind _ := rfl
  control _ := rfl
  values b _ := by simp
  kept _ _ := rfl
  dropped v hv := by simp at hv

/-- One value more is taken out of its block. -/
theorem Pruned.removeValue {keep : ValueId → Bool} (h : Pruned k g keep) (hg : g.Ssa)
    (hb : b ∈ k.layout) (hv : v ∈ (k.block b).values) (hkeep : keep v = true) :
    (g.value v).block = some b ∧ Pruned k (g.removeValue b v) fun x => keep x && x != v := by
  have hbg : b ∈ g.layout := by
    rw [h.graph.layout]
    exact hb
  have hvg : v ∈ (g.block b).values := by
    rw [h.values b hb]
    exact List.mem_filter.mpr ⟨hv, hkeep⟩
  exact ⟨(hg.listing.listed v b).mpr ⟨hbg, hvg⟩, h.trans (pruned_removeValue hg hbg hvg)⟩

section walked

variable (hp : Promoting f slot t dom blank)
  (h : Walked f slot t dom phis blank f.Reached k σ args out)
include hp h

/-- Every placed phi has all its arguments by the end of the walk. -/
theorem fillPhi_foldl (hnd : (phis.map Prod.fst).Nodup) : phis.foldl (fillPhi blank) k = k := by
  suffices ∀ l : PlacedPhis, (∀ y ∈ l, y ∈ phis) → l.foldl (fillPhi blank) k = k from
    this phis fun _ hy => hy
  intro l
  induction l with
  | nil => exact fun _ => rfl
  | cons y l ih =>
    intro hl
    have hy := lookup_of_mem hnd (hl y List.mem_cons_self)
    rw [List.foldl_cons, fillPhi, modifyValue_self, ih fun z hz => hl z (List.mem_cons_of_mem _ hz)]
    have hargs : (k.value y.2).args.map (fun o => if o = .missing then .value blank else o) =
        (k.value y.2).args := by
      rw [placed_args hp h hy, List.map_map]
      exact List.map_congr_left fun q _ => rfl
    rw [hargs]

/-- The accesses are taken out one by one, and the slot at last. -/
theorem removeValue_foldlM {dead : List ValueId} (hnd : dead.Nodup)
    (hdead : ∀ v, v ∈ dead ↔ ∃ b ∈ f.layout, v ∈ (f.block b).values ∧ f.Accesses slot v) :
    ∃ g, dead.foldlM (fun (f : Func) v => (.need (f.value v).block : Outcome BlockId) >>= fun b =>
        .ok (f.removeValue b v)) k = .ok g ∧
      Pruned k (g.removeValue f.start slot) fun v => !dead.contains v && v != slot := by
  have hgraph := h.renamed.graph
  have hpart : ∀ {done : List ValueId} {g}, (∀ v ∈ done, v ∈ dead) →
      Pruned k g (fun v => !done.contains v) → g.Ssa := fun hsub hg =>
    hg.ssa (renamed_ssa hp h)
      (renamed_unread hp h fun v hv => .inl ((hdead v).mp (hsub v (by simpa using hv))))
  obtain ⟨g, hg, hpruned⟩ := Outcome.foldlM_keeps_done (l := dead) (b := k)
    (g := fun (f : Func) v => (.need (f.value v).block : Outcome BlockId) >>= fun b =>
        .ok (f.removeValue b v))
    (P := fun done g => Pruned k g fun v => !done.contains v)
    (fun done v rest g hsplit hpruned => by
      have hnew : v ∉ done := fun hm => by
        rw [hsplit, List.nodup_append] at hnd
        exact hnd.2.2 v hm v List.mem_cons_self rfl
      obtain ⟨b, hb, hvb, -⟩ := (hdead v).mp (by simp [hsplit])
      obtain ⟨hblock, hless⟩ := hpruned.removeValue (hpart (fun x hx => by simp [hsplit, hx]) hpruned)
        (hgraph.layout ▸ hb) (h.renamed.mem_values.mpr (.inr hvb)) (by simpa using hnew)
      have hsame : (fun x => !(done ++ [v]).contains x) = fun x => !done.contains x && x != v := by
        funext x
        by_cases hxv : x = v <;> simp [hxv]
      exact ⟨g.removeValue b v, by rw [hblock]; rfl, hsame ▸ hless⟩)
    (.nothing k)
  -- the slot itself is not one of its accesses
  have hslot : slot ∉ dead := fun hm => by
    obtain ⟨-, -, -, hr | ⟨w, hw⟩⟩ := (hdead slot).mp hm
    · exact hp.not_reads hr
    · exact absurd (hp.alloca.symm.trans hw.1) (by simp)
  exact ⟨g, hg, (hpruned.removeValue (hpart (fun _ hv => hv) hpruned)
    (hgraph.layout ▸ hp.ssa.flow.start_mem) (h.renamed.mem_values.mpr (.inr hp.home))
    (by simpa using hslot)).2⟩

end walked

/-! ## The slot promoted -/

/-- `g` is `f` with the slot promoted: renamed to `k`, and then without the slot and its accesses. -/
structure Promoted (f g k : Func) (slot : ValueId) (t : Ty) (dom : DomTree) (blank : ValueId)
    (phis : PlacedPhis) (σ : ValueId → ValueId) (args : BlockId → BlockId → Operand)
    (out : BlockId → ValueId) (keep : ValueId → Bool) : Prop where
  promoting : Promoting f slot t dom blank
  walked : Walked f slot t dom phis blank f.Reached k σ args out
  pruned : Pruned k g keep
  dropped : ∀ v, keep v = false ↔
    (∃ b ∈ f.layout, v ∈ (f.block b).values ∧ f.Accesses slot v) ∨ v = slot
  joined : ∀ b q, f.Reached q → b ∈ f.next q → phis.lookup b = none →
    startValue dom phis blank out b = out q

theorem promoteSlot_eq {df : Array (List BlockId)} : f.promoteSlot dom df slot t =
    f.entry >>= fun e =>
    f.insertConst e (f.firstNonPhi e) t (splat t 0) >>= fun x =>
    x.1.writingBlocks slot >>= fun defs =>
    placePhis t e df (x.1.numBlocks + 1) x.1 [] defs defs.reverse >>= fun y =>
    renameTree slot dom y.2 (y.1.numBlocks + 1) y.1 (.value x.2) e >>= fun z =>
    z.2.foldlM (fun (f : Func) v => (.need (f.value v).block : Outcome BlockId) >>= fun b =>
      .ok (f.removeValue b v)) (y.2.foldl (fillPhi x.2) z.1) >>= fun g =>
    .ok (g.removeValue e slot) := rfl

theorem promoteSlot_spec (hp : Promoting (f.blanked t) slot t dom f.numValues) (hf : f.Ssa) :
    ∃ g k phis σ args out keep, f.promoteSlot dom (f.frontiers dom) slot t = .ok g ∧
      Promoted (f.blanked t) g k slot t dom f.numValues phis σ args out keep := by
  have hstart := hf.flow.start_mem
  have hg : SameGraph f (f.blanked t) := sameGraph_inserted (hf.flow.lt _ hstart)
  obtain ⟨defs, y, phis, defs', hdefs, hplace, hplaced, hwrites, hphis, hserved⟩ :=
    @placePhis_all (f.blanked t) slot t dom hp.ssa
  obtain ⟨k, dead, σ, args, out, hrename, hwalked, hnd, hdead⟩ :=
    renameTree_all hp (hplaced.renaming hp.ssa.listing) (fun _ _ _ _ h => by cases h)
  obtain ⟨z, hremove, hpruned⟩ := removeValue_foldlM hp hwalked hnd hdead
  rw [hg.frontiers, hg.start] at hplace
  rw [hg.start] at hrename hpruned
  refine ⟨z.removeValue f.start slot, k, phis, σ, args, out, _, ?_, hp, hwalked, hpruned, fun v => ?_,
    fun b q hq hb hnone => hwalked.joined hp hwrites hphis hserved hq hb hnone⟩
  · rw [promoteSlot_eq, hf.flow.entry_eq, Outcome.ok_bind,
      insertConst_eq firstNonPhi_le (show (splat t 0).length = t.numLanes from List.length_replicate),
      Outcome.ok_bind]
    change (f.blanked t).writingBlocks slot >>= _ = _
    rw [hdefs, Outcome.ok_bind]
    change placePhis t f.start (f.frontiers dom) ((f.blanked t).numBlocks + 1) (f.blanked t) [] defs
      defs.reverse >>= _ = _
    rw [hplace, Outcome.ok_bind]
    change renameTree slot dom phis (y.numBlocks + 1) y (.value f.numValues) f.start >>= _ = _
    rw [hplaced.graph.numBlocks, hrename, Outcome.ok_bind]
    change dead.foldlM _ (phis.foldl (fillPhi f.numValues) k) >>= _ = _
    rw [fillPhi_foldl hp hwalked hplaced.keys, hremove, Outcome.ok_bind]
  · rw [← hdead]
    simp [or_iff_not_imp_left]

section promoted

variable {keep : ValueId → Bool} (h : Promoted f g k slot t dom blank phis σ args out keep)
include h

theorem Promoted.ssa : g.Ssa := by
  refine h.pruned.ssa (renamed_ssa h.promoting h.walked)
    (renamed_unread h.promoting h.walked fun v hv => ?_)
  exact ((h.dropped v).mp hv).imp_right fun heq =>
    ⟨heq, fun b hb u hu ha => (h.dropped u).mpr (.inl ⟨b, hb, hu, ha⟩)⟩

theorem Promoted.storesVoid (hf : f.StoresVoid) : g.StoresVoid :=
  h.pruned.storesVoid (renamed_storesVoid h.promoting h.walked hf)

theorem Promoted.each {P : Value → Prop} (hP : ∀ y s, P y → P { y with args := y.args.map s })
    (hphi : ∀ b a, P { op := .phi, type := t, args := a, block := some b }) (hf : f.Each P) : g.Each P :=
  h.pruned.each (renamed_each h.walked hP hphi hf)

theorem Promoted.tidy (hf : f.Tidy strict) (ht : t.Valid) : g.Tidy strict :=
  h.pruned.tidy (renamed_tidy h.promoting h.walked hf ht)

end promoted

/-! ## Every slot -/

/-- Whatever type the uses agree on so far can be built. -/
def FoundValid (r : Option (Option Ty)) : Prop := ∀ s, r = some (some s) → s.Valid

section valid

variable (h : f.Ssa) (hst : f.StoresUnused) (ht : f.TypesValid)
include h hst ht

/-- Whatever type a use has is the type of a listed value. -/
theorem slotUse_valid (hb : b ∈ f.layout) (hv : v ∈ (f.block b).values) {i : Nat}
    (hu : f.slotUse slot (f.value v) i = .ok (some t)) : t.Valid := by
  unfold slotUse at hu
  split at hu
  · obtain rfl : (f.value v).type = t := by simpa using hu
    exact ht b hb v hv
  · split at hu
    · next hs =>
      obtain ⟨w, a, hargs⟩ := h.store_args hb hv hs.1
      rw [argument_eq (v := w) (by rw [hargs]; rfl)] at hu
      obtain rfl : (f.value w).type = t := by simpa using hu
      have hbefore := h.before hb hv (by simp [hs.1]) (by simp [hs.1])
        (show .value w ∈ (f.value v).args by simp [hargs])
      have hno := (hst b hb).1 v hv w (by simp [hargs])
      obtain ⟨d, hd, hw⟩ := (hbefore.listed h.listing).resolve_left hno
      exact ht d hd w hw
    · cases hu

theorem slotUses_valid (hb : b ∈ f.layout) (hv : v ∈ (f.block b).values)
    {l : List (Operand × Nat)} {found : Option Ty} {r : Option (Option Ty)}
    (hrun : f.slotUses slot (f.value v) l found = .ok r) (hfound : FoundValid (some found)) :
    FoundValid r := by
  induction l generalizing found with
  | nil =>
    obtain rfl : some found = r := by simpa [slotUses] using hrun
    exact hfound
  | cons x l ih =>
    rw [slotUses] at hrun
    split at hrun
    · exact ih hrun hfound
    · obtain ⟨u, hu, hrun⟩ := Outcome.bind_eq_ok.mp hrun
      cases u with
      | none =>
        obtain rfl : none = r := by simpa using hrun
        intro s hs
        cases hs
      | some t =>
        cases found with
        | none =>
          refine ih hrun fun t' ht' => ?_
          obtain rfl : t = t' := by simpa using ht'
          exact slotUse_valid h hst ht hb hv hu
        | some t' =>
          simp only at hrun
          split at hrun
          · exact ih hrun hfound
          · obtain rfl : none = r := by simpa using hrun
            intro s hs
            cases hs

theorem slotUsesIn_valid (hb : b ∈ f.layout) {r r' : Option (Option Ty)}
    (hrun : f.slotUsesIn slot r b = .ok r') (hr : FoundValid r) : FoundValid r' := by
  unfold slotUsesIn at hrun
  cases r with
  | none =>
    obtain rfl : none = r' := by simpa using hrun
    exact hr
  | some found =>
    simp only at hrun
    split at hrun
    · obtain rfl : none = r' := by simpa using hrun
      intro s hs
      cases hs
    · refine Outcome.foldlM_relates (R := fun r r' => FoundValid r → FoundValid r') (fun _ h => h)
        (fun _ _ _ h₁ h₂ h => h₂ (h₁ h)) (fun x hx r r' hat => ?_) hrun hr
      obtain ⟨v, hv, rfl⟩ := List.mem_map.mp hx
      unfold slotUsesAt at hat
      cases r with
      | none =>
        obtain rfl : none = r' := by simpa using hat
        exact fun h => h
      | some s => exact slotUses_valid h hst ht hb hv hat

/-- The type at which all uses agree is one that can be built. -/
theorem promotable_valid (hr : f.promotable? slot = .ok (some t)) : t.Valid := by
  rw [promotable_eq] at hr
  obtain ⟨found, hrun, hr⟩ := Outcome.bind_eq_ok.mp hr
  have hall : FoundValid (some none) → FoundValid found :=
    Outcome.foldlM_relates (R := fun r r' => FoundValid r → FoundValid r') (fun _ h => h)
      (fun _ _ _ h₁ h₂ h => h₂ (h₁ h)) (fun b hb r r' => slotUsesIn_valid h hst ht hb) hrun
  rcases found with _ | _ | t'
  · cases hr
  · cases hr
  · simp only at hr
    split at hr
    · simp at hr
    · obtain rfl : t' = t := by simpa using hr
      exact hall (fun s hs => by cases hs) t' rfl

end valid

/-- Slots promoted one after the other, the last one last in the list. -/
inductive PromotedAll (dom : DomTree) (f : Func) : List ValueId → Func → Prop
  | nil : PromotedAll dom f [] f
  | step {l : List ValueId} {g k m : Func} {slot : ValueId} {t : Ty} {phis : PlacedPhis}
      {σ : ValueId → ValueId} {args : BlockId → BlockId → Operand} {out : BlockId → ValueId}
      {keep : ValueId → Bool} : PromotedAll dom f l g → g.Ssa →
      (g.TypesValid → g.StoresUnused → t.Valid) →
      Promoted (g.blanked t) m k slot t dom g.numValues phis σ args out keep →
      PromotedAll dom f (l ++ [slot]) m

namespace Promoted

variable {keep : ValueId → Bool}

theorem graph (h : Promoted f g k slot t dom blank phis σ args out keep) : SameGraph f g :=
  h.walked.renamed.graph.trans h.pruned.graph

theorem keep_eq (h : Promoted f g k slot t dom blank phis σ args out keep)
    (hno : ¬ f.Accesses slot v) (hne : v ≠ slot) : keep v = true := by
  cases hk : keep v with
  | true => rfl
  | false =>
    rcases (h.dropped v).mp hk with ⟨-, -, -, ha⟩ | heq
    · exact absurd ha hno
    · exact absurd heq hne

/-- What is neither the slot nor an access of it stays. -/
theorem listed (h : Promoted f g k slot t dom blank phis σ args out keep) (hb : b ∈ f.layout)
    (hv : v ∈ (f.block b).values) (hno : ¬ f.Accesses slot v) (hne : v ≠ slot) :
    v ∈ (g.block b).values ∧ (g.value v).op = (f.value v).op := by
  refine ⟨?_, h.pruned.op.trans (h.walked.renamed.op (h.promoting.ssa.listing.lt hb hv)).1⟩
  rw [h.pruned.values b (h.walked.renamed.graph.layout ▸ hb), List.mem_filter,
    h.walked.renamed.mem_values]
  exact ⟨.inr hv, h.keep_eq hno hne⟩

end Promoted

/-- What `promote` does with one slot. -/
def promoteAt (dom : DomTree) (df : Array (List BlockId)) (s : Func × Bool) (slot : ValueId) :
    Optimized :=
  s.1.promotable? slot >>= fun r => match r with
    | none => .ok s
    | some t => s.1.promoteSlot dom df slot t >>= fun g => .ok (g, true)

/-- The slots that are looked at. -/
def slots (f : Func) : List ValueId :=
  ((f.valuesOf f.start).filter fun (_, v) => v.op == .alloca).map (·.1)

theorem mem_slots : v ∈ f.slots ↔ v ∈ (f.block f.start).values ∧ (f.value v).op = .alloca := by
  simp only [slots, valuesOf, List.mem_map, List.mem_filter, beq_iff_eq]
  constructor
  · rintro ⟨_, ⟨⟨x, hx, rfl⟩, hop⟩, rfl⟩
    exact ⟨hx, hop⟩
  · rintro ⟨hv, hop⟩
    exact ⟨_, ⟨⟨v, hv, rfl⟩, hop⟩, rfl⟩

theorem nodup_slots (h : f.Ssa) : f.slots.Nodup := by
  have hmap : f.slots = (f.block f.start).values.filter fun v => (f.value v).op == .alloca := by
    simp only [slots, valuesOf, List.filter_map, List.map_map]
    exact (List.map_congr_left fun _ _ => rfl).trans (List.map_id _)
  rw [hmap]
  exact (h.listing.nodup _ h.flow.start_mem).filter _

theorem promote_eq : f.promote = f.removeUnreachable >>= fun x => x.1.entry >>= fun e =>
    if (((x.1.valuesOf e).filter fun (_, v) => v.op == .alloca).map (·.1)).isEmpty then .ok x
    else x.1.domTree >>= fun dom =>
      (((x.1.valuesOf e).filter fun (_, v) => v.op == .alloca).map (·.1)).foldlM
        (promoteAt dom (x.1.frontiers dom)) x := rfl

/-- One more slot. -/
theorem promoteAt_spec (hf : f.Ssa) (ch : Bool) {df : Array (List BlockId)}
    (hdf : df = f.frontiers dom) (htree : dom.Of f f.start) (hreached : ∀ b ∈ f.layout, f.Reached b)
    (hslot : slot ∈ f.slots) :
    promoteAt dom df (f, ch) slot = .ok (f, ch) ∨
      ∃ g k t phis σ args out keep, promoteAt dom df (f, ch) slot = .ok (g, true) ∧
        (f.TypesValid → f.StoresUnused → t.Valid) ∧
        Promoted (f.blanked t) g k slot t dom f.numValues phis σ args out keep := by
  obtain ⟨hhome, halloca⟩ := mem_slots.mp hslot
  obtain ⟨r, hr, hspec⟩ := @promotable_spec f slot hf
  unfold promoteAt
  cases r with
  | none => exact .inl (by rw [hr]; rfl)
  | some t =>
    obtain ⟨g, k, phis, σ, args, out, keep, hg, hprom⟩ := promoteSlot_spec
      (hf.promoting (hspec t rfl) halloca hhome htree hreached) hf
    refine .inr ⟨g, k, t, phis, σ, args, out, keep, ?_, fun ht hst => promotable_valid hf hst ht hr,
      hprom⟩
    rw [hr, hdf]
    simp only [Outcome.ok_bind, hg]

/-- The slots that are still to be looked at are still there. -/
theorem Promoted.mem_slots {keep : ValueId → Bool}
    (h : Promoted (f.blanked t) g k slot t dom blank phis σ args out keep) (hf : f.Ssa)
    (hv : v ∈ f.slots) (hne : v ≠ slot) : v ∈ g.slots := by
  obtain ⟨hv, hop⟩ := Func.mem_slots.mp hv
  have hstart := hf.flow.start_mem
  have hlt := hf.flow.lt _ hstart
  have hgraph : SameGraph f (f.blanked t) := sameGraph_inserted hlt
  have hvv : (f.blanked t).value v = f.value v := by
    rw [blanked, value_inserted, if_neg (Nat.ne_of_lt (hf.listing.lt hstart hv))]
  have hmem : v ∈ ((f.blanked t).block f.start).values := by
    rw [blanked, block_inserted hlt, if_pos rfl, List.mem_insertIdx firstNonPhi_le]
    exact .inr hv
  obtain ⟨hvg, hopg⟩ := h.listed (hgraph.layout ▸ hstart) hmem (by
    rintro (hr | ⟨w, hw⟩)
    · exact absurd (hr.1.symm.trans (by rw [hvv, hop])) (by simp)
    · exact absurd (hw.1.symm.trans (by rw [hvv, hop])) (by simp)) hne
  rw [Func.mem_slots, h.graph.start, hgraph.start]
  exact ⟨hvg, by rw [hopg, hvv, hop]⟩

/-- Promotion gives a result: control is rid of blocks that it does not come to, and then slots are
promoted one after the other. -/
theorem promote_steps (hf : f.Ssa) : ∃ k g ch live dom l, f.promote = .ok (g, ch) ∧
    (∀ b, live b = true ↔ f.Reached b) ∧ Trimmed f k live ∧ PromotedAll dom k l g ∧
      l.Nodup ∧ ∀ v ∈ l, v ∈ k.slots := by
  obtain ⟨k, c, live, hk, hlive, htrim⟩ := removeUnreachable_spec hf
  have hkssa := htrim.ssa hf hlive
  have hreached : ∀ b ∈ k.layout, k.Reached b := fun b hb => htrim.all_reached hf.flow hlive hb
  obtain ⟨dom, hdom, htree⟩ := hkssa.flow.wired.domTree
  have hrun := Outcome.foldlM_keeps_done (l := k.slots) (b := (k, c))
    (g := promoteAt dom (k.frontiers dom))
    (P := fun done s => s.1.Ssa ∧ SameGraph k s.1 ∧
      (∀ v ∈ k.slots, v ∉ done → v ∈ s.1.slots) ∧
      ∃ l, PromotedAll dom k l s.1 ∧ l.Sublist done) ?_ ?_
  · obtain ⟨⟨g, ch⟩, hg, -, -, -, l, hall, hsub⟩ := hrun
    have hnd := nodup_slots hkssa
    by_cases hempty : k.slots.isEmpty
    · refine ⟨k, k, c, live, dom, [], ?_, hlive, htrim, .nil, .nil, by simp⟩
      rw [promote_eq, hk, Outcome.ok_bind, hkssa.flow.entry_eq, Outcome.ok_bind]
      exact if_pos hempty
    · refine ⟨k, g, ch, live, dom, l, ?_, hlive, htrim, hall, hsub.nodup hnd,
        fun v hv => hsub.subset hv⟩
      rw [promote_eq, hk, Outcome.ok_bind, hkssa.flow.entry_eq, Outcome.ok_bind]
      refine (if_neg hempty).trans ?_
      rw [hdom, Outcome.ok_bind]
      exact hg
  · rintro done slot rest ⟨g, ch⟩ hsplit ⟨hssa, hgraph, hslots, l, hall, hsub⟩
    have hnd := nodup_slots hkssa
    rw [hsplit, List.nodup_append] at hnd
    have hnot : slot ∉ done := fun hm => hnd.2.2 slot hm slot List.mem_cons_self rfl
    have hslot : slot ∈ g.slots := hslots slot (by simp [hsplit]) hnot
    rcases promoteAt_spec hssa ch hgraph.frontiers.symm (hgraph.tree htree)
      (fun b hb => hgraph.reached.mpr (hreached b (hgraph.layout ▸ hb))) hslot with
      hsame | ⟨m, j, t, phis, σ, args, out, keep, hm, ht, hprom⟩
    · exact ⟨_, hsame, hssa, hgraph, fun v hv hvn => hslots v hv fun hm => hvn (by simp [hm]), l,
        hall, hsub.trans (List.sublist_append_left _ _)⟩
    · have hbl : SameGraph g (g.blanked t) := sameGraph_inserted (hssa.flow.lt _ hssa.flow.start_mem)
      refine ⟨_, hm, hprom.ssa, (hgraph.trans hbl).trans hprom.graph,
        fun v hv hvn => ?_, l ++ [slot], .step hall hssa ht hprom, hsub.append (.refl _)⟩
      rw [List.mem_append, List.mem_singleton, not_or] at hvn
      exact hprom.mem_slots hssa (hslots v hv hvn.1) hvn.2
  · exact ⟨hkssa, .refl k, fun _ hv _ => hv, [], .nil, .slnil⟩

theorem Trimmed.storesVoid {live : BlockId → Bool} (h : Trimmed f g live) (hf : f.StoresVoid) :
    g.StoresVoid := by
  intro b hb v hv a ha hstore
  obtain ⟨hb, hv, ha⟩ := h.mem_args hb hv ha
  obtain ⟨_, _, heq⟩ := h.head a
  rw [heq] at hstore ⊢
  exact hf b hb v hv a ha hstore

theorem constOf_zero_tidy (ht : t.Valid) : TidyValue strict (constOf t (splat t 0)) :=
  constOf_tidy List.length_replicate ht fun w hw => by
    rw [List.eq_of_mem_replicate hw, Kind.canon_zero]
    exact Kind.cut_zero _

theorem PromotedAll.good (h : PromotedAll dom f l g) (hf : f.Good strict) : g.Good strict := by
  induction h with
  | nil => exact hf
  | step _ hssa hvalid hprom ih =>
    have ht := hvalid ih.tidy.types ih.tidy.stores
    exact ⟨hprom.ssa, hprom.tidy (ih.tidy.inserted hssa hssa.flow.start_mem firstNonPhi_le
      (constOf_zero_tidy ht) (by simp) (by simp)) ht⟩

theorem promote_good (hf : f.Good strict) : ∃ g ch, f.promote = .ok (g, ch) ∧ g.Good strict := by
  obtain ⟨k, g, ch, live, dom, l, hg, hlive, htrim, hall, -⟩ := promote_steps hf.ssa
  exact ⟨g, ch, hg, hall.good ⟨htrim.ssa hf.ssa hlive, htrim.tidy hf.tidy⟩⟩

end SsaJit.Func
