import SsaJit.Proofs.Pass.Currents

/-! The function whose reads of a slot have been renamed is in order while the accesses of the slot are
still in it: the value current at a read was defined before the read, in the block or in one that
dominates it, and what is current at the end of a block can be read there. Nothing reads the accesses
any more. -/

namespace SsaJit.Func

variable {f g k : Func} {b c d p q s : BlockId} {slot u v w x blank : ValueId} {o : Operand} {t : Ty}
variable {phis : PlacedPhis} {σ : ValueId → ValueId} {args : BlockId → BlockId → Operand}
variable {dom : DomTree} {out : BlockId → ValueId} {strict : Prop} {pre l : List ValueId}

/-! ## Renamed functions -/

theorem lt_of_store (h : (f.value v).op = .store) : v < f.numValues := by
  by_contra hge
  rw [value_of_le (Nat.le_of_not_lt hge)] at h
  cases h

theorem sublist_phi_cons (hu : u ∈ l) : [x, u].Sublist ([x] ++ l) :=
  (List.singleton_sublist.mpr hu).cons_cons x

namespace Renaming

theorem op (h : Renaming f k t phis σ args) (hv : v < f.numValues) :
    (k.value v).op = (f.value v).op ∧ (k.value v).type = (f.value v).type ∧
      (k.value v).block = (f.value v).block := by
  obtain ⟨a, ha⟩ := h.head v hv
  rw [ha]
  exact ⟨rfl, rfl, rfl⟩

theorem mem_values (h : Renaming f k t phis σ args) :
    v ∈ (k.block b).values ↔ phis.lookup b = some v ∨ v ∈ (f.block b).values := by
  rw [h.values, List.mem_append, Option.mem_toList]

theorem stays (h : Renaming f k t phis σ args) (hv : v < f.numValues) : Stays f k v :=
  .of_eq (h.op hv).1 (h.op hv).2.2

theorem sublist (h : Renaming f k t phis σ args) :
    (f.block b).values.Sublist (k.block b).values := by
  rw [h.values]
  exact List.sublist_append_right _ _

theorem listing (h : Renaming f k t phis σ args) (hf : f.Listing) : k.Listing where
  listed v b := by
    rw [h.graph.layout, h.mem_values]
    by_cases hv : v < f.numValues
    · rw [(h.op hv).2.2, hf.listed v b, or_iff_right (h.ne_phi hv)]
    · have hno : b ∈ f.layout → v ∉ (f.block b).values := fun hb hm => hv (hf.lt hb hm)
      by_cases hk : v < k.numValues
      · obtain ⟨c, hc⟩ := (h.only v hk).resolve_left hv
        rw [(h.new c v hc).2.2]
        constructor
        · intro heq
          obtain rfl : c = b := by simpa using heq
          exact ⟨(h.mem c v hc).1, .inl hc⟩
        · rintro ⟨hb, hor⟩
          obtain rfl := h.inj hc (hor.resolve_right (hno hb))
          rfl
      · rw [value_of_le (Nat.le_of_not_lt hk)]
        constructor
        · intro heq
          cases heq
        · rintro ⟨hb, hor⟩
          exact absurd (h.new b v (hor.resolve_right (hno hb))).2.1 hk
  nodup b hb := by
    rw [h.graph.layout] at hb
    rw [h.values]
    refine List.nodup_append.mpr ⟨?_, hf.nodup b hb, fun v hv w hw heq => ?_⟩
    · cases phis.lookup b <;> simp
    · exact h.ne_phi (hf.lt hb hw) (heq ▸ Option.mem_toList.mp hv)

/-- What is a store in one of the functions is one in the other. -/
theorem store_iff (h : Renaming f k t phis σ args) :
    (k.value x).op = .store ↔ (f.value x).op = .store := by
  by_cases hlt : x < f.numValues
  · rw [(h.op hlt).1]
  · refine iff_of_false (fun hk => ?_) fun hf => hlt (lt_of_store hf)
    obtain ⟨b, hb⟩ := (h.only x (lt_of_store hk)).resolve_left hlt
    simp [(h.new b x hb).2.2] at hk

end Renaming

/-! ## What is current can be read -/

/-- The value is an operand of some listed value. -/
def Mentions (f : Func) (a : ValueId) : Prop :=
  ∃ b ∈ f.layout, ∃ v ∈ (f.block b).values, .value a ∈ (f.value v).args

/-- The value can be read from the accesses among `l` on and at the end of the block. -/
structure Current (f k : Func) (slot : ValueId) (t : Ty) (b : BlockId) (c : ValueId)
    (l : List ValueId) : Prop where
  type : (k.value c).type = t
  store : (k.value c).op = .store → f.Mentions c
  ready : (k.value c).op = .store ∨ ∃ d, (k.value c).block = some d ∧ (d ≠ b ∧ f.Dominates d b ∨
    d = b ∧ ∀ u ∈ l, f.Accesses slot u → [c, u].Sublist (k.block b).values)

theorem Current.mono {l' : List ValueId} (h : Current f k slot t b c l) (hl : ∀ u ∈ l', u ∈ l) :
    Current f k slot t b c l' := by
  refine ⟨h.type, h.store, h.ready.imp_right fun hready => ?_⟩
  obtain ⟨d, hd, hor⟩ := hready
  exact ⟨d, hd, hor.imp_right fun hin => ⟨hin.1, fun u hu ha => hin.2 u (hl u hu) ha⟩⟩

theorem Current.before (h : Current f k slot t b c l) (hg : SameGraph f k) (hu : u ∈ l)
    (ha : f.Accesses slot u) : k.Before (.value c) u b := by
  refine ⟨c, rfl, h.ready.imp_right fun hready => ?_⟩
  obtain ⟨d, hd, hor⟩ := hready
  refine ⟨by rw [hd]; rfl, fun _ => ⟨d, hd, ?_⟩⟩
  rcases hor with ⟨hne, hdom⟩ | ⟨rfl, hall⟩
  · exact .inr ⟨hne, hg.dominates.mpr hdom⟩
  · exact .inl ⟨rfl, hall u hu ha⟩

theorem Current.atEnd (h : Current f k slot t b c l) (hg : SameGraph f k) :
    k.AtEnd (.value c) b := by
  refine ⟨c, rfl, h.ready.imp_right fun hready => ?_⟩
  obtain ⟨d, hd, hor⟩ := hready
  refine ⟨d, hd, fun _ => hg.dominates.mpr ?_⟩
  rcases hor with ⟨-, hdom⟩ | ⟨rfl, -⟩
  · exact hdom
  · exact .refl _ _ _

/-- The read is renamed to a value of the slot's type that can be read in its place. -/
structure Resolved (f k : Func) (t : Ty) (σ : ValueId → ValueId) (b : BlockId) (v : ValueId) :
    Prop where
  type : (k.value (σ v)).type = t
  store : (k.value (σ v)).op = .store → f.Mentions (σ v)
  before : k.Before (.value (σ v)) v b

section walked

variable (hp : Promoting f slot t dom blank)
  (h : Walked f slot t dom phis blank f.Reached k σ args out)
include hp h

/-- What is written stays current. -/
theorem current_written (hb : b ∈ f.layout) (hr : f.Reached b)
    (hvals : (f.block b).values = pre ++ v :: l) (hw : f.Writes slot v w)
    (hres : ∀ d ∈ f.layout, ∀ x ∈ (f.block d).values, f.Reads slot x →
      d ≠ b ∧ f.Dominates d b ∨ d = b ∧ x ∈ pre → Resolved f k t σ d x) :
    Current f k slot t b (σ w) l := by
  have hv : v ∈ (f.block b).values := by simp [hvals]
  have hkl := h.renamed.listing hp.ssa.listing
  have hbefore := hp.ssa.before hb hv (by simp [hw.1]) (by simp [hw.1])
    (show .value w ∈ (f.value v).args by simp [hw.2])
  have hmention : f.Mentions w := ⟨b, hb, v, hv, by simp [hw.2]⟩
  have hwt : (f.value w).type = t := by
    rcases hp.promotable.uses b hb v hv (by simp [hw.2]) with ⟨hr', -⟩ | ⟨w', -, hw', -, ht⟩
    · exact absurd (hw.1.symm.trans hr'.1) (by simp)
    · obtain rfl : w' = w := by simpa using hw'.2.symm.trans hw.2
      exact ht
  have hkbefore : k.Before (.value w) v b := hbefore.stays h.renamed.graph.narrows
    (fun x hx => h.renamed.stays (by obtain rfl : w = x := by simpa using hx
                                     exact hbefore.lt)) fun _ _ _ hs => hs.trans h.renamed.sublist
  -- what the write reads in `k` can be read there, and has the right type
  have hthere : (k.value (σ w)).type = t ∧ ((k.value (σ w)).op = .store → f.Mentions (σ w)) ∧
      k.Before (.value (σ w)) v b := by
    by_cases hread : f.Reads slot w
    · obtain ⟨w', hw', hor⟩ := hbefore
      obtain rfl : w = w' := by simpa using hw'
      obtain ⟨d, hd, hor⟩ := (hor.resolve_left (by simp [hread.1])).2 hr
      obtain ⟨hdl, hwd⟩ := (hp.ssa.listing.listed w d).mp hd
      have hR : Resolved f k t σ d w := hres d hdl w hwd hread <| by
        rcases hor with ⟨rfl, hsub⟩ | hor
        · refine .inr ⟨rfl, ?_⟩
          have hnd := hp.ssa.listing.nodup d hb
          rw [hvals] at hnd hsub
          exact sublist_pair_split hnd hsub
        · exact .inl hor
      have hop := h.renamed.op (hp.ssa.listing.lt hdl hwd)
      exact ⟨hR.type, hR.store, .trans hkl (h.renamed.graph.layout ▸ hb)
        (h.renamed.graph.layout ▸ hdl) (h.renamed.mem_values.mpr (.inr hwd))
        (by simp [hop.1, hread.1]) hR.before hkbefore⟩
    · rw [h.resolves.fixed w hread]
      have hop := h.renamed.op hbefore.lt
      exact ⟨hop.2.1.trans hwt, fun _ => hmention, hkbefore⟩
  obtain ⟨ht, hst, w', hw', hor⟩ := hthere
  obtain hww : σ w = w' := by simpa using hw'
  subst hww
  refine ⟨ht, hst, hor.imp_right fun hor => ?_⟩
  obtain ⟨d, hd, hor⟩ := hor.2 (h.renamed.graph.reached.mpr hr)
  refine ⟨d, hd, ?_⟩
  rcases hor with ⟨rfl, hsub⟩ | ⟨hne, hdom⟩
  · refine .inr ⟨rfl, fun u hu _ => ?_⟩
    have hvu : [v, u].Sublist (k.block d).values := by
      refine List.Sublist.trans ?_ h.renamed.sublist
      rw [hvals]
      exact ((List.singleton_sublist.mpr hu).cons_cons v).trans (List.sublist_append_right _ _)
    exact sublist_pair_trans (hkl.nodup d (h.renamed.graph.layout ▸ hb)) hsub hvu
  · exact .inl ⟨hne, h.renamed.graph.dominates.mp hdom⟩

/-- The reads of one block are resolved, and what is current at its end can be read there. -/
theorem current_threads (hb : b ∈ f.layout) (hr : f.Reached b) {e : ValueId}
    (ht : Threads f slot σ c l e) : ∀ {pre}, (f.block b).values = pre ++ l →
      Current f k slot t b c l →
      (∀ d ∈ f.layout, ∀ x ∈ (f.block d).values, f.Reads slot x →
        d ≠ b ∧ f.Dominates d b ∨ d = b ∧ x ∈ pre → Resolved f k t σ d x) →
      (∀ x ∈ l, f.Reads slot x → Resolved f k t σ b x) ∧ Current f k slot t b e [] := by
  induction ht with
  | nil => exact fun _ hc _ => ⟨by simp, hc⟩
  | @read c e v l hread hσ _ _ ih =>
    intro pre hvals hc hres
    have hv : Resolved f k t σ b v := by
      subst hσ
      exact ⟨hc.type, hc.store, hc.before h.renamed.graph List.mem_cons_self (.inl hread)⟩
    obtain ⟨hall, hend⟩ := ih (show _ = (pre ++ [v]) ++ l by simp [hvals])
      (hc.mono fun u hu => List.mem_cons_of_mem _ hu) fun d hd x hx hxr hor => by
        rcases hor with hor | ⟨rfl, hx'⟩
        · exact hres d hd x hx hxr (.inl hor)
        · rcases List.mem_append.mp hx' with hx' | hx'
          · exact hres d hd x hx hxr (.inr ⟨rfl, hx'⟩)
          · obtain rfl := List.mem_singleton.mp hx'
            exact hv
    exact ⟨fun x hx hxr => (List.mem_cons.mp hx).elim (fun heq => heq ▸ hv) fun hx => hall x hx hxr,
      hend⟩
  | @write c e v w l hw _ _ ih =>
    intro pre hvals _ hres
    obtain ⟨hall, hend⟩ := ih (show _ = (pre ++ [v]) ++ l by simp [hvals])
      (current_written hp h hb hr hvals hw hres) fun d hd x hx hxr hor => by
        rcases hor with hor | ⟨rfl, hx'⟩
        · exact hres d hd x hx hxr (.inl hor)
        · rcases List.mem_append.mp hx' with hx' | hx'
          · exact hres d hd x hx hxr (.inr ⟨rfl, hx'⟩)
          · obtain rfl := List.mem_singleton.mp hx'
            exact absurd (hw.1.symm.trans hxr.1) (by simp)
    refine ⟨fun x hx hxr => (List.mem_cons.mp hx).elim (fun heq => ?_) fun hx => hall x hx hxr, hend⟩
    subst heq
    exact absurd (hw.1.symm.trans hxr.1) (by simp)
  | @other c e v l hno _ ih =>
    intro pre hvals hc hres
    obtain ⟨hall, hend⟩ := ih (show _ = (pre ++ [v]) ++ l by simp [hvals])
      (hc.mono fun u hu => List.mem_cons_of_mem _ hu) fun d hd x hx hxr hor => by
        rcases hor with hor | ⟨rfl, hx'⟩
        · exact hres d hd x hx hxr (.inl hor)
        · rcases List.mem_append.mp hx' with hx' | hx'
          · exact hres d hd x hx hxr (.inr ⟨rfl, hx'⟩)
          · obtain rfl := List.mem_singleton.mp hx'
            exact absurd (.inl hxr) hno
    exact ⟨fun x hx hxr => (List.mem_cons.mp hx).elim (fun heq => absurd (.inl (heq ▸ hxr)) hno)
      fun hx => hall x hx hxr, hend⟩

/-- What is current where a block begins can be read from its accesses on. -/
theorem current_start (hr : f.Reached b)
    (hout : ∀ d, dom.idom? b = some d → Current f k slot t d (out d) []) :
    Current f k slot t b (startValue dom phis blank out b) (f.block b).values := by
  unfold startValue
  split
  · next phi hphi =>
    obtain ⟨-, -, hval⟩ := h.renamed.new b phi hphi
    refine ⟨by rw [hval], by simp [hval], .inr ⟨b, by rw [hval], .inr ⟨rfl, fun u hu _ => ?_⟩⟩⟩
    rw [h.renamed.values, hphi]
    exact sublist_phi_cons hu
  · split
    · next d hd =>
      have hbe : b ≠ f.start := by
        rintro rfl
        rw [hp.tree.idom?_eq, if_pos rfl] at hd
        cases hd
      obtain ⟨d', hd', -, hne, hdb, -⟩ := hp.tree.idom?_spec hr hbe
      obtain rfl : d = d' := Option.some.inj (hd.symm.trans hd')
      have hc := hout d hd
      refine ⟨hc.type, hc.store, hc.ready.imp_right fun hready => ?_⟩
      obtain ⟨e, he, hor⟩ := hready
      have hed : f.Dominates e d := hor.elim (·.2) fun heq => heq.1 ▸ .refl _ _ _
      refine ⟨e, he, .inl ⟨?_, hed.trans hdb⟩⟩
      rintro rfl
      exact hne (hdb.antisymm hr hed)
    · next hnone =>
      obtain rfl : b = f.start := by
        by_contra hbe
        obtain ⟨d, hd, -⟩ := hp.tree.idom?_spec hr hbe
        exact absurd (hnone.symm.trans hd) (by simp)
      have hlt := hp.ssa.listing.lt hp.ssa.flow.start_mem hp.listed
      obtain ⟨hop, hty, hblock⟩ := h.renamed.op hlt
      refine ⟨hty.trans hp.type, by simp [hop, hp.const], .inr ⟨f.start, hblock.trans
        ((hp.ssa.listing.listed _ _).mpr ⟨hp.ssa.flow.start_mem, hp.listed⟩), .inr ⟨rfl,
        fun u hu ha => (hp.first u hu ?_ ?_ ?_).trans h.renamed.sublist⟩⟩⟩
      · rcases ha with ha | ⟨w, ha⟩ <;> simp [ha.1]
      · rcases ha with ha | ⟨w, ha⟩ <;> simp [ha.1]
      · rintro rfl
        rcases ha with ha | ⟨w, ha⟩ <;> exact absurd (hp.const.symm.trans ha.1) (by simp)

/-- All reads are resolved, and what is current at the end of a block can be read there. -/
theorem resolved_all (hr : f.Reached b) :
    (∀ x ∈ (f.block b).values, f.Reads slot x → Resolved f k t σ b x) ∧
      Current f k slot t b (out b) [] := by
  induction hn : dom.rpo.idxOf b using Nat.strongRecOn generalizing b with
  | _ n ih =>
    subst hn
    refine current_threads hp h (hp.ssa.flow.reached_mem hr) hr (h.threads b hr) (List.nil_append _).symm
      (current_start hp h hr fun d hd => ?_) fun d hd x hx hxr hor => ?_
    · have hlt := hp.tree.idxOf_idom hd
      exact (ih _ hlt (h.up b hr d hd) rfl).2
    · obtain ⟨hne, hdom⟩ := hor.resolve_right fun hn => by simp at hn
      exact (ih _ (hp.tree.idxOf_dom hr hdom hne) (hdom.reach hr) rfl).1 x hx hxr

/-- Whatever the read could be put for can be read wherever the read can be. -/
theorem resolves_reads (hread : f.Reads slot v) (hd : d ∈ f.layout) (hv : v ∈ (f.block d).values) :
    Resolved f k t σ d v ∧ (k.value v).op ≠ .store ∧ (f.value v).type = t := by
  refine ⟨(resolved_all hp h (hp.reached d hd)).1 v hv hread, ?_, ?_⟩
  · rw [(h.renamed.op (hp.ssa.listing.lt hd hv)).1, hread.1]
    simp
  · rcases hp.promotable.uses d hd v hv (by simp [hread.2]) with ⟨-, -, ht⟩ | ⟨w, -, hw, -⟩
    · exact ht
    · exact absurd (hread.1.symm.trans hw.1) (by simp)

/-- The operand of the renamed function has the type of the operand it comes from. -/
theorem operandType_renamed (ho : ∀ v, o = .value v → (f.value v).op = .store ∨ f.IsListed v) :
    k.operandType (rename σ o) = f.operandType o := by
  cases o with
  | missing => rfl
  | foreign n => rfl
  | value v =>
    change (k.value (σ v)).type = (f.value v).type
    by_cases hread : f.Reads slot v
    · obtain ⟨d, hd, hv⟩ := (ho v rfl).resolve_left (by simp [hread.1])
      obtain ⟨hR, -, hty⟩ := resolves_reads hp h hread hd hv
      exact hR.type.trans hty.symm
    · rw [h.resolves.fixed v hread]
      refine (h.renamed.op ?_).2.1
      rcases ho v rfl with hstore | ⟨d, hd, hv⟩
      · exact lt_of_store hstore
      · exact hp.ssa.listing.lt hd hv

theorem atEnd_renamed (ho : f.AtEnd o b) : k.AtEnd (rename σ o) b := by
  obtain ⟨v, rfl, -⟩ := id ho
  have hk : k.AtEnd (.value v) b := ho.stays h.renamed.graph.narrows fun x hx =>
    h.renamed.stays (by obtain rfl : v = x := by simpa using hx
                        exact ho.lt)
  change k.AtEnd (.value (σ v)) b
  by_cases hread : f.Reads slot v
  · obtain ⟨d, hd, hv⟩ := (ho.listed hp.ssa.listing).resolve_left (by simp [hread.1])
    obtain ⟨hR, hst, -⟩ := resolves_reads hp h hread hd hv
    exact .of_before (h.renamed.listing hp.ssa.listing) (h.renamed.graph.layout ▸ hd)
      (h.renamed.mem_values.mpr (.inr hv)) hst hR.before hk
  · rwa [h.resolves.fixed v hread]

theorem before_renamed (hb : b ∈ f.layout) (ho : f.Before o u b) : k.Before (rename σ o) u b := by
  obtain ⟨v, rfl, -⟩ := id ho
  have hk : k.Before (.value v) u b := ho.stays h.renamed.graph.narrows (fun x hx =>
    h.renamed.stays (by obtain rfl : v = x := by simpa using hx
                        exact ho.lt)) fun _ _ _ hs => hs.trans h.renamed.sublist
  change k.Before (.value (σ v)) u b
  by_cases hread : f.Reads slot v
  · obtain ⟨d, hd, hv⟩ := (ho.listed hp.ssa.listing).resolve_left (by simp [hread.1])
    obtain ⟨hR, hst, -⟩ := resolves_reads hp h hread hd hv
    exact .trans (h.renamed.listing hp.ssa.listing) (h.renamed.graph.layout ▸ hb)
      (h.renamed.graph.layout ▸ hd) (h.renamed.mem_values.mpr (.inr hv)) hst hR.before hk
  · rwa [h.resolves.fixed v hread]

/-- What a placed phi takes. -/
theorem placed_args (hx : phis.lookup b = some x) :
    (k.value x).args = (f.block b).preds.map fun q => .value (out q) := by
  obtain ⟨-, -, hval⟩ := h.renamed.new b x hx
  have hb := (h.renamed.mem b x hx).1
  rw [hval]
  refine List.map_congr_left fun q hq => h.args b q (hp.reached q (hp.ssa.flow.preds_mem b hb q hq)) ?_
  rw [next, ← List.count_pos_iff, hp.ssa.flow.edges q (hp.ssa.flow.preds_mem b hb q hq) b hb]
  exact List.count_pos_iff.mpr hq

/-- What a block lists after the walk is its placed phi, or has been renamed where it stood. -/
theorem renamed_listed (hb : b ∈ f.layout) (hv : v ∈ (k.block b).values) :
    phis.lookup b = some v ∧ (k.value v).op = .phi ∧ (k.value v).type = t ∨
      v ∈ (f.block b).values ∧ phis.lookup b ≠ some v ∧ k.value v =
        { f.value v with args := (f.value v).args.map (rename σ) } := by
  rcases h.renamed.mem_values.mp hv with hv | hv
  · obtain ⟨-, -, hval⟩ := h.renamed.new b v hv
    exact .inl ⟨hv, by rw [hval], by rw [hval]⟩
  · exact .inr ⟨hv, h.renamed.ne_phi (hp.ssa.listing.lt hb hv), h.renamed.old b hb v hv⟩

theorem renamed_ends (hb : b ∈ f.layout) : k.EndsWell b := by
  refine (hp.ssa.ends b hb).transfer (h.renamed.kind b) (by rw [h.renamed.graph.succs])
    h.renamed.ret ?_ fun hctl => ?_
  · rw [h.renamed.control b hb]
    cases (f.block b).control <;> simp [rename]
  · rw [h.renamed.control b hb]
    refine ⟨atEnd_renamed hp h hctl, operandType_renamed hp h fun v hv => ?_⟩
    exact (hv ▸ hctl).listed hp.ssa.listing

theorem renamed_phisFirst (hb : b ∈ f.layout) (hs : [x, u].Sublist (k.block b).values)
    (hphi : (k.value u).op = .phi) : (k.value x).op = .phi ∨ (k.value x).op = .param := by
  have hxk : x ∈ (k.block b).values := hs.subset (by simp)
  have huk : u ∈ (k.block b).values := hs.subset (by simp)
  rcases renamed_listed hp h hb hxk with ⟨-, hop, -⟩ | ⟨hx, hxn, hxv⟩
  · exact .inl hop
  rcases renamed_listed hp h hb huk with ⟨hul, -, -⟩ | ⟨hum, hun, huv⟩
  · -- nothing comes before the placed phi
    have hnd := (h.renamed.listing hp.ssa.listing).nodup b (h.renamed.graph.layout ▸ hb)
    have hlist := h.renamed.values b
    rw [hul] at hlist
    rw [hlist] at hs hnd
    exact absurd (@sublist_pair_split _ _ [] _ hnd hs) List.not_mem_nil
  · rw [hxv]
    rw [huv] at hphi
    refine hp.ssa.phisFirst b hb x u ?_ hphi
    have hlist : (k.block b).values.filter (fun y => decide (phis.lookup b ≠ some y)) =
        (f.block b).values := by
      rw [h.renamed.values, List.filter_append,
        List.filter_eq_nil_iff.mpr fun y hy => by simpa using hy, List.nil_append]
      exact List.filter_eq_self.mpr fun y hy => by
        simpa using h.renamed.ne_phi (hp.ssa.listing.lt hb hy)
    have hfilter := hs.filter fun y => decide (phis.lookup b ≠ some y)
    rw [hlist] at hfilter
    simpa [hxn, hun] using hfilter

/-- A placed phi takes from each predecessor what is current at its end. -/
theorem placed_phiWell (hb : b ∈ f.layout) (hv : phis.lookup b = some v)
    (hty : (k.value v).type = t) : k.PhiWell b v := by
  have hg := h.renamed.graph
  unfold PhiWell
  rw [placed_args hp h hv, hg.preds, List.length_map]
  refine ⟨rfl, fun y hy => ?_⟩
  obtain ⟨i, hi⟩ := List.getElem?_of_mem hy
  rw [List.getElem?_zip_eq_some, List.getElem?_map, Option.map_eq_some_iff] at hi
  obtain ⟨⟨q, hq, hqy⟩, hq'⟩ := hi
  obtain rfl := Option.some.inj (hq.symm.trans hq')
  have hqr := hp.reached _ (hp.ssa.flow.preds_mem b hb _ (List.mem_of_getElem? hq))
  have hc := (resolved_all hp h hqr).2
  rw [← hqy]
  exact ⟨hc.type.trans hty.symm, hc.atEnd hg⟩

theorem renamed_phiWell (hb : b ∈ f.layout) (hv : v ∈ (f.block b).values)
    (hphi : (f.value v).op = .phi) : k.PhiWell b v := by
  obtain ⟨hlen, hall⟩ := hp.ssa.phis b hb v hv hphi
  unfold PhiWell
  rw [h.renamed.old b hb v hv, h.renamed.graph.preds]
  refine ⟨by simpa using hlen, fun y hy => ?_⟩
  rw [List.zip_map_left, List.mem_map] at hy
  obtain ⟨⟨a, q⟩, hz, rfl⟩ := hy
  obtain ⟨hty, hend⟩ := hall _ hz
  exact ⟨(operandType_renamed hp h fun x hx => (hx ▸ hend).listed hp.ssa.listing).trans hty,
    atEnd_renamed hp h hend⟩

theorem renamed_valueWell (hb : b ∈ f.layout) (hv : v ∈ (f.block b).values)
    (hphi : (f.value v).op ≠ .phi) : k.ValueWell b v := by
  obtain ⟨hbefore, htyped⟩ := hp.ssa.values b hb v hv hphi
  unfold ValueWell
  rw [h.renamed.old b hb v hv, h.renamed.graph.start]
  refine ⟨fun hparam o ho => ?_, ?_⟩
  · obtain ⟨o', ho', rfl⟩ := List.mem_map.mp ho
    exact before_renamed hp h hb (hbefore hparam o' ho')
  · by_cases hparam : (f.value v).op = .param
    · exact wellTyped_param hparam
    · have htypes : k.argTypes { f.value v with args := (f.value v).args.map (rename σ) } =
          f.argTypes (f.value v) := by
        simp only [argTypes, List.map_map]
        exact List.map_congr_left fun o ho => operandType_renamed hp h fun x hx =>
          hp.listed_arg hb hv hparam (hx ▸ ho)
      rw [htypes, wellTyped_args]
      exact htyped

theorem renamed_ssa : k.Ssa := by
  have hg := h.renamed.graph
  refine ⟨hg.flow hp.ssa.flow, h.renamed.listing hp.ssa.listing, fun v hv => ?_, fun b hb => ?_,
    fun b hb x u hs hphi => ?_, fun b hb v hv hphi => ?_, fun b hb v hv hphi => ?_⟩
  · rw [hg.start] at hv
    rcases renamed_listed hp h hp.ssa.flow.start_mem hv with ⟨hv, -⟩ | ⟨hv, -, hval⟩
    · exact absurd rfl (h.renamed.mem _ v hv).2
    · rw [hval]
      exact hp.ssa.entry_phis v hv
  · exact renamed_ends hp h (hg.layout ▸ hb)
  · exact renamed_phisFirst hp h (hg.layout ▸ hb) hs hphi
  · rw [hg.layout] at hb
    rcases renamed_listed hp h hb hv with ⟨hv, -, hty⟩ | ⟨hv, -, hval⟩
    · exact placed_phiWell hp h hb hv hty
    · exact renamed_phiWell hp h hb hv (by rwa [hval] at hphi)
  · rw [hg.layout] at hb
    rcases renamed_listed hp h hb hv with ⟨-, hop, -⟩ | ⟨hv, -, hval⟩
    · exact absurd hop hphi
    · exact renamed_valueWell hp h hb hv (by rwa [hval] at hphi)

/-- No value is renamed to a read of the slot that is listed. -/
theorem resolved_clean (hx : f.IsListed (σ x)) : ¬ f.Reads slot (σ x) := by
  rcases h.resolves.clean x with heq | hclean
  · obtain ⟨d, hd, hxd⟩ := heq ▸ hx
    exact fun hread => h.read d (hp.reached d hd) x hxd (heq ▸ hread) heq
  · exact hclean.1

omit hp in
/-- Values keep all but their arguments, and what comes new is phis. -/
theorem renamed_each {P : Value → Prop} (hP : ∀ y s, P y → P { y with args := y.args.map s })
    (hphi : ∀ b a, P { op := .phi, type := t, args := a, block := some b }) (hf : f.Each P) : k.Each P := by
  intro b hb v hv
  rw [h.renamed.graph.layout] at hb
  rcases h.renamed.mem_values.mp hv with hv | hv
  · rw [(h.renamed.new b v hv).2.2]
    exact hphi b _
  · rw [h.renamed.old b hb v hv]
    exact hP _ _ (hf b hb v hv)

/-- If a value is renamed to another that is a store, then that store was written to the slot. -/
theorem eq_or_mentions (hst : (k.value (σ v)).op = .store) : σ v = v ∨ f.Mentions (σ v) := by
  by_cases hσ : σ v = v
  · exact .inl hσ
  · obtain ⟨d, hd, hv⟩ := h.resolves.listed v hσ
    have hread : f.Reads slot v := by
      by_contra hno
      exact hσ (h.resolves.fixed v hno)
    exact .inr ((resolves_reads hp h hread hd hv).1.store hst)

/-- No other stores become operands. -/
theorem mentions_of_renamed (hm : k.Mentions x) (hst : (k.value x).op = .store) : f.Mentions x := by
  obtain ⟨b, hb, v, hv, hx⟩ := hm
  rw [h.renamed.graph.layout] at hb
  rcases h.renamed.mem_values.mp hv with hv | hv
  · rw [placed_args hp h hv] at hx
    obtain ⟨q, hq, hqx⟩ := List.mem_map.mp hx
    obtain rfl : out q = x := by simpa using hqx
    exact (resolved_all hp h (hp.reached q (hp.ssa.flow.preds_mem b hb q hq))).2.store hst
  · rw [h.renamed.old b hb v hv] at hx
    obtain ⟨o, ho, hox⟩ := List.mem_map.mp hx
    cases o with
    | missing => cases hox
    | foreign n => cases hox
    | value a =>
      obtain rfl : σ a = x := by simpa [rename] using hox
      refine (eq_or_mentions hp h hst).elim (fun heq => ?_) id
      rw [heq]
      exact ⟨b, hb, v, hv, ho⟩

theorem renamed_storesVoid (hf : f.StoresVoid) : k.StoresVoid := by
  intro b hb v hv a ha hst
  obtain ⟨c, hc, u, hu, hau⟩ := mentions_of_renamed hp h ⟨b, hb, v, hv, ha⟩ hst
  have hfst := h.renamed.store_iff.mp hst
  rw [(h.renamed.op (lt_of_store hfst)).2.1]
  exact hf c hc u hu a hau hfst

theorem renamed_storesUnused (hf : f.StoresUnused) : k.StoresUnused := by
  have hno : ∀ {x}, f.Mentions x → (k.value x).op ≠ .store := fun hm hst => by
    obtain ⟨b, hb, v, hv, hx⟩ := hm
    exact (hf b hb).1 v hv _ hx (h.renamed.store_iff.mp hst)
  refine fun b hb => ⟨fun v hv w hw hst => ?_, fun w hw hst => ?_⟩
  · exact hno (mentions_of_renamed hp h ⟨b, hb, v, hv, hw⟩ hst) hst
  · rw [h.renamed.graph.layout] at hb
    rw [h.renamed.control b hb] at hw
    cases hctl : (f.block b).control with
    | missing => simp [hctl, rename] at hw
    | foreign n => simp [hctl, rename] at hw
    | value a =>
      obtain rfl : σ a = w := by simpa [hctl, rename] using hw
      rcases eq_or_mentions hp h hst with heq | hm
      · rw [heq] at hst
        exact (hf b hb).2 a hctl (h.renamed.store_iff.mp hst)
      · exact hno hm hst

theorem renamed_tidy (hf : f.Tidy strict) (ht : t.Valid) : k.Tidy strict := by
  refine tidy_of (renamed_each h (fun _ _ hy => hy.with_args) (fun b a => ?_) hf.each)
    (renamed_storesUnused hp h hf.stores) fun hs b hb hbr hret => ?_
  · exact ⟨fun _ hl => by simp [Value.constLanes, Value.isConst] at hl, ht, fun _ hop => by cases hop⟩
  · rw [h.renamed.graph.layout] at hb
    rw [h.renamed.kind] at hbr hret
    rw [h.renamed.control b hb, hf.ends hs b hb hbr hret]
    rfl

/-- Nothing reads what is given up: neither a read of the slot, nor the slot itself once its accesses are
given up. -/
theorem renamed_unread {keep : ValueId → Bool}
    (hkeep : ∀ v, keep v = false → (∃ b ∈ f.layout, v ∈ (f.block b).values ∧ f.Accesses slot v) ∨
      v = slot ∧ ∀ b ∈ f.layout, ∀ u ∈ (f.block b).values, f.Accesses slot u → keep u = false) :
    k.Unread keep := by
  have hg := h.renamed.graph
  have hstore : ∀ {d w v}, d ∈ f.layout → v ∈ (f.block d).values → f.Writes slot v w →
      (k.value v).op = .store := fun hd hv hw => by
    rw [(h.renamed.op (hp.ssa.listing.lt hd hv)).1, hw.1]
  -- a value that is read and given up was no read and not the slot
  have hgone : ∀ {x v}, σ x = v → keep v = false → (k.value v).op = .store ∨ x = slot ∧
      ∀ b ∈ f.layout, ∀ u ∈ (f.block b).values, f.Accesses slot u → keep u = false := by
    rintro x v rfl hv
    rcases hkeep _ hv with ⟨d, hd, hmem, hread | ⟨w, hw⟩⟩ | ⟨heq, hall⟩
    · exact absurd hread (resolved_clean hp h ⟨d, hd, hmem⟩)
    · exact .inl (hstore hd hmem hw)
    · exact .inr ⟨(h.resolves.eq_slot hp.not_reads).mp heq, hall⟩
  refine ⟨fun b hb u hu hku _ v hv => ?_, fun b hb v hv => ?_⟩
  · rw [hg.layout] at hb
    cases hkv : keep v with
    | true => exact .inl rfl
    | false =>
      refine .inr ?_
      rcases h.renamed.mem_values.mp hu with hu | hu
      · rw [placed_args hp h hu] at hv
        obtain ⟨q, hq, hqv⟩ := List.mem_map.mp hv
        obtain rfl : out q = v := by simpa using hqv
        have hclean := h.clean q (hp.reached q (hp.ssa.flow.preds_mem b hb q hq))
        rcases hkeep _ hkv with ⟨d, hd, hmem, hread | ⟨w, hw⟩⟩ | ⟨heq, -⟩
        · exact absurd hread hclean.1
        · exact hstore hd hmem hw
        · exact absurd heq hclean.2
      · rw [h.renamed.old b hb u hu] at hv
        obtain ⟨o, ho, hov⟩ := List.mem_map.mp hv
        cases o with
        | missing => cases hov
        | foreign n => cases hov
        | value x =>
          have hov : σ x = v := by simpa [rename] using hov
          rcases hgone hov hkv with hst | ⟨rfl, hall⟩
          · exact hst
          · have hacc : f.Accesses x u := (hp.promotable.uses b hb u hu ho).imp (·.1)
              fun hw => ⟨hw.choose, hw.choose_spec.2.1⟩
            rw [hall b hb u hu hacc] at hku
            cases hku
  · rw [hg.layout] at hb
    rw [h.renamed.control b hb] at hv
    cases hkv : keep v with
    | true => exact .inl rfl
    | false =>
      refine .inr ?_
      cases hctl : (f.block b).control with
      | missing => simp [hctl, rename] at hv
      | foreign n => simp [hctl, rename] at hv
      | value x =>
        have hov : σ x = v := by simpa [hctl, rename] using hv
        rcases hgone hov hkv with hst | ⟨rfl, -⟩
        · exact hst
        · exact absurd hctl (hp.promotable.control b hb)

end walked

end SsaJit.Func
