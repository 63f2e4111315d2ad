import SsaJit.Proofs.Exec.CommonValue
import SsaJit.Proofs.Exec.Private
import SsaJit.Proofs.Pass.Promote

/-! Promoting slots leaves functions running as before, but that the slots are gone from memory. While a
slot is there, it holds what the value current at that point is in the promoted function: at a read the
two agree because of it, a write makes the value written current, and a phi takes from each predecessor
what the slot holds at its end. Nothing but its reads and writes knows the slot, so to all else, calls
and the memory outside among it, the two memories are one. -/

namespace SsaJit.Func

variable {W : Outside} {f g k : Func} {b c d e q : BlockId} {slot u v w x blank cur : ValueId}
  {o : Operand} {t : Ty} {phis : PlacedPhis} {σ : ValueId → ValueId}
  {args : BlockId → BlockId → Operand} {dom : DomTree} {out : BlockId → ValueId}
  {keep : ValueId → Bool} {pre post : List ValueId} {s r : W.interp.State}

/-! ## Constants -/

/-- What a constant is has the lanes of its type. -/
theorem holds_const (hs : f.Ssa) (hc : f.ConstsFit) (hb : b ∈ f.layout) (hv : v ∈ (f.block b).values)
    (hconst : (f.value v).op = .const) :
    (f.value v).type.Holds (((f.value v).constLanes.getD []).map .bits) := by
  have hty := hs.typed hb hv (by simp [hconst])
  simp only [WellTyped, hconst, Op.isBinary, Op.isCast, Bool.false_eq_true, if_false] at hty
  have hfit := hc b hb v hv
  have hlen : ((f.value v).constLanes.getD []).length = (f.value v).type.numLanes := by
    simp only [Value.constLanes, Value.isConst, hconst, beq_self_eq_true, Bool.not_true,
      Bool.false_eq_true, if_false]
    split
    · next hvec => exact hty hvec
    · next hvec =>
      cases htype : (f.value v).type with
      | scalar k => rfl
      | vec e n => simp [htype, Ty.isVector] at hvec
  refine ⟨by rw [List.length_map, hlen], fun x hx => ?_⟩
  obtain ⟨w, hw, rfl⟩ := List.mem_map.mp hx
  cases hl : (f.value v).constLanes with
  | none => simp [hl] at hw
  | some lanes =>
    rw [hl] at hw
    exact hfit lanes hl w hw

/-! ## What can be read before and after -/

theorem Known.of_snoc (h : f.Known b (pre ++ [x]) v) (hx : (f.value x).block = some b) :
    f.Known b pre v ∨ v = x ∧ (f.value x).op ≠ .phi := by
  by_cases hvx : v = x ∧ (f.value x).op ≠ .phi
  · exact .inr hvx
  · refine .inl ⟨h.1, ?_⟩
    obtain ⟨-, d, hd, hor⟩ := h
    refine ⟨d, hd, hor.imp_left fun ⟨heq, hor⟩ => ⟨heq, hor.elim .inl fun hm => ?_⟩⟩
    rcases List.mem_append.mp hm with hm | hm
    · exact .inr hm
    · obtain rfl : v = x := by simpa using hm
      exact .inl (by simpa using hvx)

/-- A value that can be read is not the one computed next. -/
theorem Known.ne_next (h : f.Known b pre v) (hs : f.Ssa) (hr : f.Reached b)
    (hvals : (f.block b).values = pre ++ u :: post) (hphi : (f.value u).op ≠ .phi) : v ≠ u := by
  rintro rfl
  refine Behind.ne_of_known (.inl rfl) hs (hs.flow.reached_mem hr) hr hvals hphi h.1 h rfl

/-- The value can be read, or it is a store, which has no result and reads the same at all times. -/
def Readable (f : Func) (b : BlockId) (pre : List ValueId) (v : ValueId) : Prop :=
  (f.value v).op = .store ∨ f.Known b pre v

theorem Readable.mono (h : f.Readable b pre v) : f.Readable b (pre ++ post) v := h.imp_right (·.mono)

/-- No instruction gives a store anything. -/
theorem env_assign_of_store {z : List Lane × W.Memory} (hv : (f.value v).op = .store) :
    (s.assign x (f.value x).op z).env v = s.env v := by
  by_cases hvx : v = x
  · subst hvx
    simp [Interp.State.assign, hv]
  · simp only [Interp.State.assign]
    split
    · rfl
    · exact Function.update_of_ne hvx _ _

section walked

variable (hp : Promoting f slot t dom blank)
  (h : Walked f slot t dom phis blank f.Reached k σ args out)
include hp h

/-- What stands for a value that can be read can be read. -/
theorem Walked.readable (hr : f.Reached b) (hvals : (f.block b).values = pre ++ post)
    (hk : f.Readable b pre v) : k.Readable b ((phis.lookup b).toList ++ pre) (σ v) := by
  rcases hk with hst | hk
  · rw [h.resolves.fixed v fun hread => by simp [hread.1] at hst]
    exact .inl (h.renamed.store_iff.mpr hst)
  by_cases hσst : (k.value (σ v)).op = .store
  · exact .inl hσst
  refine .inr ?_
  obtain ⟨hst, d, hd, hor⟩ := hk
  obtain ⟨hdl, hv⟩ := (hp.ssa.listing.listed v d).mp hd
  obtain ⟨hop, -, hblock⟩ := h.renamed.op (hp.ssa.listing.lt hdl hv)
  have hg := h.renamed.graph
  have hkv : k.Known b ((phis.lookup b).toList ++ pre) v := by
    refine ⟨by rwa [hop], d, hblock.trans hd, ?_⟩
    rw [hop, hg.dominates, List.mem_append]
    exact hor.imp_left fun hin => ⟨hin.1, hin.2.imp_right .inr⟩
  by_cases hread : f.Reads slot v
  · obtain ⟨hR, -, -⟩ := resolves_reads hp h hread hdl hv
    obtain ⟨w, hw, hor'⟩ := hR.before
    obtain hww : σ v = w := by simpa using hw
    subst hww
    have hrd : k.Reached d := by
      obtain ⟨e, he, hre⟩ := hkv.reached (hg.reached.mpr hr)
      obtain rfl : d = e := Option.some.inj ((hblock.trans hd).symm.trans he)
      exact hre
    have hkvals : (k.block b).values = ((phis.lookup b).toList ++ pre) ++ post := by
      rw [h.renamed.values, hvals, List.append_assoc]
    exact hkv.of_earlier (renamed_ssa hp h) (hg.reached.mpr hr) hkvals (by simp [hop, hread.1])
      (hblock.trans hd) ((hor'.resolve_left hσst).2 hrd) hσst
  · rwa [h.resolves.fixed v hread]

/-- What stands for a value was computed no later. -/
theorem Walked.home (hd : (f.value v).block = some d) : (k.value (σ v)).op = .store ∨
    ∃ e, (k.value (σ v)).block = some e ∧ f.Dominates e d := by
  by_cases hσst : (k.value (σ v)).op = .store
  · exact .inl hσst
  refine .inr ?_
  obtain ⟨hdl, hv⟩ := (hp.ssa.listing.listed v d).mp hd
  by_cases hread : f.Reads slot v
  · obtain ⟨hR, -, -⟩ := resolves_reads hp h hread hdl hv
    obtain ⟨w, hw, hor⟩ := hR.before
    obtain hww : σ v = w := by simpa using hw
    subst hww
    have hg := h.renamed.graph
    obtain ⟨e, he, hor⟩ := (hor.resolve_left hσst).2 (hg.reached.mpr (hp.reached d hdl))
    refine ⟨e, he, ?_⟩
    rcases hor with ⟨rfl, -⟩ | ⟨-, hdom⟩
    · exact .refl _ _ _
    · exact hg.dominates.mp hdom
  · rw [h.resolves.fixed v hread]
    exact ⟨d, (h.renamed.op (hp.ssa.listing.lt hdl hv)).2.2.trans hd, .refl _ _ _⟩

/-- What is current where a block without a placed phi begins was computed before the block. -/
theorem Walked.start_behind (hr : f.Reached b) (hne : b ≠ f.start) (hnone : phis.lookup b = none) :
    (k.value (startValue dom phis blank out b)).op = .store ∨
      ∃ e, (k.value (startValue dom phis blank out b)).block = some e ∧ e ≠ b ∧ f.Dominates e b := by
  obtain ⟨d, hd, -, hdb, hdom, -⟩ := hp.tree.idom?_spec hr hne
  simp only [startValue, hnone, hd]
  refine (resolved_all hp h (h.up b hr d hd)).2.ready.imp_right fun hready => ?_
  obtain ⟨e, he, hor⟩ := hready
  have hed : f.Dominates e d := hor.elim (·.2) fun heq => heq.1 ▸ .refl _ _ _
  refine ⟨e, he, ?_, hed.trans hdom⟩
  rintro rfl
  exact hdb (hdom.antisymm hr hed)

theorem Walked.start_readable (hr : f.Reached b) (hne : b ≠ f.start) :
    k.Readable b (phis.lookup b).toList (startValue dom phis blank out b) := by
  by_cases hst : (k.value (startValue dom phis blank out b)).op = .store
  · exact .inl hst
  refine .inr ⟨hst, ?_⟩
  cases hphi : phis.lookup b with
  | some phi =>
    obtain ⟨-, -, hval⟩ := h.renamed.new b phi hphi
    simp only [startValue, hphi]
    exact ⟨b, by rw [hval], .inl ⟨rfl, .inl (by rw [hval])⟩⟩
  | none =>
    obtain ⟨e, he, heb, hdom⟩ := (h.start_behind hp hr hne hphi).resolve_left hst
    exact ⟨e, he, .inr ⟨heb, h.renamed.graph.dominates.mpr hdom⟩⟩

theorem Walked.ne_next (hr : f.Reached b) (hvals : (f.block b).values = pre ++ x :: post)
    (hphi : (f.value x).op ≠ .phi) (hk : k.Known b ((phis.lookup b).toList ++ pre) v) : v ≠ x := by
  have hx : x ∈ (f.block b).values := by simp [hvals]
  have hkvals : (k.block b).values = ((phis.lookup b).toList ++ pre) ++ x :: post := by
    rw [h.renamed.values, hvals, List.append_assoc]
  refine hk.ne_next (renamed_ssa hp h) (h.renamed.graph.reached.mpr hr) hkvals ?_
  rwa [(h.renamed.op (hp.ssa.listing.lt (hp.ssa.flow.reached_mem hr) hx)).1]

/-- What can be read is left as it is by the next instruction. -/
theorem Walked.env_assign (hr : f.Reached b) (hvals : (f.block b).values = pre ++ x :: post)
    (hphi : (f.value x).op ≠ .phi) (hk : k.Readable b ((phis.lookup b).toList ++ pre) v)
    {z : List Lane × W.Memory} : (r.assign x (f.value x).op z).env v = r.env v := by
  rcases hk with hst | hk
  · exact env_assign_of_store (h.renamed.store_iff.mp hst)
  · have hne := h.ne_next hp hr hvals hphi hk
    simp only [Interp.State.assign]
    split
    · rfl
    · exact Function.update_of_ne hne _ _

end walked

/-! ## One point -/

/-- The slot has been made, and holds what the current value is in the promoted function. -/
structure InSlot (k : Func) (slot : ValueId) (t : Ty) (phis : PlacedPhis) (b : BlockId)
    (pre : List ValueId) (cur : ValueId) (s r : W.interp.State) : Prop where
  address : s.env slot = [.address slot 0]
  readable : k.Readable b ((phis.lookup b).toList ++ pre) cur
  holds : t.Holds (r.env cur)
  apart : ¬ LeadsTo slot (r.env cur)
  cells : ∃ rest, s.mem.cells slot = cellsOf t.elemKind (r.env cur) ++ rest

/-- The states of both functions at a place in a block, where `cur` is current. -/
structure Mirrors (f k : Func) (slot : ValueId) (t : Ty) (blank : ValueId) (phis : PlacedPhis)
    (σ : ValueId → ValueId) (b : BlockId) (pre : List ValueId) (cur : ValueId) (s r : W.interp.State) :
    Prop where
  mem : r.mem = s.mem.without [slot]
  apart : s.mem.Apart slot
  env : ∀ v, f.Known b pre v → v ≠ slot →
    r.env (σ v) = s.env v ∧ (f.value v).type.Holds (s.env v) ∧ ¬ LeadsTo slot (s.env v)
  stores : ∀ v, (f.value v).op = .store → s.env v = [.bits 0] ∧ r.env v = [.bits 0]
  zero : f.Known b pre blank → s.env blank = (List.replicate t.numLanes 0).map .bits
  early : ¬ f.Known b pre slot → cur = blank
  made : f.Known b pre slot → InSlot k slot t phis b pre cur s r

section stores

variable (hM : Mirrors f k slot t blank phis σ b pre cur s r)
  (h : Walked f slot t dom phis blank f.Reached k σ args out) (hst : (f.value v).op = .store)
include hM h hst

theorem Mirrors.store_eq : r.env (σ v) = s.env v := by
  obtain ⟨hs, hr⟩ := hM.stores v hst
  rw [h.resolves.fixed v fun hread => by simp [hread.1] at hst, hs, hr]

/-- A store is to both functions what void is. -/
theorem Mirrors.of_store (hvoid : (f.value v).type = .void) : r.env (σ v) = s.env v ∧
    (f.value v).type.Holds (s.env v) ∧ ¬ LeadsTo slot (s.env v) := by
  refine ⟨hM.store_eq h hst, ?_⟩
  rw [(hM.stores v hst).1, hvoid]
  exact ⟨Ty.holds_zeros .void, not_leadsTo_bits [0]⟩

end stores

/-! ## One instruction -/

theorem env_assign_ne {op : Op} {z : List Lane × W.Memory} (h : v ≠ x) :
    (s.assign x op z).env v = s.env v := by
  simp only [Interp.State.assign]
  split
  · rfl
  · exact Function.update_of_ne h _ _

theorem env_assign {op : Op} {z : List Lane × W.Memory} (h : op ≠ .store) :
    (s.assign x op z).env x = z.1 := by
  simp only [Interp.State.assign, if_neg h]
  exact Function.update_self ..

/-- An instruction that is no constant does what its meaning says. -/
theorem exec_of_ok {z : List Lane × W.Memory} (hphi : (f.value x).op ≠ .phi)
    (hconst : (f.value x).op ≠ .const)
    (h : s.mem.exec x (f.value x).bare ((f.value x).reads.map f.operandType)
      ((f.value x).reads.map s.get) = .ok z) : f.exec s x = .ok (s.assign x (f.value x).op z) := by
  unfold exec Interp.perform
  rw [if_neg hphi, if_neg (show (f.value x).bare.op ≠ .const from hconst),
    show W.interp.exec x _ _ _ _ = Except.ok z from h]
  rfl

theorem exec_of_const (hconst : (f.value x).op = .const) : f.exec s x =
    .ok (s.assign x .const (((f.value x).constLanes.getD []).map .bits, s.mem)) := by
  unfold exec Interp.perform
  rw [if_neg (by simp [hconst]), if_pos (show (f.value x).bare.op = .const from hconst), ← hconst]
  rfl

theorem exec_of_error {why : W.Stop} (hphi : (f.value x).op ≠ .phi)
    (hconst : (f.value x).op ≠ .const)
    (h : s.mem.exec x (f.value x).bare ((f.value x).reads.map f.operandType)
      ((f.value x).reads.map s.get) = .error why) : f.exec s x = .error (.stopped why s.mem) := by
  unfold exec Interp.perform
  rw [if_neg hphi, if_neg (show (f.value x).bare.op ≠ .const from hconst),
    show W.interp.exec x _ _ _ _ = Except.error why from h]

section step

variable (hp : Promoting f slot t dom blank)
  (h : Walked f slot t dom phis blank f.Reached k σ args out) (hr : f.Reached b)
  (hM : Mirrors f k slot t blank phis σ b pre cur s r)
  (hvals : (f.block b).values = pre ++ x :: post)
include hp h hr hM hvals

/-- The states after an instruction that is no access of the slot, by what it has computed. -/
theorem Mirrors.assign {z : List Lane × W.Memory} (hphi : (f.value x).op ≠ .phi) (hne : x ≠ slot)
    (hσ : σ x = x) (hz : ¬ LeadsTo slot z.1) (hap : z.2.Apart slot)
    (hcells : z.2.cells slot = s.mem.cells slot)
    (hholds : (f.value x).op ≠ .store → (f.value x).type.Holds z.1)
    (hzero : x = blank → z.1 = (List.replicate t.numLanes 0).map .bits) :
    Mirrors f k slot t blank phis σ b (pre ++ [x]) cur (s.assign x (f.value x).op z)
      (r.assign x (f.value x).op (z.1, z.2.without [slot])) := by
  have hx : x ∈ (f.block b).values := by simp [hvals]
  have hblock := (hp.ssa.listing.listed x b).mpr ⟨hp.ssa.flow.reached_mem hr, hx⟩
  have hold : ∀ {v}, f.Known b (pre ++ [x]) v → v ≠ x → f.Known b pre v := fun hk hv =>
    (hk.of_snoc hblock).resolve_right fun heq => hv heq.1
  refine ⟨rfl, hap, fun v hk hv => ?_, fun v hst => ?_, fun hk => ?_,
    fun hk => hM.early fun hk' => hk hk'.mono, fun hk => ?_⟩
  · by_cases hvx : v = x
    · subst hvx
      rw [hσ, Func.env_assign hk.1, Func.env_assign hk.1]
      exact ⟨rfl, hholds hk.1, hz⟩
    · have hk' := hold hk hvx
      rw [env_assign_ne hvx, h.env_assign hp hr hvals hphi (h.readable hp hr hvals (.inr hk'))]
      exact hM.env v hk' hv
  · rw [env_assign_of_store hst, env_assign_of_store hst]
    exact hM.stores v hst
  · by_cases hbx : blank = x
    · rw [hbx, Func.env_assign (hbx ▸ hk.1)]
      exact hzero hbx.symm
    · rw [env_assign_ne hbx]
      exact hM.zero (hold hk hbx)
  · obtain ⟨haddr, hcurr, hcur, hlead, rest, hrest⟩ := hM.made (hold hk hne.symm)
    have henv := h.env_assign hp hr hvals hphi hcurr (r := r) (z := (z.1, z.2.without [slot]))
    refine ⟨by rw [env_assign_ne hne.symm, haddr], ?_, ?_, ?_, rest, ?_⟩
    · rw [← List.append_assoc]
      exact hcurr.mono
    · rwa [henv]
    · rwa [henv]
    · rw [henv, ← hrest]
      exact hcells

omit h in
theorem Mirrors.phi (hphi : (f.value x).op = .phi) :
    Mirrors f k slot t blank phis σ b (pre ++ [x]) cur s r := by
  have hx : x ∈ (f.block b).values := by simp [hvals]
  have hblock := (hp.ssa.listing.listed x b).mpr ⟨hp.ssa.flow.reached_mem hr, hx⟩
  have hold : ∀ {v}, f.Known b (pre ++ [x]) v → f.Known b pre v := fun hk =>
    (hk.of_snoc hblock).resolve_right fun heq => heq.2 hphi
  refine ⟨hM.mem, hM.apart, fun v hk hv => hM.env v (hold hk) hv, hM.stores,
    fun hk => hM.zero (hold hk), fun hk => hM.early fun hk' => hk hk'.mono, fun hk => ?_⟩
  obtain ⟨haddr, hcurr, hcur, hlead, hcells⟩ := hM.made (hold hk)
  exact ⟨haddr, by rw [← List.append_assoc]; exact hcurr.mono, hcur, hlead, hcells⟩

/-- What an instruction reads can be read, and none of it but the slot is an address in the slot. -/
theorem Mirrors.operand {a : ValueId} (hvoid : f.StoresVoid) (hphi : (f.value x).op ≠ .phi)
    (ha : .value a ∈ (f.value x).reads) : f.Readable b pre a ∧ (a ≠ slot →
      r.env (σ a) = s.env a ∧ (f.value a).type.Holds (s.env a) ∧ ¬ LeadsTo slot (s.env a)) := by
  have hb := hp.ssa.flow.reached_mem hr
  have hx : x ∈ (f.block b).values := by simp [hvals]
  by_cases hst : (f.value a).op = .store
  · exact ⟨.inl hst, fun _ => hM.of_store h hst (hvoid b hb x hx a (mem_reads ha).2 hst)⟩
  · obtain ⟨a', heq, hbefore⟩ := hp.ssa.reads_value hb hx hphi ha
    obtain rfl : a = a' := by simpa using heq
    have hk := hbefore.known hp.ssa.listing hb hr hvals hst
    exact ⟨.inr hk, hM.env a hk⟩

omit h hM in
theorem Promoting.slot_known (hphi : (f.value x).op ≠ .phi) (ha : .value slot ∈ (f.value x).reads) :
    f.Known b pre slot := by
  have hb := hp.ssa.flow.reached_mem hr
  have hx : x ∈ (f.block b).values := by simp [hvals]
  obtain ⟨a, heq, hbefore⟩ := hp.ssa.reads_value hb hx hphi ha
  obtain rfl : slot = a := by simpa using heq
  exact hbefore.known hp.ssa.listing hb hr hvals (by simp [hp.alloca])

/-- The slot is made: a zeroed region, like the value that stands for what was not written. -/
theorem Mirrors.make (hx : x = slot) : ∃ s', f.exec s x = .ok s' ∧
    Mirrors f k slot t blank phis σ b (pre ++ [x]) cur s' r := by
  subst hx
  have hb := hp.ssa.flow.reached_mem hr
  have hmem : x ∈ (f.block b).values := by simp [hvals]
  have hblock := (hp.ssa.listing.listed x b).mpr ⟨hb, hmem⟩
  obtain rfl : b = f.start := hp.ssa.listing.unique hb hp.ssa.flow.start_mem hmem hp.home
  have hnd := hp.ssa.listing.nodup _ hb
  rw [hvals] at hnd
  -- the slot was not there, so nothing has been written
  have hpre : x ∉ pre := fun hm => (List.nodup_append.mp hnd).2.2 x hm x List.mem_cons_self rfl
  have hnot : ¬ f.Known f.start pre x := by
    rintro ⟨-, d, hd, hor⟩
    obtain rfl : f.start = d := Option.some.inj (hblock.symm.trans hd)
    rcases hor with ⟨-, hor⟩ | ⟨hne, -⟩
    · exact hor.elim (fun hphi => absurd (hp.alloca.symm.trans hphi) (by simp)) hpre
    · exact hne rfl
  obtain rfl := hM.early hnot
  have hblank : cur ∈ pre := by
    have hsub := hp.first x hp.home (by simp [hp.alloca]) (by simp [hp.alloca]) hp.blank_clean.2.symm
    rw [hvals] at hsub
    exact sublist_pair_split hnd hsub
  have hkb : f.Known f.start pre cur := ⟨by simp [hp.const], f.start,
    (hp.ssa.listing.listed _ _).mpr ⟨hb, hp.listed⟩, .inl ⟨rfl, .inr hblank⟩⟩
  have hσ : σ cur = cur := h.resolves.fixed _ hp.blank_clean.1
  have hcur : r.env cur = (List.replicate t.numLanes 0).map .bits := by
    rw [← hM.zero hkb, ← (hM.env cur hkb hp.blank_clean.2).1, hσ]
  have hexec : f.exec s x = .ok (s.assign x .alloca ([.address x 0],
      s.mem.put x (List.replicate (f.value x).aux.toNatClampNeg (.byte 0)))) := by
    rw [exec_of_ok (by simp [hp.alloca]) (by simp [hp.alloca]) (by
      simp [Outside.Memory.exec, Outside.Memory.inside?, Value.bare, hp.alloca]
      rfl), hp.alloca]
  refine ⟨_, hexec, by rw [hM.mem, Interp.State.assign, Outside.Memory.without_put],
    hM.apart.put (.inl rfl), fun v hk hv => ?_, fun v hst => ?_, fun hk => ?_, fun hk => rfl,
    fun hk => ?_⟩
  · rw [env_assign_ne hv]
    exact hM.env v ((hk.of_snoc hblock).resolve_right fun heq => hv heq.1) hv
  · rw [env_assign_ne (by rintro rfl; simp [hp.alloca] at hst)]
    exact hM.stores v hst
  · rw [env_assign_ne hp.blank_clean.2]
    exact hM.zero hkb
  · refine ⟨env_assign (by simp), ?_, by rw [hcur]; exact t.holds_zeros,
      by rw [hcur]; exact not_leadsTo_bits _,
      List.replicate ((f.value x).aux.toNatClampNeg - t.size) (.byte 0), ?_⟩
    · rw [← List.append_assoc, ← hσ]
      exact (h.readable hp hr hvals (.inr hkb)).mono
    · have hsize := hp.promotable.size
      have hle : t.size ≤ (f.value x).aux.toNatClampNeg := by
        rw [Int64.toNatClampNeg]
        omega
      rw [hcur, cellsOf_zeros, ← Ty.size, List.replicate_append_replicate, Nat.add_sub_cancel' hle]
      exact (Outside.Memory.cells_put).trans (if_pos rfl)

/-- A read finds in the slot what is current. -/
theorem Mirrors.read (hread : f.Reads slot x) (hσ : σ x = cur) : ∃ s', f.exec s x = .ok s' ∧
    Mirrors f k slot t blank phis σ b (pre ++ [x]) cur s' r := by
  have hx : x ∈ (f.block b).values := by simp [hvals]
  have hb := hp.ssa.flow.reached_mem hr
  have hblock := (hp.ssa.listing.listed x b).mpr ⟨hb, hx⟩
  have hreads : (f.value x).reads = [.value slot] := by simp [Value.reads, hread.1, hread.2]
  have hks : f.Known b pre slot := hp.slot_known hr hvals (by simp [hread.1]) (by simp [hreads])
  obtain ⟨haddr, hcurr, hholds, hlead, rest, hrest⟩ := hM.made hks
  have htype : (f.value x).type = t := (resolves_reads hp h hread hb hx).2.2
  have hne : x ≠ slot := fun heq => hp.not_reads (heq ▸ hread)
  have hload : s.mem.load t slot 0 = some (r.env cur) := by
    have hlen := hholds.length_cellsOf
    rw [Outside.Memory.load, if_pos (by rw [hrest, List.length_append, hlen]; simp), hrest, ← hholds.1]
    exact lanesIn_cellsOf hholds.2
  have hexec : f.exec s x = .ok (s.assign x .load (r.env cur, s.mem)) := by
    have hin : s.mem.inside? x (f.value x).bare ((f.value x).reads.map f.operandType)
        ((f.value x).reads.map s.get) = some (r.env cur, s.mem) := by
      simp [Outside.Memory.inside?, Value.bare, hread.1, hreads, htype, Interp.State.get, Interp.read,
        haddr, hload]
    rw [exec_of_ok (by simp [hread.1]) (by simp [hread.1]) (by rw [Outside.Memory.exec, hin]), hread.1]
  have hold : ∀ {v}, f.Known b (pre ++ [x]) v → v ≠ x → f.Known b pre v := fun hk hv =>
    (hk.of_snoc hblock).resolve_right fun heq => hv heq.1
  refine ⟨_, hexec, hM.mem, hM.apart, fun v hk hv => ?_, fun v hst => ?_, fun hk => ?_,
    fun hk => hM.early fun hk' => hk hk'.mono, fun hk => ?_⟩
  · by_cases hvx : v = x
    · subst hvx
      rw [hσ, env_assign (by simp), htype]
      exact ⟨rfl, hholds, hlead⟩
    · rw [env_assign_ne hvx]
      exact hM.env v (hold hk hvx) hv
  · rw [env_assign_ne (by rintro rfl; simp [hread.1] at hst)]
    exact hM.stores v hst
  · have hbx : blank ≠ x := fun heq => hp.blank_clean.1 (heq ▸ hread)
    rw [env_assign_ne hbx]
    exact hM.zero (hold hk hbx)
  · exact ⟨by rw [env_assign_ne hne.symm, haddr], by rw [← List.append_assoc]; exact hcurr.mono,
      hholds, hlead, rest, hrest⟩

/-- A write makes what is written current. -/
theorem Mirrors.write (hvoid : f.StoresVoid) (hwrite : f.Writes slot x w) : ∃ s', f.exec s x = .ok s' ∧
    Mirrors f k slot t blank phis σ b (pre ++ [x]) (σ w) s' r := by
  have hx : x ∈ (f.block b).values := by simp [hvals]
  have hb := hp.ssa.flow.reached_mem hr
  have hblock := (hp.ssa.listing.listed x b).mpr ⟨hb, hx⟩
  have hreads : (f.value x).reads = [.value w, .value slot] := by
    simp [Value.reads, hwrite.1, hwrite.2]
  obtain ⟨hws, htype⟩ : w ≠ slot ∧ (f.value w).type = t := by
    rcases hp.promotable.uses b hb x hx (by simp [hwrite.2]) with ⟨hr', -⟩ | ⟨w', hne, hw', -, ht⟩
    · exact absurd (hwrite.1.symm.trans hr'.1) (by simp)
    · obtain rfl : w' = w := by simpa using hw'.2.symm.trans hwrite.2
      exact ⟨hne, ht⟩
  have hks : f.Known b pre slot := hp.slot_known hr hvals (by simp [hwrite.1]) (by simp [hreads])
  obtain ⟨hkw, henv⟩ := hM.operand hp h hr hvals hvoid (by simp [hwrite.1])
    (show .value w ∈ (f.value x).reads by simp [hreads])
  obtain ⟨hsame, hholds, hlead⟩ := henv hws
  rw [htype] at hholds
  obtain ⟨haddr, -, hcur, -, rest, hrest⟩ := hM.made hks
  have hlen := hholds.length_cellsOf
  have hstore : s.mem.store t (s.env w) slot 0 =
      some (s.mem.put slot (cellsOf t.elemKind (s.env w) ++ rest)) := by
    have hdrop : (s.mem.cells slot).drop t.size = rest := by
      rw [hrest, List.drop_left' hcur.length_cellsOf]
    rw [Outside.Memory.store, hlen, if_pos (by
      rw [hrest, List.length_append, hcur.length_cellsOf]; simp)]
    simp [hdrop]
  have hexec : f.exec s x =
      .ok (s.assign x .store ([], s.mem.put slot (cellsOf t.elemKind (s.env w) ++ rest))) := by
    have hin : s.mem.inside? x (f.value x).bare ((f.value x).reads.map f.operandType)
        ((f.value x).reads.map s.get) =
          some ([], s.mem.put slot (cellsOf t.elemKind (s.env w) ++ rest)) := by
      simp [Outside.Memory.inside?, Value.bare, hwrite.1, hreads, operandType, htype,
        Interp.State.get, Interp.read, haddr, hstore]
    rw [exec_of_ok (by simp [hwrite.1]) (by simp [hwrite.1]) (by rw [Outside.Memory.exec, hin]), hwrite.1]
  have hold : ∀ {v}, f.Known b (pre ++ [x]) v → f.Known b pre v := fun hk =>
    (hk.of_snoc hblock).resolve_right fun heq => hk.1 (heq.1 ▸ hwrite.1)
  refine ⟨_, hexec, by rw [hM.mem, Interp.State.assign, Outside.Memory.without_put],
    hM.apart.put (.inl rfl), fun v hk hv => hM.env v (hold hk) hv, hM.stores,
    fun hk => hM.zero (hold hk), fun hk => absurd hks.mono hk, fun hk => ?_⟩
  refine ⟨haddr, ?_, by rwa [hsame], by rwa [hsame], rest, ?_⟩
  · rw [← List.append_assoc]
    exact (h.readable hp hr hvals hkw).mono
  · rw [hsame]
    exact (Outside.Memory.cells_put).trans (if_pos rfl)

end step

section promoted

variable (h : Promoted f g k slot t dom blank phis σ args out keep) (hr : f.Reached b)
  (hM : Mirrors f k slot t blank phis σ b pre cur s r)
  (hvals : (f.block b).values = pre ++ x :: post) (hno : ¬ f.Accesses slot x) (hne : x ≠ slot)
include h hr hM hvals hno hne

/-- What is no access of the slot reads the same in both functions. -/
theorem Mirrors.reads (hvoid : f.StoresVoid) (hphi : (f.value x).op ≠ .phi) :
    (g.value x).reads.map g.operandType = (f.value x).reads.map f.operandType ∧
      (g.value x).reads.map r.get = (f.value x).reads.map s.get ∧
      ∀ z ∈ (f.value x).reads.map s.get, ¬ LeadsTo slot z := by
  have hp := h.promoting
  have hb := hp.ssa.flow.reached_mem hr
  have hx : x ∈ (f.block b).values := by simp [hvals]
  have hreads : (g.value x).reads = (f.value x).reads.map (rename σ) := by
    rw [h.pruned.kept x (h.keep_eq hno hne), h.walked.renamed.old b hb x hx]
    unfold Value.reads
    split <;> rfl
  have hread : ∀ o ∈ (f.value x).reads, ∃ a, o = .value a ∧ ((f.value a).op = .store ∨ f.IsListed a) ∧
      r.env (σ a) = s.env a ∧ ¬ LeadsTo slot (s.env a) := by
    intro o ho
    obtain ⟨a, rfl, -⟩ := hp.ssa.reads_value hb hx hphi ho
    obtain ⟨hparam, harg⟩ := mem_reads ho
    obtain ⟨hsame, -, hlead⟩ := (hM.operand hp h.walked hr hvals hvoid hphi ho).2 fun heq => hno <|
      (hp.promotable.uses b hb x hx (heq ▸ harg)).imp (·.1) fun hw => ⟨hw.choose, hw.choose_spec.2.1⟩
    exact ⟨a, rfl, hp.listed_arg hb hx hparam harg, hsame, hlead⟩
  rw [hreads, List.map_map, List.map_map]
  refine ⟨List.map_congr_left fun o ho => ?_, List.map_congr_left fun o ho => ?_, fun z hz => ?_⟩
  · obtain ⟨a, rfl, hlisted, -⟩ := hread o ho
    refine h.pruned.operandType.trans (operandType_renamed hp h.walked fun v hv => ?_)
    obtain rfl : a = v := by simpa using hv
    exact hlisted
  · obtain ⟨a, rfl, -, hsame, -⟩ := hread o ho
    exact hsame
  · obtain ⟨o, ho, rfl⟩ := List.mem_map.mp hz
    obtain ⟨a, rfl, -, -, hlead⟩ := hread o ho
    exact hlead

/-- Whatever is neither the slot nor an access of it does in both functions the same. -/
theorem Mirrors.other (hc : f.ConstsFit) (hvoid : f.StoresVoid)
    (hzero : (f.value blank).constLanes = some (List.replicate t.numLanes 0)) :
    Agree (Mirrors f k slot t blank phis σ b (pre ++ [x]) cur)
      ((f.exec s x).mapError (.without [slot])) (g.exec r x) := by
  have hp := h.promoting
  have hb := hp.ssa.flow.reached_mem hr
  have hx : x ∈ (f.block b).values := by simp [hvals]
  have hval := (h.pruned.kept x (h.keep_eq hno hne)).trans (h.walked.renamed.old b hb x hx)
  have hop : (g.value x).op = (f.value x).op := by rw [hval]
  have hbare : (g.value x).bare = (f.value x).bare := by rw [hval]; rfl
  by_cases hphi : (f.value x).op = .phi
  · rw [exec, exec, if_pos hphi, if_pos (hop.trans hphi)]
    exact .go (hM.phi hp hr hvals hphi)
  have hσ : σ x = x := h.walked.resolves.fixed x fun hread => hno (.inl hread)
  by_cases hconst : (f.value x).op = .const
  · rw [exec_of_const hconst, exec_of_const (hop.trans hconst), hM.mem]
    have hlanes : (g.value x).constLanes = (f.value x).constLanes := by
      change (g.value x).bare.constLanes = (f.value x).bare.constLanes
      rw [hbare]
    rw [hlanes, ← hconst]
    refine .go (hM.assign hp h.walked hr hvals hphi hne hσ (not_leadsTo_bits _) hM.apart rfl
      (fun _ => holds_const hp.ssa hc hb hx hconst) fun heq => ?_)
    rw [heq, hzero]
    rfl
  · obtain ⟨htypes, hgets, hlead⟩ := hM.reads h hr hvals hno hne hvoid hphi
    have hexec : (s.mem.without [slot]).exec x (f.value x).bare
        ((f.value x).reads.map f.operandType) ((f.value x).reads.map s.get) = _ :=
      hM.apart.exec_without hlead hne
    rw [← hM.mem] at hexec
    cases hz : s.mem.exec x (f.value x).bare ((f.value x).reads.map f.operandType)
        ((f.value x).reads.map s.get) with
    | error why =>
      rw [hz] at hexec
      rw [exec_of_error hphi hconst hz, exec_of_error (hop ▸ hphi) (hop ▸ hconst)
        (by rw [htypes, hgets, hbare]; exact hexec), hM.mem]
      exact .stop _
    | ok z =>
      rw [hz] at hexec
      rw [exec_of_ok hphi hconst hz, exec_of_ok (hop ▸ hphi) (hop ▸ hconst)
        (by rw [htypes, hgets, hbare]; exact hexec), hop]
      obtain ⟨hlead', hap, hcells⟩ := hM.apart.exec_spec hlead hne hz
      refine .go (hM.assign hp h.walked hr hvals hphi hne hσ hlead' hap hcells (fun hstore => ?_)
        fun heq => ?_)
      · refine Outside.Memory.exec_holds (y := (f.value x).bare) hstore (fun halloca => ?_) hz
        have hty := hp.ssa.typed hb hx hphi
        simp only [WellTyped, show (f.value x).op = .alloca from halloca, Op.isBinary, Op.isCast,
          Bool.false_eq_true, if_false] at hty
        exact hty.2.1
      · exact absurd (heq ▸ hp.const) hconst

end promoted

end SsaJit.Func
