import SsaJit.Pass.Dead
import SsaJit.Proofs.Pass.Basic

/-! Taking dead values out leaves just the live ones, the least set that has the roots and whatever its
members read: nothing else is marked, and marking goes on until every operand of a marked value is
marked. So what is kept reads only what is kept, and good functions stay good. -/

namespace SsaJit.Func

variable {f g : Func} {b c d : BlockId} {u v w x : ValueId} {o : Operand}

/-! ## What is live -/

/-- The values that must stay: those that run for their effects, volatile ones, parameters, what the ends
of blocks name, and whatever a value that must stay reads. -/
inductive Live (f : Func) : ValueId → Prop
  | root {b : BlockId} {v : ValueId} (hb : b ∈ f.layout) (hv : v ∈ (f.block b).values)
      (h : (f.value v).op = .store ∨ (f.value v).op = .call ∨ (f.value v).volatile = true ∨
        (f.value v).op = .param) : Live f v
  | control {b : BlockId} {v : ValueId} (hb : b ∈ f.layout) (h : (f.block b).control = .value v) :
      Live f v
  | operand {u v : ValueId} (hu : Live f u) (h : .value v ∈ (f.value u).args) : Live f v

theorem isRoot_iff {y : Value} : isRoot y = true ↔
    y.op = .store ∨ y.op = .call ∨ y.volatile = true ∨ y.op = .param := by
  unfold isRoot Op.hasSideEffects
  cases y.op <;> simp

/-- No operand, or a value of the function. -/
def Own (f : Func) (o : Operand) : Prop := o = .missing ∨ ∃ v < f.numValues, o = .value v

/-- What is live reads nothing but values of the function. -/
structure Closed (f : Func) : Prop where
  inTables : InTables f f.layout
  control : ∀ b ∈ f.layout, f.Own (f.block b).control
  args : ∀ v, f.Live v → ∀ o ∈ (f.value v).args, f.Own o

theorem Closed.lt (h : f.Closed) (hv : f.Live v) : v < f.numValues := by
  have hown : ∀ {o}, f.Own o → o = .value v → v < f.numValues := by
    rintro o (rfl | ⟨w, hw, rfl⟩) heq
    · cases heq
    · exact Operand.value.inj heq ▸ hw
  cases hv with
  | root hb hv _ => exact (h.inTables _ hb).2 v hv
  | control hb hc => exact hown (h.control _ hb) hc
  | operand hu ho => exact hown (h.args _ hu _ ho) rfl

theorem Good.arg_listed (h : f.Good True) (hb : b ∈ f.layout) (hv : v ∈ (f.block b).values)
    (ho : o ∈ (f.value v).args) : ∃ w, o = .value w ∧ f.IsListed w := by
  have hstore := h.tidy.noStore_arg hb hv ho
  by_cases hphi : (f.value v).op = .phi
  · obtain ⟨-, p, -, hend⟩ := h.ssa.arg_pred hb hv hphi ho
    obtain ⟨w, rfl⟩ := hend.isValue
    exact ⟨w, rfl, (hend.listed h.ssa.listing).resolve_left (hstore w rfl)⟩
  · by_cases hparam : (f.value v).op = .param
    · simp [h.tidy.params trivial b hb v hv hparam] at ho
    · have hbefore := h.ssa.before hb hv hphi hparam ho
      obtain ⟨w, rfl⟩ := hbefore.isValue
      exact ⟨w, rfl, (hbefore.listed h.ssa.listing).resolve_left (hstore w rfl)⟩

theorem Good.control_listed (h : f.Good True) (hb : b ∈ f.layout) :
    (f.block b).control = .missing ∨ ∃ w, (f.block b).control = .value w ∧ f.IsListed w := by
  have hstore := h.tidy.stores.control hb
  have hends := h.ssa.ends b hb
  unfold EndsWell at hends
  have hlisted : f.AtEnd (f.block b).control b →
      ∃ w, (f.block b).control = .value w ∧ f.IsListed w := by
    intro hend
    obtain ⟨w, hw⟩ := hend.isValue
    exact ⟨w, hw, ((hw ▸ hend).listed h.ssa.listing).resolve_left (hstore w hw)⟩
  by_cases hbr : (f.block b).kind = .branch
  · simp only [hbr] at hends
    exact .inr (hlisted hends.2.2)
  by_cases hret : (f.block b).kind = .ret
  · simp only [hret] at hends
    by_cases hm : (f.block b).control = .missing
    · exact .inl hm
    · rw [if_neg hm] at hends
      exact .inr (hlisted hends.2.2)
  · exact .inl (h.tidy.ends trivial b hb hbr hret)

/-- A function is closed if what its ends and its listed values read is listed. -/
theorem closed_of_listed (ht : InTables f f.layout)
    (hctl : ∀ b ∈ f.layout, (f.block b).control = .missing ∨
      ∃ w, (f.block b).control = .value w ∧ f.IsListed w)
    (hargs : ∀ b ∈ f.layout, ∀ v ∈ (f.block b).values, ∀ o ∈ (f.value v).args,
      ∃ w, o = .value w ∧ f.IsListed w) : f.Closed := by
  have hlive : ∀ v, f.Live v → f.IsListed v := by
    intro v hv
    induction hv with
    | root hb hv _ => exact ⟨_, hb, hv⟩
    | control hb hc =>
      rcases hctl _ hb with hm | ⟨w, hw, hl⟩
      · cases hm.symm.trans hc
      · exact Operand.value.inj (hw.symm.trans hc) ▸ hl
    | operand _ ho ih =>
      obtain ⟨b, hb, hu⟩ := ih
      obtain ⟨w, hw, hl⟩ := hargs b hb _ hu _ ho
      exact Operand.value.inj hw ▸ hl
  have hown : ∀ {w}, f.IsListed w → w < f.numValues := fun {w} ⟨b, hb, hw⟩ => (ht b hb).2 w hw
  refine ⟨ht, fun b hb => (hctl b hb).imp_right fun ⟨w, hw, hl⟩ => ⟨w, hown hl, hw⟩,
    fun v hv o ho => ?_⟩
  obtain ⟨b, hb, hvb⟩ := hlive v hv
  obtain ⟨w, hw, hl⟩ := hargs b hb v hvb o ho
  exact .inr ⟨w, hown hl, hw⟩

theorem Good.closed (h : f.Good True) : f.Closed :=
  closed_of_listed h.ssa.inTables (fun _ hb => h.control_listed hb)
    fun _ hb _ hv _ ho => h.arg_listed hb hv ho

/-! ## Marking -/

namespace Marking

variable {m m' : Marking}

/-- Is the value marked? -/
def has (m : Marking) (v : ValueId) : Bool := m.live.getD v false

/-- What can still be marked, and what waits. -/
def potential (m : Marking) : Nat := m.live.toList.count false + m.work.length

/-- `m'` has been reached from `m` by marking live values. -/
structure Grows (f : Func) (m m' : Marking) : Prop where
  size : m'.live.size = m.live.size
  has : ∀ v, m.has v = true → m'.has v = true
  work : ∀ o ∈ m.work, o ∈ m'.work
  potential : m'.potential = m.potential
  /-- What is newly marked is live and waits. -/
  new : ∀ v, m'.has v = true → m.has v = true ∨ (.value v ∈ m'.work ∧ f.Live v)
  waits : ∀ o ∈ m'.work, o ∈ m.work ∨ ∃ v, o = .value v ∧ f.Live v

theorem Grows.refl (f : Func) (m : Marking) : Grows f m m :=
  ⟨rfl, fun _ h => h, fun _ h => h, rfl, fun _ h => .inl h, fun _ h => .inl h⟩

theorem Grows.trans {k : Marking} (h₁ : Grows f m m') (h₂ : Grows f m' k) : Grows f m k where
  size := h₂.size.trans h₁.size
  has v hv := h₂.has v (h₁.has v hv)
  work o ho := h₂.work o (h₁.work o ho)
  potential := h₂.potential.trans h₁.potential
  new v hv := by
    rcases h₂.new v hv with h | h
    · rcases h₁.new v h with h | ⟨h, hl⟩
      · exact .inl h
      · exact .inr ⟨h₂.work _ h, hl⟩
    · exact .inr h
  waits o ho := (h₂.waits o ho).elim (h₁.waits o) .inr

theorem mark_spec (hsize : m.live.size = f.numValues) (hf : f.Closed) (hv : f.Live v) :
    ∃ m', mark f m (.value v) = .ok m' ∧ Grows f m m' ∧ m'.has v = true := by
  have hlt : v < m.live.size := hsize ▸ hf.lt hv
  unfold mark
  simp only [reduceCtorEq, if_false, number, Outcome.ok_bind, Array.getElem?_eq_getElem hlt]
  cases hm : m.live[v] with
  | true => exact ⟨m, rfl, .refl f m, by simp [has, hlt, hm]⟩
  | false =>
    refine ⟨_, rfl, ⟨by simp, fun w hw => ?_, fun o ho => List.mem_cons_of_mem _ ho, ?_,
      fun w hw => ?_, fun o ho => ?_⟩, by simp [has, hlt]⟩
    · by_cases hwv : v = w
      · subst hwv
        simp [has, hlt]
      · simpa [has, Array.getElem?_setIfInBounds_ne hwv] using hw
    · have hpos : 0 < m.live.toList.count false := by
        rw [List.count_pos_iff]
        exact hm ▸ Array.getElem_mem_toList hlt
      have hcount : (m.live.setIfInBounds v true).toList.count false =
          m.live.toList.count false - 1 := by
        rw [Array.toList_setIfInBounds, List.count_set (by simpa using hlt)]
        simp [hm]
      simp only [potential, hcount, List.length_cons]
      omega
    · by_cases hwv : v = w
      · subst hwv
        exact .inr ⟨List.mem_cons_self, hv⟩
      · exact .inl (by simpa [has, Array.getElem?_setIfInBounds_ne hwv] using hw)
    · rcases List.mem_cons.mp ho with rfl | ho
      · exact .inr ⟨v, rfl, hv⟩
      · exact .inl ho

/-- Marking what an operand names, if it names anything. -/
theorem mark_operand (hsize : m.live.size = f.numValues) (hf : f.Closed) (ho : f.Own o)
    (hlive : ∀ v, o = .value v → f.Live v) :
    ∃ m', mark f m o = .ok m' ∧ Grows f m m' ∧ ∀ v, o = .value v → m'.has v = true := by
  rcases ho with rfl | ⟨v, -, rfl⟩
  · exact ⟨m, rfl, .refl f m, by simp⟩
  · obtain ⟨m', hm', hg, hhas⟩ := mark_spec hsize hf (hlive v rfl)
    exact ⟨m', hm', hg, fun w hw => Operand.value.inj hw ▸ hhas⟩

theorem mark_foldlM (hsize : m.live.size = f.numValues) (hf : f.Closed) {l : List Operand}
    (hown : ∀ o ∈ l, f.Own o) (hlive : ∀ v, .value v ∈ l → f.Live v) :
    ∃ m', l.foldlM (mark f) m = .ok m' ∧ Grows f m m' ∧
      ∀ v, .value v ∈ l → m'.has v = true := by
  induction l generalizing m with
  | nil => exact ⟨m, rfl, .refl f m, by simp⟩
  | cons o l ih =>
    obtain ⟨m₁, h₁, hg₁, hm₁⟩ := mark_operand hsize hf (hown o List.mem_cons_self)
      fun v hv => hlive v (hv ▸ List.mem_cons_self)
    obtain ⟨m₂, h₂, hg₂, hm₂⟩ := ih (hg₁.size.trans hsize)
      (fun o ho => hown o (List.mem_cons_of_mem _ ho)) fun v hv => hlive v (List.mem_cons_of_mem _ hv)
    refine ⟨m₂, by rw [List.foldlM_cons, h₁]; exact h₂, hg₁.trans hg₂, fun w hw => ?_⟩
    rcases List.mem_cons.mp hw with heq | hw
    · exact hg₂.has w (hm₁ w heq.symm)
    · exact hm₂ w hw

/-- What is marked is live, and its operands are marked unless it waits. -/
structure Sound (f : Func) (m : Marking) : Prop where
  size : m.live.size = f.numValues
  live : ∀ v, m.has v = true → f.Live v
  work : ∀ o ∈ m.work, ∃ v, o = .value v ∧ f.Live v
  closed : ∀ v, m.has v = true → .value v ∈ m.work ∨
    ∀ w, .value w ∈ (f.value v).args → m.has w = true

theorem Sound.grows (h : Sound f m) (hg : Grows f m m') : Sound f m' where
  size := hg.size.trans h.size
  live v hv := (hg.new v hv).elim (h.live v) (·.2)
  work o ho := (hg.waits o ho).elim (h.work o) id
  closed v hv := by
    rcases hg.new v hv with hv | ⟨hw, _⟩
    · rcases h.closed v hv with hw | hall
      · exact .inl (hg.work _ hw)
      · exact .inr fun w hw => hg.has w (hall w hw)
    · exact .inl hw

/-- Marking ends with nothing waiting, since each step uses up potential. -/
theorem close_spec (hf : f.Closed) (fuel : Nat) :
    ∀ m : Marking, Sound f m → m.potential < fuel → ∃ m', close f fuel m = .ok m' ∧ Sound f m' ∧
      m'.work = [] ∧ ∀ v, m.has v = true → m'.has v = true := by
  induction fuel with
  | zero => intro m _ h; omega
  | succ fuel ih =>
    intro m hm hpot
    cases hw : m.work with
    | nil => exact ⟨m, by simp [close, hw], hm, hw, fun _ h => h⟩
    | cons o work =>
      obtain ⟨v, rfl, hv⟩ := hm.work o (by simp [hw])
      have hsize : ({ m with work := work } : Marking).live.size = f.numValues := hm.size
      obtain ⟨k, hk, hg, hall⟩ := mark_foldlM hsize hf (hf.args v hv) fun w hw => hv.operand hw
      have hkpot : k.potential < fuel := by
        have hp := hg.potential
        simp only [potential, hw, List.length_cons] at hp hpot ⊢
        omega
      have hks : Sound f k := by
        refine ⟨hg.size.trans hm.size, fun x hx => (hg.new x hx).elim (hm.live x) (·.2),
          fun o ho => ?_, fun x hx => ?_⟩
        · exact (hg.waits o ho).elim
            (fun ho => hm.work o (by rw [hw]; exact List.mem_cons_of_mem _ ho)) id
        · by_cases hxv : x = v
          · subst hxv
            exact .inr hall
          · rcases hg.new x hx with hx | ⟨hx, _⟩
            · rcases hm.closed x hx with hx | hx
              · rw [hw] at hx
                refine .inl (hg.work _ ?_)
                simpa [hxv] using hx
              · exact .inr fun y hy => hg.has y (hx y hy)
            · exact .inl hx
      obtain ⟨m', hm', hs, hnil, hmono⟩ := ih k hks hkpot
      refine ⟨m', ?_, hs, hnil, fun x hx => hmono x (hg.has x hx)⟩
      simp only [close, hw, find, Outcome.ok_bind, hk, hm']

/-- Marking the roots of one block. -/
theorem roots_spec (hs : Sound f m) (hf : f.Closed) (hb : b ∈ f.layout) :
    ∃ m', (f.valuesOf b).foldlM (fun m x =>
      if isRoot x.2 then mark f m (.value x.1) else .ok m) m = .ok m' ∧ Grows f m m' ∧
        ∀ v ∈ (f.block b).values, isRoot (f.value v) = true → m'.has v = true := by
  have hfold := Outcome.foldlM_keeps_done (b := m) (l := f.valuesOf b)
    (P := fun done k => Grows f m k ∧ ∀ x ∈ done, isRoot x.2 = true → k.has x.1 = true)
    (g := fun m x => if isRoot x.2 then mark f m (.value x.1) else .ok m) ?_ ⟨.refl f m, by simp⟩
  · obtain ⟨k, hk, hg, hall⟩ := hfold
    exact ⟨k, hk, hg, fun v hv => hall (v, f.value v) (List.mem_map_of_mem hv)⟩
  · intro done x rest k hl ⟨hg, hall⟩
    obtain ⟨v, hv, rfl⟩ : ∃ v ∈ (f.block b).values, (v, f.value v) = x :=
      List.mem_map.mp (show x ∈ f.valuesOf b by rw [hl]; simp)
    have hstep : ∀ {k'}, Grows f k k' → (isRoot (f.value v) = true → k'.has v = true) →
        ∀ y ∈ done ++ [(v, f.value v)], isRoot y.2 = true → k'.has y.1 = true := by
      intro k' hg' hnew y hy hroot
      rcases List.mem_append.mp hy with hy | hy
      · exact hg'.has _ (hall y hy hroot)
      · obtain rfl := List.mem_singleton.mp hy
        exact hnew hroot
    split
    · next hroot =>
      obtain ⟨k', hk', hg', hhas⟩ := mark_spec (hg.size.trans hs.size) hf
        (.root hb hv (isRoot_iff.mp hroot))
      exact ⟨k', hk', hg.trans hg', hstep hg' fun _ => hhas⟩
    · next hroot => exact ⟨k, rfl, hg, hstep (.refl f k) fun h => absurd h hroot⟩

end Marking

/-- Marking finds what is live, neither more nor less. -/
theorem liveness_spec (h : f.Closed) :
    ∃ live, f.liveness = .ok live ∧ ∀ v, live.getD v false = true ↔ f.Live v := by
  have hroots := Outcome.foldlM_keeps_done (l := f.layout)
    (b := ({ live := Array.replicate f.numValues false, work := [] } : Marking))
    (P := fun done m => Marking.Sound f m ∧ m.potential = f.numValues ∧
      ∀ b ∈ done, (∀ v ∈ (f.block b).values, isRoot (f.value v) = true → m.has v = true) ∧
        ∀ w, (f.block b).control = .value w → m.has w = true)
    (g := fun m b => do
      let m ← (f.valuesOf b).foldlM (fun m x =>
        if isRoot x.2 then Marking.mark f m (.value x.1) else .ok m) m
      Marking.mark f m (f.block b).control) ?_ ?_
  · obtain ⟨m, hm, hs, hpot, hblocks⟩ := hroots
    obtain ⟨k, hk, hks, hnil, hmono⟩ := Marking.close_spec h (f.numValues + 1) m hs (by omega)
    refine ⟨k.live, ?_, fun v => ⟨hks.live v, fun hv => ?_⟩⟩
    · unfold liveness
      simp only
      rw [hm]
      simp [hk]
    · induction hv with
      | root hb hv hroot => exact hmono _ ((hblocks _ hb).1 _ hv (isRoot_iff.mpr hroot))
      | control hb hc => exact hmono _ ((hblocks _ hb).2 _ hc)
      | operand _ ho ih =>
        refine (hks.closed _ ih).elim (fun hwait => ?_) fun hall => hall _ ho
        simp [hnil] at hwait
  · intro done b rest m hlay ⟨hs, hpot, hblocks⟩
    have hb : b ∈ f.layout := by simp [hlay]
    obtain ⟨k, hk, hg, hkroots⟩ := Marking.roots_spec hs h hb
    obtain ⟨m', hm', hg', hctl⟩ := Marking.mark_operand (hs.grows hg).size h (h.control b hb)
      fun v hv => .control hb hv
    refine ⟨m', by simp [hk, hm'], (hs.grows hg).grows hg',
      hg'.potential.trans (hg.potential.trans hpot), fun c hc => ?_⟩
    rcases List.mem_append.mp hc with hc | hc
    · have hgg := hg.trans hg'
      exact ⟨fun v hv hroot => hgg.has v ((hblocks c hc).1 v hv hroot),
        fun w hw => hgg.has w ((hblocks c hc).2 w hw)⟩
    · obtain rfl := List.mem_singleton.mp hc
      exact ⟨fun v hv hroot => hg'.has v (hkroots v hv hroot), hctl⟩
  · have hnone : ∀ v, ¬ Marking.has
        { live := Array.replicate f.numValues false, work := [] } v = true := by
      intro v hv
      simp only [Marking.has, getD_replicate] at hv
      cases hv
    exact ⟨⟨by simp, fun v hv => absurd hv (hnone v), by simp, fun v hv => absurd hv (hnone v)⟩,
      by simp [Marking.potential], by simp⟩

/-! ## Taking out -/

/-- Take the values of one block out that are not to be kept. -/
def pruneBlock (keep : ValueId → Bool) (f : Func) (b : BlockId) : Func :=
  ((f.block b).values.filter fun v => !keep v).foldl
    (fun f v => f.modifyValue v fun val => { val with block := none })
    (f.modifyBlock b fun blk => { blk with values := blk.values.filter keep })

section pruneBlock

variable {keep : ValueId → Bool} {l : List BlockId}

theorem block_pruneBlock (hb : b < f.numBlocks) : (pruneBlock keep f b).block c =
    if c = b then { f.block b with values := (f.block b).values.filter keep } else f.block c := by
  rw [pruneBlock, block_foldl_modifyValue, block_modifyBlock hb]

theorem value_pruneBlock (hv : ∀ v ∈ (f.block b).values, v < f.numValues) :
    (pruneBlock keep f b).value w = if w ∈ (f.block b).values ∧ keep w = false
      then { f.value w with block := none } else f.value w := by
  rw [pruneBlock, value_foldl_modifyValue (g := fun val => { val with block := none })
    (fun _ => rfl) (fun v hv' => ?_)]
  · simp
  · simpa using hv v (List.mem_of_mem_filter hv')

theorem pruneBlock_foldl (keep : ValueId → Bool) (h : InTables f l) (hl : l.Nodup) :
    (l.foldl (pruneBlock keep) f).layout = f.layout ∧
    (l.foldl (pruneBlock keep) f).ret = f.ret ∧
    (l.foldl (pruneBlock keep) f).numBlocks = f.numBlocks ∧
    (∀ c, (l.foldl (pruneBlock keep) f).block c = if c ∈ l
      then { f.block c with values := (f.block c).values.filter keep } else f.block c) ∧
    (∀ w, (l.foldl (pruneBlock keep) f).value w =
      if (∃ b ∈ l, w ∈ (f.block b).values) ∧ keep w = false
      then { f.value w with block := none } else f.value w) := by
  induction l generalizing f with
  | nil => simp
  | cons b l ih =>
    obtain ⟨hb, hv⟩ := h b List.mem_cons_self
    obtain ⟨hbl, hl⟩ := List.nodup_cons.mp hl
    have hother : ∀ c ∈ l, (pruneBlock keep f b).block c = f.block c := by
      intro c hc
      rw [block_pruneBlock hb, if_neg fun heq : c = b => hbl (heq ▸ hc)]
    have htab : InTables (pruneBlock keep f b) l := by
      intro c hc
      rw [hother c hc]
      simpa [pruneBlock] using h c (List.mem_cons_of_mem _ hc)
    obtain ⟨h₁, h₂, h₃, h₄, h₅⟩ := ih htab hl
    rw [List.foldl_cons]
    refine ⟨h₁.trans (by simp [pruneBlock]), h₂.trans (by simp [pruneBlock]),
      h₃.trans (by simp [pruneBlock]), fun c => ?_, fun w => ?_⟩
    · rw [h₄]
      by_cases hcl : c ∈ l
      · rw [if_pos hcl, if_pos (List.mem_cons_of_mem _ hcl), hother c hcl]
      · rw [if_neg hcl, block_pruneBlock hb]
        by_cases hcb : c = b
        · subst hcb
          simp
        · simp [hcb, hcl]
    · rw [h₅, value_pruneBlock hv]
      have hex : (∃ c ∈ l, w ∈ ((pruneBlock keep f b).block c).values) ↔
          ∃ c ∈ l, w ∈ (f.block c).values :=
        exists_congr fun c => and_congr_right fun hc => by rw [hother c hc]
      simp only [hex, List.mem_cons, exists_eq_or_imp]
      by_cases hk : keep w = false
      · by_cases hwb : w ∈ (f.block b).values <;> simp [hk, hwb]
      · simp [hk]

theorem pruned_foldl (keep : ValueId → Bool) (ht : InTables f f.layout) (hn : f.layout.Nodup)
    (hl : f.Listing) : Pruned f (f.layout.foldl (pruneBlock keep) f) keep := by
  obtain ⟨hlay, hret, hnb, hblock, hval⟩ := pruneBlock_foldl keep ht hn
  refine ⟨⟨hlay, hnb, fun b => ?_, fun b => ?_, fun b => ?_⟩, hret, fun b => ?_, fun b => ?_,
    fun b hb => ?_, fun v hv => ?_, fun v hv => ?_⟩
  iterate 5
    rw [hblock]
    split <;> rfl
  · rw [hblock, if_pos hb]
  · rw [hval, if_neg (by simp [hv])]
  · rw [hval]
    split
    · rfl
    · next hno =>
      have hnone : (f.value v).block = none := by
        cases hb : (f.value v).block with
        | none => rfl
        | some b => exact absurd ⟨⟨b, (hl.listed v b).mp hb⟩, hv⟩ hno
      rw [← hnone]

end pruneBlock

/-- Take the dead values of one block out and note whether there were any. -/
def dropDead (live : Array Bool) (s : Func × Bool) (b : BlockId) : Func × Bool :=
  (pruneBlock (fun v => live.getD v false) s.1 b,
    s.2 || !((s.1.block b).values.filter fun v => !live.getD v false).isEmpty)

theorem removeDead_eq : f.removeDead =
    f.liveness >>= fun live => .ok (f.layout.foldl (dropDead live) (f, false)) := rfl

theorem dropDead_self {live : Array Bool} {s : Func × Bool}
    (h : ∀ v ∈ (s.1.block b).values, live.getD v false = true) : dropDead live s b = s := by
  have hdead : (s.1.block b).values.filter (fun v => !live.getD v false) = [] :=
    List.filter_eq_nil_iff.mpr fun v hv => by simp [h v hv]
  have hall : (s.1.block b).values.filter (fun v => live.getD v false) = (s.1.block b).values :=
    List.filter_eq_self.mpr h
  rw [dropDead, pruneBlock, hdead, List.foldl_nil, modifyBlock_self (by rw [hall]), List.isEmpty_nil,
    Bool.not_true, Bool.or_false]

theorem dropDead_foldl (live : Array Bool) (l : List BlockId) (s : Func × Bool) :
    (l.foldl (dropDead live) s).1 = l.foldl (pruneBlock fun v => live.getD v false) s.1 := by
  induction l generalizing s with
  | nil => rfl
  | cons b l ih => exact ih _

theorem numValues_foldl_pruneBlock {keep : ValueId → Bool} {l : List BlockId} :
    (l.foldl (pruneBlock keep) f).numValues = f.numValues := by
  induction l generalizing f with
  | nil => rfl
  | cons b l ih => rw [List.foldl_cons, ih, pruneBlock, numValues_foldl_modifyValue,
      numValues_modifyBlock]

/-- Taking dead values out comes to an answer, in which just the live values are left. -/
theorem removeDead_spec (h : f.Closed) (hn : f.layout.Nodup) (hl : f.Listing) :
    ∃ g ch keep, f.removeDead = .ok (g, ch) ∧ Pruned f g keep ∧ g.numValues = f.numValues ∧
      ∀ v, keep v = true ↔ f.Live v := by
  obtain ⟨live, hlive, hiff⟩ := liveness_spec h
  refine ⟨_, _, fun v => live.getD v false, by rw [removeDead_eq, hlive]; rfl, ?_, ?_, hiff⟩
  · rw [dropDead_foldl]
    exact pruned_foldl _ h.inTables hn hl
  · rw [dropDead_foldl]
    exact numValues_foldl_pruneBlock

/-- Where all is live nothing is taken out. -/
theorem removeDead_eq_self (h : f.Closed) (hall : ∀ b ∈ f.layout, ∀ v ∈ (f.block b).values, f.Live v) :
    f.removeDead = .ok (f, false) := by
  obtain ⟨live, hlive, hiff⟩ := liveness_spec h
  have hfold : f.layout.foldl (dropDead live) (f, false) = (f, false) := by
    refine List.foldlRecOn f.layout (dropDead live) (motive := (· = (f, false))) rfl ?_
    rintro s rfl b hb
    exact dropDead_self fun v hv => (hiff v).mpr (hall b hb v hv)
  rw [removeDead_eq, hlive, Outcome.ok_bind, hfold]

section again

variable {keep : ValueId → Bool} (hpr : Pruned f g keep) (hkeep : ∀ v, keep v = true ↔ f.Live v)
include hpr hkeep

/-- Taking dead values out changes nothing of what is live. -/
theorem Pruned.live : g.Live v ↔ f.Live v := by
  constructor
  · intro hv
    induction hv with
    | root hb hv hroot =>
      rw [hpr.values _ (hpr.graph.layout ▸ hb), List.mem_filter] at hv
      exact (hkeep _).mp hv.2
    | control hb hc => exact .control (hpr.graph.layout ▸ hb) (hpr.control _ ▸ hc)
    | operand _ ho ih =>
      rw [hpr.kept _ ((hkeep _).mpr ih)] at ho
      exact ih.operand ho
  · intro hv
    induction hv with
    | root hb hv hroot =>
      have hk := (hkeep _).mpr (.root hb hv hroot)
      exact .root (hpr.graph.layout ▸ hb)
        (by rw [hpr.values _ hb]; exact List.mem_filter.mpr ⟨hv, hk⟩) (by rwa [hpr.kept _ hk])
    | control hb hc => exact .control (hpr.graph.layout ▸ hb) (by rwa [hpr.control])
    | operand hu ho ih => exact ih.operand (by rwa [hpr.kept _ ((hkeep _).mpr hu)])

theorem Pruned.closed (hnum : g.numValues = f.numValues) (h : f.Closed) : g.Closed := by
  have hown : ∀ {o}, f.Own o → g.Own o := fun ho =>
    ho.imp_right fun ⟨v, hv, hov⟩ => ⟨v, hnum ▸ hv, hov⟩
  refine ⟨fun b hb => ?_, fun b hb => ?_, fun v hv o ho => ?_⟩
  · have hb' : b ∈ f.layout := hpr.graph.layout ▸ hb
    refine ⟨hpr.graph.numBlocks ▸ (h.inTables b hb').1, fun v hv => ?_⟩
    rw [hpr.values b hb', List.mem_filter] at hv
    exact hnum ▸ (h.inTables b hb').2 v hv.1
  · rw [hpr.control]
    exact hown (h.control b (hpr.graph.layout ▸ hb))
  · have hv := (hpr.live hkeep).mp hv
    rw [hpr.kept v ((hkeep v).mpr hv)] at ho
    exact hown (h.args v hv o ho)

/-- Nothing is left to be taken out a second time. -/
theorem Pruned.removeDead_again (hnum : g.numValues = f.numValues) (h : f.Closed) :
    g.removeDead = .ok (g, false) := by
  refine removeDead_eq_self (hpr.closed hkeep hnum h) fun b hb v hv => ?_
  rw [hpr.values b (hpr.graph.layout ▸ hb), List.mem_filter] at hv
  exact (hpr.live hkeep).mpr ((hkeep v).mp hv.2)

end again

theorem removeDead_good (h : f.Good True) : ∃ g ch, f.removeDead = .ok (g, ch) ∧ g.Good True := by
  obtain ⟨g, ch, keep, hg, hpr, -, hkeep⟩ :=
    removeDead_spec h.closed h.ssa.flow.layout_nodup h.ssa.listing
  have hu : f.Unread keep :=
    ⟨fun _ _ u _ hk _ v hv => .inl ((hkeep v).mpr (((hkeep u).mp hk).operand hv)),
      fun b hb v hv => .inl ((hkeep v).mpr (.control hb hv))⟩
  exact ⟨g, ch, hg, hpr.ssa h.ssa hu, hpr.tidy h.tidy⟩

end SsaJit.Func

namespace SsaJit.Pass

/-- A jump that names a value of another function. -/
def aside : Func where
  name := "aside"
  ret := .void
  params := []
  blocks := #[
    { kind := .jump, succs := [1], control := .foreign 0 },
    { kind := .ret, preds := [0] }]
  layout := [0, 1]
  foreigns := #[⟨7, { op := .const, type := .i32 }⟩]

end SsaJit.Pass
