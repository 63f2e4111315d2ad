import SsaJit.Pass.ControlFlow
import SsaJit.Proofs.Ssa.Trim

/-! Phis with one source, and joining a block to the one that jumps to it. Control comes to a phi's
block for the first time from where the phi itself cannot be read, so its one source dominates it
strictly. -/

namespace SsaJit.Func

variable {f g k : Func} {b c d s p : BlockId} {u v w x : ValueId} {o : Operand}

/-! ## Phis with one source -/

/-- The phi takes nothing but one value and itself. -/
structure OneSource (f : Func) (v w : ValueId) : Prop where
  phi : (f.value v).op = .phi
  ne : w ≠ v
  mem : .value w ∈ (f.value v).args
  only : ∀ o ∈ (f.value v).args, o = .value v ∨ o = .value w

/-- The argument that a phi has for a predecessor. -/
theorem Ssa.exists_arg (h : f.Ssa) (hb : b ∈ f.layout) (hv : v ∈ (f.block b).values)
    (hphi : (f.value v).op = .phi) (hp : p ∈ (f.block b).preds) :
    ∃ o ∈ (f.value v).args, f.operandType o = (f.value v).type ∧ f.AtEnd o p := by
  obtain ⟨hlen, hall⟩ := h.phis b hb v hv hphi
  obtain ⟨i, hi⟩ := List.getElem?_of_mem hp
  have hlt : i < (f.value v).args.length := hlen ▸ (List.getElem?_eq_some_iff.mp hi).1
  have hz : ((f.value v).args[i], p) ∈ (f.value v).args.zip (f.block b).preds := by
    refine List.mem_of_getElem? (i := i) ?_
    rw [List.getElem?_zip_eq_some]
    exact ⟨List.getElem?_eq_getElem hlt, hi⟩
  exact ⟨_, List.getElem_mem hlt, hall _ hz⟩

theorem OneSource.type (h : f.OneSource v w) (hf : f.Ssa) (hb : b ∈ f.layout)
    (hv : v ∈ (f.block b).values) : (f.value w).type = (f.value v).type :=
  (hf.arg_pred hb hv h.phi h.mem).1

/-- The source of a phi is a store or stands in a block that dominates the phi's, and another one. -/
theorem OneSource.source (h : f.OneSource v w) (hf : f.Ssa) (hb : b ∈ f.layout)
    (hv : v ∈ (f.block b).values) : (f.value w).op = .store ∨ ∃ d, (f.value w).block = some d ∧
      (f.Reached b → d ≠ b ∧ f.Dominates d b) := by
  obtain ⟨_, p, _, w', hw', hor⟩ := hf.arg_pred hb hv h.phi h.mem
  obtain rfl : w = w' := by simpa using hw'
  by_cases hstore : (f.value w).op = .store
  · exact .inl hstore
  obtain ⟨d, hd, _⟩ := hor.resolve_left hstore
  refine .inr ⟨d, hd, fun hr => ?_⟩
  have hblock := (hf.listing.listed v b).mpr ⟨hb, hv⟩
  have hne : b ≠ f.start := by
    rintro rfl
    exact hf.entry_phis v hv h.phi
  have key : ∀ q, Trail f.next f.start b q → ∃ r : List BlockId,
      d ∈ r ∧ b ∉ r ∧ ∀ x ∈ r, x ∈ q := by
    intro q hq
    obtain ⟨q', hq', hnd, hsub⟩ := hq.exists_nodup
    cases hq' with
    | start => exact absurd rfl hne
    | @step a _ r ha hedge =>
      obtain ⟨hbr, _⟩ := List.nodup_cons.mp hnd
      have hra : f.Reached a := ⟨r, ha⟩
      have hpred := (hf.flow.mem_preds_iff (hf.flow.reached_mem hra) hb).mpr hedge
      obtain ⟨o, ho, _, y, hy, hend⟩ := hf.exists_arg hb hv h.phi hpred
      refine ⟨r, ?_, hbr, fun x hx => hsub x (List.mem_cons_of_mem _ hx)⟩
      rcases h.only o ho with rfl | rfl
      · -- the phi itself cannot be read before its block was entered
        obtain rfl : v = y := by simpa using hy
        obtain ⟨b', hb', hdom⟩ := hend.resolve_left (by simp [h.phi])
        obtain rfl : b = b' := Option.some.inj (hblock.symm.trans hb')
        exact absurd (hdom hra r ha) hbr
      · obtain rfl : w = y := by simpa using hy
        obtain ⟨d', hd', hdom⟩ := hend.resolve_left hstore
        obtain rfl : d = d' := Option.some.inj (hd.symm.trans hd')
        exact hdom hra r ha
  refine ⟨?_, fun q hq => ?_⟩
  · obtain ⟨q, hq⟩ := hr
    obtain ⟨r, hdr, hbr, _⟩ := key q hq
    rintro rfl
    exact hbr hdr
  · obtain ⟨r, hdr, _, hsub⟩ := key q hq
    exact hsub d hdr

theorem OneSource.covers (h : f.OneSource v w) (hf : f.Ssa) (hb : b ∈ f.layout)
    (hv : v ∈ (f.block b).values) : f.Covers w v := by
  have hblock := (hf.listing.listed v b).mpr ⟨hb, hv⟩
  have hvs : (f.value v).op ≠ .store := by simp [h.phi]
  refine ⟨h.type hf hb hv, fun c hc => ?_, fun c u hc hu _ _ _ huse => ?_⟩
  · obtain ⟨v', hv', hor⟩ := hc
    obtain rfl : v = v' := by simpa using hv'
    obtain ⟨b', hb', hdom⟩ := hor.resolve_left hvs
    obtain rfl : b = b' := Option.some.inj (hblock.symm.trans hb')
    refine ⟨w, rfl, (h.source hf hb hv).imp_right fun ⟨d, hd, hstrict⟩ => ⟨d, hd, fun hr => ?_⟩⟩
    exact (hstrict ((hdom hr).reach hr)).2.trans (hdom hr)
  · obtain ⟨v', hv', hor⟩ := huse
    obtain rfl : v = v' := by simpa using hv'
    obtain ⟨_, hearly⟩ := hor.resolve_left hvs
    refine ⟨w, rfl, (h.source hf hb hv).imp_right fun ⟨d, hd, hstrict⟩ =>
      ⟨by rw [hd]; rfl, fun hr => ⟨d, hd, .inr ?_⟩⟩⟩
    obtain ⟨b', hb', hor⟩ := hearly hr
    obtain rfl : b = b' := Option.some.inj (hblock.symm.trans hb')
    rcases hor with ⟨rfl, _⟩ | ⟨hne, hdom⟩
    · exact hstrict hr
    · have hrb := hdom.reach hr
      refine ⟨?_, (hstrict hrb).2.trans hdom⟩
      rintro rfl
      exact hne (hdom.antisymm hr (hstrict hrb).2)

theorem Ssa.dropPhi (h : f.Ssa) (hb : b ∈ f.layout) (hv : v ∈ (f.block b).values)
    (hs : f.OneSource v w) : (f.replaceValue v (.value w)).Ssa :=
  h.replaceValue hb hv hs.ne (hs.covers h hb hv)

theorem onlySource_spec {l : List Operand} (found : Operand) (hl : ∀ o ∈ l, ∃ y, o = .value y) :
    (onlySource v found l = .missing) ∨ ((found ≠ .missing → onlySource v found l = found) ∧
      (onlySource v found l = found ∨ onlySource v found l ∈ l) ∧
      (found = .missing ∨ found ≠ .value v → onlySource v found l ≠ .value v) ∧
      ∀ o ∈ l, o = .value v ∨ o = onlySource v found l) := by
  induction l generalizing found with
  | nil =>
    refine .inr ⟨fun _ => rfl, .inl rfl, ?_, by simp⟩
    rintro (rfl | h)
    · simp [onlySource]
    · exact h
  | cons o l ih =>
    obtain ⟨y, rfl⟩ := hl o List.mem_cons_self
    have hl : ∀ o ∈ l, ∃ y, o = .value y := fun o ho => hl o (List.mem_cons_of_mem _ ho)
    rw [onlySource]
    split
    · next hself =>
      rcases ih found hl with hm | ⟨h₁, h₂, h₃, h₄⟩
      · exact .inl hm
      · refine .inr ⟨h₁, h₂.imp_right (List.mem_cons_of_mem _), h₃, fun o ho => ?_⟩
        rcases List.mem_cons.mp ho with rfl | ho
        · rcases hself with heq | heq
          · exact .inl heq
          · exact .inr (heq.trans (h₁ (heq ▸ by simp)).symm)
        · exact h₄ o ho
    · next hself =>
      simp only [not_or] at hself
      split
      · next hmiss =>
        rcases ih (.value y) hl with hm | ⟨h₁, h₂, h₃, h₄⟩
        · exact .inl hm
        · have heq := h₁ (by simp)
          refine .inr ⟨fun hne => absurd hmiss hne, ?_, fun _ => h₃ (.inr hself.1), fun o ho => ?_⟩
          · exact .inr (by rw [heq]; exact List.mem_cons_self)
          · rcases List.mem_cons.mp ho with rfl | ho
            · exact .inr heq.symm
            · exact h₄ o ho
      · exact .inl rfl

/-- What `onlySource` finds is the one source. -/
theorem oneSource_of_onlySource (h : f.Ssa) (hb : b ∈ f.layout) (hv : v ∈ (f.block b).values)
    (hphi : (f.value v).op = .phi) : onlySource v .missing (f.value v).args = .missing ∨
      ∃ w, onlySource v .missing (f.value v).args = .value w ∧ f.OneSource v w := by
  have hval : ∀ o ∈ (f.value v).args, ∃ y, o = .value y := fun o ho =>
    let ⟨_, _, _, hend⟩ := h.arg_pred hb hv hphi ho
    hend.isValue
  rcases onlySource_spec (v := v) .missing hval with hm | ⟨_, h₂, h₃, h₄⟩
  · exact .inl hm
  · rcases h₂ with hm | hmem
    · exact .inl hm
    · obtain ⟨w, hw⟩ := hval _ hmem
      have hne := h₃ (.inl rfl)
      rw [hw] at hmem hne h₄
      exact .inr ⟨w, hw, hphi, fun heq => hne (by rw [heq]), hmem, h₄⟩

/-! ## Joining two blocks -/

/-- Control goes from `b` to `c` and nowhere else, and comes to `c` from nowhere else. -/
structure Joins (f : Func) (b c : BlockId) : Prop where
  first : b ∈ f.layout
  second : c ∈ f.layout
  ne : b ≠ c
  reached : f.Reached b
  jump : (f.block b).kind = .jump
  succs : (f.block b).succs = [c]
  preds : (f.block c).preds = [b]

/-- `g` is `f` with block `c` at the end of block `b`. -/
structure Merged (f g : Func) (b c : BlockId) : Prop where
  joins : f.Joins b c
  noPhis : ∀ v ∈ (f.block c).values, (f.value v).op ≠ .phi
  layout : g.layout = f.layout.erase c
  ret : g.ret = f.ret
  numBlocks : g.numBlocks = f.numBlocks
  own : ∀ x, x ≠ c → (g.block x).isForeign = (f.block x).isForeign
  values : ∀ x, x ≠ c → (g.block x).values =
    if x = b then (f.block b).values ++ (f.block c).values else (f.block x).values
  ends : ∀ x, x ≠ c → (g.block x).kind = (f.block (if x = b then c else x)).kind ∧
    (g.block x).control = (f.block (if x = b then c else x)).control ∧
    (g.block x).succs = (f.block (if x = b then c else x)).succs
  preds : ∀ x ∈ f.layout, x ≠ c →
    (g.block x).preds = (f.block x).preds.map fun p => if p = c then b else p
  value : ∀ v, g.value v = if v ∈ (f.block c).values
    then { f.value v with block := some b } else f.value v

/-- The block with the end of another, and its values after its own. -/
def absorb (tail blk : Block) : Block :=
  { blk with
    values := blk.values ++ tail.values, kind := tail.kind, control := tail.control,
    succs := tail.succs }

/-- The block with one predecessor in place of another. -/
def renamePred (c b : BlockId) (blk : Block) : Block :=
  { blk with preds := blk.preds.map fun p => if p = c then b else p }

def blank (blk : Block) : Block :=
  { blk with values := [], succs := [], preds := [], control := .missing, kind := .pending }

/-- The function with block `c` at the end of block `b`. -/
def joined (f : Func) (b c : BlockId) : Func :=
  (((f.block c).succs.foldl (fun f s => f.modifyBlock s (renamePred c b))
    (((f.block c).values.foldl (fun f v =>
      f.modifyValue v fun val => { val with block := some b }) f).modifyBlock b
        (absorb (f.block c)))).modifyBlock c blank).removeBlock c

section foldl

variable {l : List BlockId} {h : Block → Block}

theorem foldl_modifyBlock_frame (f : Func) (l : List BlockId) (h : Block → Block) :
    (l.foldl (fun f s => f.modifyBlock s h) f).layout = f.layout ∧
    (l.foldl (fun f s => f.modifyBlock s h) f).ret = f.ret ∧
    (l.foldl (fun f s => f.modifyBlock s h) f).numBlocks = f.numBlocks ∧
    ∀ v, (l.foldl (fun f s => f.modifyBlock s h) f).value v = f.value v := by
  induction l generalizing f with
  | nil => exact ⟨rfl, rfl, rfl, fun _ => rfl⟩
  | cons s l ih =>
    obtain ⟨h₁, h₂, h₃, h₄⟩ := ih (f.modifyBlock s h)
    exact ⟨h₁, h₂, h₃.trans numBlocks_modifyBlock, h₄⟩

theorem block_foldl_modifyBlock (hh : ∀ x, h (h x) = h x) (hl : ∀ s ∈ l, s < f.numBlocks) :
    (l.foldl (fun f s => f.modifyBlock s h) f).block c =
      if c ∈ l then h (f.block c) else f.block c := by
  induction l generalizing f with
  | nil => simp
  | cons s l ih =>
    rw [List.foldl_cons, ih fun x hx => by
      rw [numBlocks_modifyBlock]; exact hl x (List.mem_cons_of_mem _ hx)]
    rw [block_modifyBlock (hl s List.mem_cons_self)]
    by_cases hcs : c = s
    · subst hcs
      simp [hh]
    · simp [hcs]

end foldl

theorem renamePred_idem (b c : BlockId) (blk : Block) :
    renamePred c b (renamePred c b blk) = renamePred c b blk := by
  simp only [renamePred, List.map_map, Block.mk.injEq, true_and, and_true]
  refine List.map_congr_left fun p _ => ?_
  simp only [Function.comp]
  split <;> simp

/-! ### What the joined function is made of -/

theorem layout_joined : (f.joined b c).layout = f.layout.erase c := by
  unfold joined removeBlock
  rw [layout_modifyBlock, (foldl_modifyBlock_frame _ _ _).1, layout_modifyBlock,
    layout_foldl_modifyValue]

theorem ret_joined : (f.joined b c).ret = f.ret := by
  unfold joined removeBlock
  rw [ret_modifyBlock, (foldl_modifyBlock_frame _ _ _).2.1, ret_modifyBlock, ret_foldl_modifyValue]

theorem numBlocks_joined : (f.joined b c).numBlocks = f.numBlocks := by
  change (Func.modifyBlock _ c blank).numBlocks = _
  rw [numBlocks_modifyBlock, (foldl_modifyBlock_frame _ _ _).2.2.1, numBlocks_modifyBlock,
    numBlocks_foldl_modifyValue]

theorem value_joined (hl : f.Listing) (hc : c ∈ f.layout) : (f.joined b c).value v =
    if v ∈ (f.block c).values then { f.value v with block := some b } else f.value v := by
  refine ((foldl_modifyBlock_frame _ (f.block c).succs (renamePred c b)).2.2.2 v).trans ?_
  exact value_foldl_modifyValue (fun _ => rfl) fun v hv => hl.lt hc hv

/-- Another block than the second is as before, but for the first, which absorbs the second, and for
the successors of the second, which have the first for a predecessor instead. -/
theorem block_joined (hf : f.Flow) (h : f.Joins b c) {x : BlockId} (hx : x ≠ c) :
    (f.joined b c).block x =
      let blk := if x = b then absorb (f.block c) (f.block b) else f.block x
      if x ∈ (f.block c).succs then renamePred c b blk else blk := by
  change Func.block (Func.modifyBlock _ c blank) x = _
  rw [block_modifyBlock_ne hx, block_foldl_modifyBlock (renamePred_idem b c) fun s hs => by
      rw [numBlocks_modifyBlock, numBlocks_foldl_modifyValue]
      exact hf.lt s (hf.succs_mem c h.second s hs),
    block_modifyBlock (by rw [numBlocks_foldl_modifyValue]; exact hf.lt b h.first),
    block_foldl_modifyValue, block_foldl_modifyValue]

/-- In front of its successors the second block gives way to the first, and elsewhere it is not. -/
theorem preds_joined (hf : f.Flow) (h : f.Joins b c) {x : BlockId} (hx : x ∈ f.layout) (hxc : x ≠ c) :
    ((f.joined b c).block x).preds = (f.block x).preds.map fun p => if p = c then b else p := by
  rw [block_joined hf h hxc]
  have hsame : (if x = b then absorb (f.block c) (f.block b) else f.block x).preds =
      (f.block x).preds := by
    split
    · next heq => rw [heq]; rfl
    · rfl
  dsimp only
  split
  · simp only [renamePred, hsame]
  · next hnot =>
    rw [hsame]
    refine (List.map_id _).symm.trans (List.map_congr_left fun p hp => ?_)
    have hpc : p ≠ c := by
      rintro rfl
      exact hnot ((hf.mem_preds_iff h.second hx).mp hp)
    simp [hpc]

theorem joined_spec (hf : f.Ssa) (h : f.Joins b c)
    (hphis : ∀ v ∈ (f.block c).values, (f.value v).op ≠ .phi) : Merged f (f.joined b c) b c where
  joins := h
  noPhis := hphis
  layout := layout_joined
  ret := ret_joined
  numBlocks := numBlocks_joined
  own := fun x hx => by
    rw [block_joined hf.flow h hx]
    by_cases hxb : x = b
    · subst hxb
      simp only [if_true]
      split <;> rfl
    · simp only [if_neg hxb]
      split <;> rfl
  values := fun x hx => by
    rw [block_joined hf.flow h hx]
    by_cases hxb : x = b
    · simp only [if_pos hxb]
      split <;> rfl
    · simp only [if_neg hxb]
      split <;> rfl
  ends := fun x hx => by
    rw [block_joined hf.flow h hx]
    by_cases hxb : x = b
    · simp only [if_pos hxb]
      split <;> exact ⟨rfl, rfl, rfl⟩
    · simp only [if_neg hxb]
      split <;> exact ⟨rfl, rfl, rfl⟩
  preds := fun _ hx hxc => preds_joined hf.flow h hx hxc
  value := fun _ => value_joined hf.listing h.second

theorem WellTyped.home {y : Value} {ts : List Ty} {home home' : Prop}
    (h : WellTyped y ts home) (himp : home → home') : WellTyped y ts home' := by
  unfold WellTyped at h ⊢
  cases hy : y.op
  case alloca =>
    rw [hy] at h
    exact ⟨himp h.1, h.2⟩
  all_goals
    rw [hy] at h
    exact h

namespace Merged

theorem op (h : Merged f g b c) : (g.value v).op = (f.value v).op := by
  rw [h.value]; split <;> rfl

theorem head (h : Merged f g b c) (v : ValueId) :
    ∃ d, g.value v = { f.value v with block := d } := by
  rw [h.value]
  split
  · exact ⟨_, rfl⟩
  · exact ⟨(f.value v).block, rfl⟩

theorem operandType (h : Merged f g b c) : g.operandType o = f.operandType o := by
  cases o with
  | value v =>
    obtain ⟨d, hd⟩ := h.head v
    change (g.value v).type = (f.value v).type
    rw [hd]
  | missing => rfl
  | foreign k => rfl

theorem mem_layout (h : Merged f g b c) (hf : f.Flow) {x : BlockId} :
    x ∈ g.layout ↔ x ∈ f.layout ∧ x ≠ c := by
  rw [h.layout, hf.layout_nodup.mem_erase_iff, and_comm]

theorem ne_start (h : Merged f g b c) (hf : f.Flow) : c ≠ f.start := by
  rintro rfl
  have := h.joins.preds
  rw [hf.entry_preds] at this
  simp at this

theorem start (h : Merged f g b c) (hf : f.Flow) : g.start = f.start := by
  have hne := h.ne_start hf
  unfold Func.start at hne ⊢
  rw [h.layout]
  cases hl : f.layout with
  | nil => rfl
  | cons x l =>
    have hx : x ≠ c := by rw [hl] at hne; exact Ne.symm hne
    rw [List.erase_cons_tail (by simpa using hx)]
    rfl

theorem next_first (h : Merged f g b c) : g.next b = f.next c := by
  have := (h.ends b h.joins.ne).2.2
  rw [if_pos rfl] at this
  exact this

theorem next_other (h : Merged f g b c) {x : BlockId} (hx : x ≠ c) (hxb : x ≠ b) :
    g.next x = f.next x := by
  have := (h.ends x hx).2.2
  rw [if_neg hxb] at this
  exact this

/-- Where a block's values and end are in the joined function. -/
def moved (b c x : BlockId) : BlockId := if x = c then b else x

/-- A trail of the joined function is one of the two, with the second block put back in. -/
theorem expand (h : Merged f g b c) (hf : f.Flow) {x : BlockId} {q : List BlockId}
    (hq : Trail g.next g.start x q) : x ≠ c ∧ ∃ r, Trail f.next f.start x r ∧
      ∀ y ∈ r, moved b c y ∈ q := by
  have hnc : ∀ y, y ≠ b → f.Reached y → c ∉ f.next y := by
    intro y hy hr hm
    have := (hf.mem_preds_iff (hf.reached_mem hr) h.joins.second).mpr hm
    rw [h.joins.preds, List.mem_singleton] at this
    exact hy this
  have hcc : c ∉ f.next c := hnc c h.joins.ne.symm
    (h.joins.reached.step (by rw [next, h.joins.succs]; exact List.mem_singleton_self c))
  induction hq with
  | start =>
    rw [h.start hf]
    refine ⟨(h.ne_start hf).symm, [f.start], .start, fun y hy => ?_⟩
    obtain rfl : y = f.start := by simpa using hy
    simp [moved, (h.ne_start hf).symm]
  | @step y z q hq hedge ih =>
    obtain ⟨hyc, r, hr, hsub⟩ := ih
    have hgrow : ∀ {r' : List BlockId}, (∀ w ∈ r', moved b c w ∈ q) →
        z ≠ c → ∀ w ∈ z :: r', moved b c w ∈ z :: q := by
      intro r' hr' hz w hw
      rcases List.mem_cons.mp hw with rfl | hw
      · simp [moved, hz]
      · exact List.mem_cons_of_mem _ (hr' w hw)
    by_cases hyb : y = b
    · subst hyb
      rw [h.next_first] at hedge
      have hz : z ≠ c := fun heq => hcc (heq ▸ hedge)
      refine ⟨hz, z :: c :: r, (hr.step (by rw [next, h.joins.succs]; simp)).step hedge, ?_⟩
      refine hgrow (fun w hw => ?_) hz
      rcases List.mem_cons.mp hw with rfl | hw
      · simpa [moved] using hq.self_mem
      · exact hsub w hw
    · rw [h.next_other hyc hyb] at hedge
      have hz : z ≠ c := fun heq => hnc y hyb ⟨r, hr⟩ (heq ▸ hedge)
      exact ⟨hz, z :: r, hr.step hedge, hgrow hsub hz⟩

theorem reached (h : Merged f g b c) (hf : f.Flow) {x : BlockId} (hx : g.Reached x) :
    f.Reached x := by
  obtain ⟨q, hq⟩ := hx
  obtain ⟨_, r, hr, _⟩ := h.expand hf hq
  exact ⟨r, hr⟩

theorem reached_second (h : Merged f g b c) : f.Reached c :=
  h.joins.reached.step (by rw [next, h.joins.succs]; exact List.mem_singleton_self c)

theorem first_dominates (h : Merged f g b c) (hf : f.Flow) : f.Dominates b c := by
  refine Dom.of_preds (h.ne_start hf) fun y hy hedge => ?_
  have := (hf.mem_preds_iff (hf.reached_mem hy) h.joins.second).mpr hedge
  rw [h.joins.preds, List.mem_singleton] at this
  rw [this]
  exact .refl _ _ _

theorem dominates (h : Merged f g b c) (hf : f.Flow) {x : BlockId} (hd : f.Dominates d x) :
    g.Dominates (moved b c d) (moved b c x) := by
  intro q hq
  obtain ⟨_, r, hr, hsub⟩ := h.expand hf hq
  by_cases hx : x = c
  · subst hx
    rw [moved, if_pos rfl] at hr hq
    have hstep := hr.step (c := x) (by rw [next, h.joins.succs]; simp)
    rcases List.mem_cons.mp (hd _ hstep) with rfl | hm
    · rw [moved, if_pos rfl]
      exact hq.self_mem
    · exact hsub d hm
  · rw [moved, if_neg hx] at hr
    exact hsub d (hd r hr)

theorem block (h : Merged f g b c) (hf : f.Ssa) (hd : (f.value v).block = some d) :
    (g.value v).block = some (moved b c d) := by
  obtain ⟨hdl, hv⟩ := (hf.listing.listed v d).mp hd
  rw [h.value]
  by_cases hdc : d = c
  · subst hdc
    rw [if_pos hv, moved, if_pos rfl]
  · rw [if_neg fun hvc => hdc (hf.listing.unique hdl h.joins.second hv hvc), moved, if_neg hdc, hd]

theorem atEnd (h : Merged f g b c) (hf : f.Ssa) {x : BlockId} (ho : f.AtEnd o x) :
    g.AtEnd o (moved b c x) := by
  obtain ⟨v, rfl, hv⟩ := ho
  refine ⟨v, rfl, hv.imp (fun hs => h.op.trans hs) fun ⟨d, hd, hdom⟩ =>
    ⟨moved b c d, h.block hf hd, fun hr => h.dominates hf.flow (hdom ?_)⟩⟩
  have hr := h.reached hf.flow hr
  by_cases hx : x = c
  · rw [hx]
    exact h.reached_second
  · rwa [moved, if_neg hx] at hr

/-- What two blocks list, one after the other, keeps its order. -/
theorem sublist (h : Merged f g b c) {x : BlockId}
    (hs : [v, u].Sublist (f.block x).values) :
    [v, u].Sublist (g.block (moved b c x)).values := by
  by_cases hxc : x = c
  · subst hxc
    rw [moved, if_pos rfl, h.values b h.joins.ne, if_pos rfl]
    exact hs.trans (List.sublist_append_right _ _)
  · rw [moved, if_neg hxc, h.values x hxc]
    split
    · next heq => subst heq; exact hs.trans (List.sublist_append_left _ _)
    · exact hs

theorem before (h : Merged f g b c) (hf : f.Ssa) {x : BlockId} (hx : x ∈ f.layout)
    (hu : u ∈ (f.block x).values) (ho : f.Before o u x) : g.Before o u (moved b c x) := by
  obtain ⟨v, rfl, hv⟩ := ho
  refine ⟨v, rfl, hv.imp (fun hs => h.op.trans hs) fun ⟨hsome, hearly⟩ => ?_⟩
  obtain ⟨d, hd⟩ := Option.isSome_iff_exists.mp hsome
  have hgd := h.block hf hd
  refine ⟨by rw [hgd]; rfl, fun hr => ⟨moved b c d, hgd, ?_⟩⟩
  have hrx : f.Reached x := by
    have := h.reached hf.flow hr
    by_cases hxc : x = c
    · rw [hxc]
      exact h.reached_second
    · rwa [moved, if_neg hxc] at this
  obtain ⟨d', hd', hor⟩ := hearly hrx
  obtain rfl : d = d' := Option.some.inj (hd.symm.trans hd')
  obtain ⟨_, hvd⟩ := (hf.listing.listed v d).mp hd
  by_cases hsame : moved b c d = moved b c x
  · refine .inl ⟨hsame, ?_⟩
    rcases hor with ⟨rfl, hs⟩ | ⟨hne, hdom⟩
    · exact h.sublist hs
    · -- one of the two blocks is the first and the other the second
      by_cases hdc : d = c
      · subst hdc
        have hxb : x = b := by
          rw [moved, moved, if_pos rfl, if_neg (Ne.symm hne)] at hsame
          exact hsame.symm
        subst hxb
        exact absurd (hdom.antisymm hrx (h.first_dominates hf.flow)) hne
      · have hxc : x = c := by
          by_contra hxc
          rw [moved, moved, if_neg hdc, if_neg hxc] at hsame
          exact hne hsame
        subst hxc
        have hdb : d = b := by rwa [moved, moved, if_neg hdc, if_pos rfl] at hsame
        subst hdb
        rw [moved, if_pos rfl, h.values d hdc, if_pos rfl]
        exact (List.singleton_sublist.mpr hvd).append (List.singleton_sublist.mpr hu)
  · refine .inr ⟨hsame, ?_⟩
    rcases hor with ⟨rfl, _⟩ | ⟨_, hdom⟩
    · exact absurd rfl hsame
    · exact h.dominates hf.flow hdom

theorem count_renamed (l : List BlockId) (hne : b ≠ c) {x : BlockId} (hx : x ≠ c) :
    (l.map fun p => if p = c then b else p).count x =
      if x = b then l.count b + l.count c else l.count x := by
  induction l with
  | nil => simp
  | cons p l ih =>
    rw [List.map_cons, List.count_cons, ih]
    by_cases hpc : p = c
    · subst hpc
      by_cases hxb : x = b
      · subst hxb
        simp [Ne.symm hne]
        omega
      · simp [hxb, Ne.symm hxb, Ne.symm hx]
    · by_cases hxb : x = b
      · subst hxb
        simp [hpc, List.count_cons]
        omega
      · simp [hpc, hxb, List.count_cons]

theorem flow (h : Merged f g b c) (hf : f.Flow) : g.Flow := by
  have hbc := h.joins.ne
  have hfrom : ∀ x ∈ f.layout, c ∈ (f.block x).succs → x = b := by
    intro x hx hm
    have := (hf.mem_preds_iff hx h.joins.second).mpr hm
    rwa [h.joins.preds, List.mem_singleton] at this
  refine ⟨fun hnil => ?_, ?_, fun x hx => ?_, fun x hx => ?_, fun x hx s hs => ?_,
    fun x hx p hp => ?_, fun x hx y hy => ?_, ?_⟩
  · have : f.start ∈ g.layout := (h.mem_layout hf).mpr ⟨hf.start_mem, (h.ne_start hf).symm⟩
    simp [hnil] at this
  · rw [h.layout]
    exact hf.layout_nodup.erase c
  · rw [h.numBlocks]
    exact hf.lt x ((h.mem_layout hf).mp hx).1
  · obtain ⟨hx, hxc⟩ := (h.mem_layout hf).mp hx
    rw [h.own x hxc]
    exact hf.own x hx
  · obtain ⟨hx, hxc⟩ := (h.mem_layout hf).mp hx
    rw [(h.ends x hxc).2.2] at hs
    split at hs
    · refine (h.mem_layout hf).mpr ⟨hf.succs_mem c h.joins.second s hs, ?_⟩
      rintro rfl
      exact hbc (hfrom s h.joins.second hs).symm
    · next hxb =>
      refine (h.mem_layout hf).mpr ⟨hf.succs_mem x hx s hs, ?_⟩
      rintro rfl
      exact hxb (hfrom x hx hs)
  · obtain ⟨hx, hxc⟩ := (h.mem_layout hf).mp hx
    rw [h.preds x hx hxc] at hp
    obtain ⟨p', hp', rfl⟩ := List.mem_map.mp hp
    split
    · exact (h.mem_layout hf).mpr ⟨h.joins.first, hbc⟩
    · next hpc => exact (h.mem_layout hf).mpr ⟨hf.preds_mem x hx p' hp', hpc⟩
  · obtain ⟨hx, hxc⟩ := (h.mem_layout hf).mp hx
    obtain ⟨hy, hyc⟩ := (h.mem_layout hf).mp hy
    rw [(h.ends x hxc).2.2, h.preds y hy hyc, count_renamed _ hbc hxc]
    split
    · next heq =>
      have hb := hf.edges b h.joins.first y hy
      rw [h.joins.succs, List.count_singleton, if_neg (by simpa using Ne.symm hyc)] at hb
      rw [← hb, Nat.zero_add]
      exact hf.edges c h.joins.second y hy
    · exact hf.edges x hx y hy
  · rw [h.start hf, h.preds _ hf.start_mem (h.ne_start hf).symm, hf.entry_preds]
    rfl

/-- Each value of the joined function comes from one of the two blocks or from its own. -/
theorem mem_values (h : Merged f g b c) {x : BlockId} (hx : x ∈ f.layout) (hxc : x ≠ c)
    (hv : v ∈ (g.block x).values) : ∃ y ∈ f.layout, v ∈ (f.block y).values ∧ moved b c y = x := by
  rw [h.values x hxc] at hv
  split at hv
  · next heq =>
    subst heq
    rcases List.mem_append.mp hv with hv | hv
    · exact ⟨x, hx, hv, if_neg hxc⟩
    · exact ⟨c, h.joins.second, hv, if_pos rfl⟩
  · exact ⟨x, hx, hv, if_neg hxc⟩

theorem mem_values_moved (h : Merged f g b c) {y : BlockId} (hv : v ∈ (f.block y).values) :
    v ∈ (g.block (moved b c y)).values := by
  by_cases hyc : y = c
  · subst hyc
    rw [moved, if_pos rfl, h.values b h.joins.ne, if_pos rfl]
    exact List.mem_append_right _ hv
  · rw [moved, if_neg hyc, h.values y hyc]
    split
    · next heq => subst heq; exact List.mem_append_left _ hv
    · exact hv

theorem listing (h : Merged f g b c) (hf : f.Ssa) : g.Listing := by
  have hbc := h.joins.ne
  have hml := fun {x} => h.mem_layout hf.flow (x := x)
  refine ⟨fun v x => ⟨fun hgx => ?_, ?_⟩, fun x hx => ?_⟩
  · rw [h.value] at hgx
    split at hgx
    · next hvc =>
      obtain rfl : b = x := Option.some.inj hgx
      refine ⟨hml.mpr ⟨h.joins.first, hbc⟩, ?_⟩
      have := h.mem_values_moved hvc
      rwa [moved, if_pos rfl] at this
    · next hvc =>
      obtain ⟨hx, hv⟩ := (hf.listing.listed v x).mp hgx
      have hxc : x ≠ c := fun heq => hvc (heq ▸ hv)
      refine ⟨hml.mpr ⟨hx, hxc⟩, ?_⟩
      have := h.mem_values_moved hv
      rwa [moved, if_neg hxc] at this
  · rintro ⟨hx, hv⟩
    obtain ⟨hx, hxc⟩ := hml.mp hx
    obtain ⟨y, hy, hvy, rfl⟩ := h.mem_values hx hxc hv
    exact h.block hf ((hf.listing.listed v y).mpr ⟨hy, hvy⟩)
  · obtain ⟨hx, hxc⟩ := hml.mp hx
    rw [h.values x hxc]
    split
    · next heq =>
      refine List.nodup_append.mpr ⟨hf.listing.nodup b h.joins.first,
        hf.listing.nodup c h.joins.second, fun v hv w hw heq => ?_⟩
      subst heq
      exact hbc (hf.listing.unique h.joins.first h.joins.second hv hw)
    · exact hf.listing.nodup x hx

theorem entry_phis (h : Merged f g b c) (hf : f.Ssa) (hv : v ∈ (g.block g.start).values) :
    (g.value v).op ≠ .phi := by
  rw [h.start hf.flow] at hv
  obtain ⟨y, hy, hv, hmoved⟩ := h.mem_values hf.flow.start_mem (h.ne_start hf.flow).symm hv
  rw [h.op]
  by_cases hyc : y = c
  · exact h.noPhis v (hyc ▸ hv)
  · rw [moved, if_neg hyc] at hmoved
    exact hf.entry_phis v (hmoved ▸ hv)

/-- The first block ends as the second did, the others as before. -/
theorem endsWell (h : Merged f g b c) (hf : f.Ssa) {x : BlockId} (hx : x ∈ g.layout) :
    g.EndsWell x := by
  obtain ⟨hx, hxc⟩ := (h.mem_layout hf.flow).mp hx
  obtain ⟨hkind, hctl, hsucc⟩ := h.ends x hxc
  have hsrc : (if x = b then c else x) ∈ f.layout := by
    split
    · exact h.joins.second
    · exact hx
  have hback : moved b c (if x = b then c else x) = x := by
    split
    · next heq => rw [moved, if_pos rfl, heq]
    · rw [moved, if_neg hxc]
  refine (hf.ends _ hsrc).transfer hkind (by rw [hsucc]) h.ret (by rw [hctl]) fun ho => ?_
  have hend := h.atEnd hf ho
  rw [hback] at hend
  rw [hctl]
  exact ⟨hend, h.operandType⟩

/-- What stands before a phi of the first block stood there before the second was joined to it. -/
theorem sublist_of_phi (h : Merged f g b c) {y p : ValueId}
    (hs : [y, p].Sublist ((f.block b).values ++ (f.block c).values)) (hp : (f.value p).op = .phi) :
    [y, p].Sublist (f.block b).values := by
  have hpc : p ∉ (f.block c).values := fun hm => h.noPhis p hm hp
  obtain ⟨l₁, l₂, heq, h₁, h₂⟩ := List.sublist_append_iff.mp hs
  have hnil : l₂ = [] := by
    by_contra hne
    have hlast := congrArg List.getLast? heq
    rw [List.getLast?_append_of_ne_nil _ hne] at hlast
    have : p ∈ l₂ := List.mem_of_getLast? (by rw [← hlast]; rfl)
    exact hpc (h₂.subset this)
  rw [hnil, List.append_nil] at heq
  exact heq ▸ h₁

theorem phiWell (h : Merged f g b c) (hf : f.Ssa) {x : BlockId} (hx : x ∈ g.layout)
    (hv : v ∈ (g.block x).values) (hp : (g.value v).op = .phi) : g.PhiWell x v := by
  obtain ⟨hx, hxc⟩ := (h.mem_layout hf.flow).mp hx
  rw [h.op] at hp
  obtain ⟨y, hy, hvy, hmoved⟩ := h.mem_values hx hxc hv
  have hyc : y ≠ c := fun heq => h.noPhis v (heq ▸ hvy) hp
  rw [moved, if_neg hyc] at hmoved
  subst hmoved
  obtain ⟨hlen, hall⟩ := hf.phis y hy v hvy hp
  unfold PhiWell
  obtain ⟨d, hd⟩ := h.head v
  rw [hd, h.preds y hy hyc]
  refine ⟨by simpa using hlen, fun z hz => ?_⟩
  rw [List.zip_map_right, List.mem_map] at hz
  obtain ⟨z', hz', rfl⟩ := hz
  exact ⟨h.operandType.trans (hall z' hz').1, h.atEnd hf (hall z' hz').2⟩

theorem valueWell (h : Merged f g b c) (hf : f.Ssa) {x : BlockId} (hx : x ∈ g.layout)
    (hv : v ∈ (g.block x).values) (hp : (g.value v).op ≠ .phi) : g.ValueWell x v := by
  obtain ⟨hx, hxc⟩ := (h.mem_layout hf.flow).mp hx
  rw [h.op] at hp
  obtain ⟨y, hy, hvy, rfl⟩ := h.mem_values hx hxc hv
  obtain ⟨hbefore, htyped⟩ := hf.values y hy v hvy hp
  obtain ⟨d, hd⟩ := h.head v
  have hts : g.argTypes { f.value v with block := d } = f.argTypes (f.value v) :=
    List.map_congr_left fun o _ => h.operandType
  unfold ValueWell
  rw [hd, hts, h.start hf.flow]
  refine ⟨fun hparam o ho => h.before hf hy hvy (hbefore hparam o ho), ?_⟩
  refine htyped.home fun heq => ?_
  rw [heq, moved, if_neg (h.ne_start hf.flow).symm]

theorem ssa (h : Merged f g b c) (hf : f.Ssa) : g.Ssa where
  flow := h.flow hf.flow
  listing := h.listing hf
  entry_phis := fun _ hv => h.entry_phis hf hv
  ends := fun _ hx => h.endsWell hf hx
  phisFirst := fun x hx y p hs hp => by
    obtain ⟨hx, hxc⟩ := (h.mem_layout hf.flow).mp hx
    rw [h.op] at hp ⊢
    rw [h.values x hxc] at hs
    split at hs
    · exact hf.phisFirst b h.joins.first y p (h.sublist_of_phi hs hp) hp
    · exact hf.phisFirst x hx y p hs hp
  phis := fun _ hx _ hv hp => h.phiWell hf hx hv hp
  values := fun _ hx _ hv hp => h.valueWell hf hx hv hp

theorem tidy {strict : Prop} (h : Merged f g b c) (hf : f.Tidy strict) (hs : f.Flow) :
    g.Tidy strict := by
  have hop : ∀ {o}, f.NoStore o → g.NoStore o := fun ho v hv => h.op ▸ ho v hv
  have hmem : ∀ {x v}, x ∈ g.layout → v ∈ (g.block x).values →
      ∃ y ∈ f.layout, v ∈ (f.block y).values := by
    intro x v hx hv
    obtain ⟨hx, hxc⟩ := (h.mem_layout hs).mp hx
    obtain ⟨y, hy, hv, _⟩ := h.mem_values hx hxc hv
    exact ⟨y, hy, hv⟩
  have hsrc : ∀ x ∈ f.layout, (if x = b then c else x) ∈ f.layout := by
    intro x hx
    split
    · exact h.joins.second
    · exact hx
  refine tidy_of (fun x hx v hv => ?_) (storesUnused_of (fun x hx v hv o ho => ?_) fun x hx => ?_)
    fun hst x hx hbr hret => ?_
  · obtain ⟨y, hy, hv⟩ := hmem hx hv
    have hyt := hf.value hy hv
    obtain ⟨d, hd⟩ := h.head v
    rw [hd]
    exact ⟨hyt.consts, hyt.type, hyt.params⟩
  · obtain ⟨y, hy, hv⟩ := hmem hx hv
    obtain ⟨d, hd⟩ := h.head v
    rw [hd] at ho
    exact hop (hf.noStore_arg hy hv ho)
  · obtain ⟨hx, hxc⟩ := (h.mem_layout hs).mp hx
    rw [(h.ends x hxc).2.1]
    exact hop (hf.stores.control (hsrc x hx))
  · obtain ⟨hx, hxc⟩ := (h.mem_layout hs).mp hx
    obtain ⟨hkind, hctl, _⟩ := h.ends x hxc
    rw [hkind] at hbr hret
    rw [hctl]
    exact hf.ends hst _ (hsrc x hx) hbr hret

end Merged

end SsaJit.Func
