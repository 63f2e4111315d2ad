import SsaJit.Proofs.Build.Stages

/-! The ends of blocks under construction. A block that is given an end is left alone from then on; the
only one that is changed, the jump out of an arm that an else is added to behind, comes to the jump that
might have been set at once. -/

namespace SsaJit.Func

variable {f g k : Func} {b c d : BlockId} {u v w a : ValueId} {o : Operand} {x : Value}

/-! ## The end of a block -/

/-- The function with edges from a block to others. -/
def linked (f : Func) (b : BlockId) (ts : List BlockId) : Func :=
  ts.foldl (fun f c => f.addEdge b c) f

/-- The function with an end for a block: its kind, its condition or result, and where it leads. -/
def ended (f : Func) (b : BlockId) (kind : BlockKind) (control : Operand) (ts : List BlockId) :
    Func :=
  (f.modifyBlock b fun blk => { blk with kind, control }).linked b ts

section ended

variable {kind : BlockKind} {control : Operand} {ts : List BlockId}

theorem linked_frame : (f.linked b ts).layout = f.layout ∧ (f.linked b ts).ret = f.ret ∧
    (f.linked b ts).values = f.values ∧ (f.linked b ts).paramValues = f.paramValues ∧
    (f.linked b ts).numBlocks = f.numBlocks := by
  induction ts generalizing f with
  | nil => exact ⟨rfl, rfl, rfl, rfl, rfl⟩
  | cons t ts ih =>
    obtain ⟨h₁, h₂, h₃, h₄, h₅⟩ := ih (f := f.addEdge b t)
    exact ⟨h₁, h₂, h₃, h₄, h₅.trans (by simp [addEdge])⟩

theorem block_addEdge (hb : b < f.numBlocks) (hd : d < f.numBlocks) : (f.addEdge b d).block c =
    { f.block c with
      succs := if c = b then (f.block c).succs ++ [d] else (f.block c).succs
      preds := if c = d then (f.block c).preds ++ [b] else (f.block c).preds } := by
  rw [addEdge, block_modifyBlock (by simpa using hd), block_modifyBlock hb, block_modifyBlock hb]
  by_cases hcd : c = d <;> by_cases hcb : c = b
  · subst hcd
    simp [hcb]
  · subst hcd
    simp [hcb]
  · subst hcb
    simp [hcd]
  · simp [hcd, hcb]

theorem block_linked (hb : b < f.numBlocks) (hts : ∀ t ∈ ts, t < f.numBlocks) :
    (f.linked b ts).block c =
      { f.block c with
        succs := if c = b then (f.block c).succs ++ ts else (f.block c).succs
        preds := (f.block c).preds ++ List.replicate (ts.count c) b } := by
  induction ts generalizing f with
  | nil => simp [linked]
  | cons t ts ih =>
    have hnum : (f.addEdge b t).numBlocks = f.numBlocks := by simp [addEdge]
    change ((f.addEdge b t).linked b ts).block c = _
    rw [ih (by rwa [hnum]) fun t' ht' => by rw [hnum]; exact hts t' (List.mem_cons_of_mem _ ht'),
      block_addEdge hb (hts t List.mem_cons_self)]
    have hpreds : (if c = t then (f.block c).preds ++ [b] else (f.block c).preds) ++
        List.replicate (ts.count c) b = (f.block c).preds ++ List.replicate ((t :: ts).count c) b := by
      rw [List.count_cons]
      by_cases hct : c = t
      · simp [hct, List.replicate_succ]
      · simp [hct, Ne.symm hct]
    have hsuccs : (if c = b then (if c = b then (f.block c).succs ++ [t] else (f.block c).succs) ++ ts
        else if c = b then (f.block c).succs ++ [t] else (f.block c).succs) =
          if c = b then (f.block c).succs ++ t :: ts else (f.block c).succs := by
      split <;> simp
    simp only [hpreds, hsuccs]

@[simp] theorem value_ended : (f.ended b kind control ts).value v = f.value v := by
  rw [ended, value, linked_frame.2.2.1]
  rfl

@[simp] theorem numValues_ended : (f.ended b kind control ts).numValues = f.numValues := by
  rw [ended, numValues, linked_frame.2.2.1]
  rfl

@[simp] theorem numBlocks_ended : (f.ended b kind control ts).numBlocks = f.numBlocks := by
  rw [ended, linked_frame.2.2.2.2]
  simp

@[simp] theorem ret_ended : (f.ended b kind control ts).ret = f.ret := linked_frame.2.1

@[simp] theorem layout_ended : (f.ended b kind control ts).layout = f.layout := linked_frame.1

theorem paramValues_ended : (f.ended b kind control ts).paramValues = f.paramValues :=
  linked_frame.2.2.2.1

/-- Nothing led on from the block before. -/
theorem block_ended (hb : b < f.numBlocks) (hts : ∀ t ∈ ts, t < f.numBlocks)
    (hsuccs : (f.block b).succs = []) : (f.ended b kind control ts).block c =
      { f.block c with
        kind := if c = b then kind else (f.block c).kind
        control := if c = b then control else (f.block c).control
        succs := if c = b then ts else (f.block c).succs
        preds := (f.block c).preds ++ List.replicate (ts.count c) b } := by
  rw [ended, block_linked (by simpa using hb) (by simpa using hts), block_modifyBlock hb]
  split
  · next hc =>
    subst hc
    simp [hsuccs]
  · rfl

theorem isHead_ended : (f.ended b kind control ts).isHead = f.isHead := by
  funext v
  rw [isHead, isHead, value_ended]

end ended

/-- As long as the block has no end, it leads nowhere and reads nothing. -/
def Bare (f : Func) (b : BlockId) : Prop :=
  (f.block b).kind = .pending → (f.block b).succs = [] ∧ (f.block b).control = .missing

theorem Draft.bare (hf : f.Draft) : f.Bare b := by
  intro h
  have hend := hf.ends b
  simpa only [EndInOrder, h] using hend

/-- The end that a block of a draft is given: where it leads, and what it reads. -/
structure Closing (f : Func) (b : BlockId) (kind : BlockKind) (control : Operand)
    (ts : List BlockId) : Prop where
  lt : b < f.numBlocks
  pending : (f.block b).kind = .pending
  targets : ∀ t ∈ ts, t ≠ 0 ∧ t < f.numBlocks
  fits : match kind with
    | .jump => (∃ c, ts = [c]) ∧ control = .missing
    | .branch => (∃ yes no, ts = [yes, no]) ∧ ∃ w, control = .value w ∧ f.Usable b w ∧
        (f.value w).type = .i1
    | .ret => ts = [] ∧ if control = .missing then f.ret.isVoid = true
        else f.ret.isVoid = false ∧ ∃ w, control = .value w ∧ f.Usable b w ∧ (f.value w).type = f.ret
    | .unreachable => ts = [] ∧ control = .missing
    | _ => False

namespace Closing

variable {kind : BlockKind} {control : Operand} {ts : List BlockId}

theorem target_lt (h : f.Closing b kind control ts) : ∀ t ∈ ts, t < f.numBlocks :=
  fun t ht => (h.targets t ht).2

theorem succs_nil (h : f.Closing b kind control ts) (hf : f.Draft) : (f.block b).succs = [] :=
  (hf.bare h.pending).1

theorem kind_ne (h : f.Closing b kind control ts) : kind ≠ .pending := by
  rintro rfl
  exact h.fits

theorem block (h : f.Closing b kind control ts) (hf : f.Draft) :
    (f.ended b kind control ts).block c =
      { f.block c with
        kind := if c = b then kind else (f.block c).kind
        control := if c = b then control else (f.block c).control
        succs := if c = b then ts else (f.block c).succs
        preds := (f.block c).preds ++ List.replicate (ts.count c) b } :=
  block_ended h.lt h.target_lt (h.succs_nil hf)

theorem heads (h : f.Closing b kind control ts) (hf : f.Draft) :
    (f.ended b kind control ts).heads c = f.heads c := by
  rw [Func.heads, Func.heads, isHead_ended, h.block hf]

theorem body (h : f.Closing b kind control ts) (hf : f.Draft) :
    (f.ended b kind control ts).body c = f.body c := by
  rw [Func.body, Func.body, isHead_ended, h.block hf]

theorem widens (h : f.Closing b kind control ts) (hf : f.Draft) :
    Widens f (f.ended b kind control ts) where
  value _ _ := value_ended
  values c := by rw [h.block hf]
  ret := ret_ended

theorem draft (h : f.Closing b kind control ts) (hf : f.Draft) :
    (f.ended b kind control ts).Draft where
  layout := by simpa using hf.layout
  pos := by simpa using hf.pos
  own c := by
    rw [h.block hf]
    exact hf.own c
  succs c := by
    rw [h.block hf, numBlocks_ended]
    dsimp only
    split
    · exact h.targets
    · exact hf.succs c
  edges c d := by
    rw [h.block hf, h.block hf]
    dsimp only
    rw [List.count_append, ← hf.edges c d, List.count_replicate]
    split
    · next hc =>
      subst hc
      simp [h.succs_nil hf]
    · next hc => simp [Ne.symm hc]
  listed v c := by
    rw [value_ended, h.block hf]
    exact hf.listed v c
  nodup c := by
    rw [h.block hf]
    exact hf.nodup c
  split c := by
    rw [h.heads hf, h.body hf, h.block hf]
    exact hf.split c
  values c v hv := by
    rw [h.block hf] at hv
    exact (h.widens hf).inOrder hf hv
  ends c := by
    by_cases hc : c = b
    · subst hc
      have hwid := h.widens hf
      have huse : ∀ w, f.Usable c w → (f.ended c kind control ts).Usable c w :=
        fun w hw => hwid.usable hf hw
      have hfits := h.fits
      unfold EndInOrder
      rw [h.block hf]
      simp only [if_true, value_ended, ret_ended]
      cases kind with
      | pending | other => exact hfits.elim
      | jump | unreachable => exact hfits
      | branch =>
        obtain ⟨hs, w, hw, hu, hty⟩ := hfits
        exact ⟨hs, w, hw, huse w hu, hty⟩
      | ret =>
        refine ⟨hfits.1, ?_⟩
        have hfits := hfits.2
        split at hfits
        · next hm => simpa [hm] using hfits
        · next hm =>
          obtain ⟨hvoid, w, hw, hu, hty⟩ := hfits
          rw [if_neg hm]
          exact ⟨hvoid, w, hw, huse w hu, hty⟩
    · refine (h.widens hf).endInOrder hf ?_ ?_ ?_ <;>
      · rw [h.block hf]
        simp [hc]

theorem grows (h : f.Closing b kind control ts) (hf : f.Draft) :
    GrowsTo f (f.ended b kind control ts) where
  numValues := by simp
  value _ _ := value_ended
  numBlocks := by simp
  params := paramValues_ended
  ret := ret_ended
  grown c := ⟨[], by rw [List.append_nil, h.body hf]⟩
  ended c hc := by
    have hne : c ≠ b := fun heq => hc (heq ▸ h.pending)
    rw [h.body hf, h.block hf]
    simp [hne]

end Closing

/-! ## Ends as they are set -/

theorem modifyBlock_modifyBlock {p q : Block → Block} :
    (f.modifyBlock b p).modifyBlock b q = f.modifyBlock b fun blk => q (p blk) := by
  have hblocks : (f.blocks.modify b p).modify b q = f.blocks.modify b fun blk => q (p blk) := by
    refine Array.ext (by simp) fun i hi hi' => ?_
    rw [Array.getElem_modify, Array.getElem_modify, Array.getElem_modify]
    split <;> rfl
  simp only [modifyBlock, hblocks]

/-- A block without an end has nothing to clear. -/
theorem clearTerminator_pending (hb : f.Bare b) (hp : (f.block b).kind = .pending) :
    f.clearTerminator b = .ok (f.modifyBlock b fun blk => { blk with kind := .pending }) := by
  obtain ⟨hsuccs, hcontrol⟩ := hb hp
  rw [clearTerminator, hsuccs]
  refine congrArg Except.ok (modifyBlock_congr ?_)
  simp [hsuccs, hcontrol]

theorem setJump_pending (hb : f.Bare b) (hp : (f.block b).kind = .pending) :
    f.setJump b c = .ok (f.ended b .jump .missing [c]) := by
  obtain ⟨-, hcontrol⟩ := hb hp
  rw [setJump, clearTerminator_pending hb hp]
  refine congrArg (fun g => Except.ok (addEdge g b c)) ?_
  rw [modifyBlock_modifyBlock]
  exact modifyBlock_congr (by simp [hcontrol])

theorem setBranch_pending (hb : f.Bare b) (hp : (f.block b).kind = .pending) :
    f.setBranch b o c d = .ok (f.ended b .branch o [c, d]) := by
  rw [setBranch, clearTerminator_pending hb hp]
  refine congrArg (fun g => Except.ok (addEdge (addEdge g b c) b d)) ?_
  rw [modifyBlock_modifyBlock]

theorem setRet_pending (hb : f.Bare b) (hp : (f.block b).kind = .pending) :
    f.setRet b o = .ok (f.ended b .ret o []) := by
  rw [setRet, clearTerminator_pending hb hp]
  refine congrArg Except.ok ?_
  rw [modifyBlock_modifyBlock]
  rfl

theorem setUnreachable_pending (hb : f.Bare b) (hp : (f.block b).kind = .pending) :
    f.setUnreachable b = .ok (f.ended b .unreachable .missing []) := by
  obtain ⟨-, hcontrol⟩ := hb hp
  rw [setUnreachable, clearTerminator_pending hb hp]
  refine congrArg Except.ok ?_
  rw [modifyBlock_modifyBlock]
  exact modifyBlock_congr (by simp [hcontrol])

/-- The function where `b`, if it has no end, jumps to `c`. -/
def fallen (f : Func) (b c : BlockId) : Func :=
  if (f.block b).isTerminated then f else f.ended b .jump .missing [c]

@[simp] theorem numBlocks_fallen : (f.fallen b c).numBlocks = f.numBlocks := by
  unfold fallen
  split <;> simp

theorem fallen_pending (hp : (f.block b).kind = .pending) :
    f.fallen b c = f.ended b .jump .missing [c] := by
  rw [fallen, if_neg (by simp [Block.isTerminated, hp])]

/-! ## What building from one block leaves alone -/

/-- Construction went on from block `b`: of the blocks that there were, only `b` was worked on, and no
edge was added to any. -/
structure Later (b : BlockId) (f g : Func) : Prop where
  grows : GrowsTo f g
  others : ∀ c < f.numBlocks, c ≠ b → (g.block c).kind = (f.block c).kind ∧ g.body c = f.body c
  preds : ∀ c < f.numBlocks, (g.block c).preds = (f.block c).preds

/-- The block was worked on, or it is new. -/
def Onward (f : Func) (b c : BlockId) : Prop := c = b ∨ f.numBlocks ≤ c

namespace Later

theorem refl (b : BlockId) (f : Func) : Later b f f :=
  ⟨.refl f, fun _ _ _ => ⟨rfl, rfl⟩, fun _ _ => rfl⟩

theorem trans (h₁ : Later b f g) (h₂ : Later c g k) (hc : f.Onward b c) : Later b f k where
  grows := h₁.grows.trans h₂.grows
  others d hd hdb := by
    have hdc : d ≠ c := by
      rintro rfl
      rcases hc with rfl | hle
      · exact hdb rfl
      · exact Nat.lt_irrefl _ (hd.trans_le hle)
    obtain ⟨hkind, hbody⟩ := h₁.others d hd hdb
    obtain ⟨hkind', hbody'⟩ := h₂.others d (hd.trans_le h₁.grows.numBlocks) hdc
    exact ⟨hkind'.trans hkind, hbody'.trans hbody⟩
  preds d hd := (h₂.preds d (hd.trans_le h₁.grows.numBlocks)).trans (h₁.preds d hd)

theorem appended (h : Later b f g) (hg : g.Draft) (hc : f.Onward b c) (hlt : c < g.numBlocks)
    (hx : x.op ≠ .param ∧ x.op ≠ .alloca) (hpend : (g.block c).kind = .pending) :
    Later b f (g.appended c x) := by
  refine h.trans ⟨growsTo_appended hg hlt hx hpend, fun d _ hdc => ?_, fun d _ => ?_⟩ hc
  · rw [block_appended hlt, body_appended hg hlt hx, if_neg hdc, if_neg hdc]
    exact ⟨rfl, rfl⟩
  · rw [block_appended hlt]
    split
    · next hdc => rw [hdc]
    · rfl

theorem spaced (h : Later b f g) (hg : g.Draft) (hx : Space x) : Later b f (g.spaced x) := by
  refine h.trans ⟨growsTo_spaced hg hx, fun d _ _ => ?_, fun d _ => ?_⟩ (.inl rfl)
  · rw [block_spaced hg, body_spaced hg hx]
    split
    · next hd => simp [hd]
    · exact ⟨rfl, rfl⟩
  · rw [block_spaced hg]
    split
    · next hd => rw [hd]
    · rfl

theorem newBlock (h : Later b f g) : Later b f g.newBlock.1 := by
  refine h.trans ⟨growsTo_newBlock, fun d _ _ => ?_, fun d _ => ?_⟩ (.inl rfl)
  · rw [block_newBlock, body_newBlock]
    exact ⟨rfl, rfl⟩
  · rw [block_newBlock]

/-- Ends lead to new blocks only. -/
theorem ended {kind : BlockKind} {ts : List BlockId} (h : Later b f g) (hg : g.Draft)
    (hc : f.Onward b c) (hx : g.Closing c kind o ts) (hts : ∀ t ∈ ts, f.numBlocks ≤ t) :
    Later b f (g.ended c kind o ts) where
  grows := h.grows.trans (hx.grows hg)
  others d hd hdb := by
    have hdc : d ≠ c := by
      rintro rfl
      rcases hc with rfl | hle
      · exact hdb rfl
      · exact Nat.lt_irrefl _ (hd.trans_le hle)
    rw [hx.block hg, hx.body hg]
    simpa [hdc] using h.others d hd hdb
  preds d hd := by
    have hnot : ts.count d = 0 := by
      rw [List.count_eq_zero]
      intro hin
      exact Nat.lt_irrefl _ (hd.trans_le (hts d hin))
    rw [hx.block hg]
    simpa [hnot] using h.preds d hd

theorem pending (h : Later b f g) (hc : c < f.numBlocks) (hcb : c ≠ b)
    (hp : (f.block c).kind = .pending) : (g.block c).kind = .pending := by
  rw [(h.others c hc hcb).1, hp]

end Later

/-! ## An end that is turned elsewhere -/

/-- Both functions are the same but for their blocks. -/
structure SameRest (f g : Func) : Prop where
  name : f.name = g.name
  ret : f.ret = g.ret
  params : f.params = g.params
  values : f.values = g.values
  layout : f.layout = g.layout
  paramValues : f.paramValues = g.paramValues
  foreigns : f.foreigns = g.foreigns
  adopted : f.adopted = g.adopted

namespace SameRest

theorem refl (f : Func) : SameRest f f := ⟨rfl, rfl, rfl, rfl, rfl, rfl, rfl, rfl⟩

theorem modifyBlock {p : Block → Block} (h : SameRest f g) : SameRest (f.modifyBlock b p) g :=
  ⟨h.1, h.2, h.3, h.4, h.5, h.6, h.7, h.8⟩

theorem symm (h : SameRest f g) : SameRest g f :=
  ⟨h.1.symm, h.2.symm, h.3.symm, h.4.symm, h.5.symm, h.6.symm, h.7.symm, h.8.symm⟩

theorem newBlock (h : SameRest f g) (hnum : f.numBlocks = g.numBlocks) :
    SameRest f.newBlock.1 g.newBlock.1 :=
  ⟨h.1, h.2, h.3, h.4, congrArg₂ (fun l n => l ++ [n]) h.5 hnum, h.6, h.7, h.8⟩

theorem ended {kind : BlockKind} {ts : List BlockId} (h : SameRest f g) :
    SameRest (f.ended b kind o ts) g := by
  have hjoin : ∀ f : Func, SameRest f g → SameRest (f.linked b ts) g := by
    induction ts with
    | nil => exact fun f hf => hf
    | cons t ts ih => exact fun f hf => ih _ hf.modifyBlock.modifyBlock
  exact hjoin _ h.modifyBlock

end SameRest

theorem eq_of_blocks (hrest : SameRest f g) (hnum : f.numBlocks = g.numBlocks)
    (hblock : ∀ b, f.block b = g.block b) : f = g := by
  have hblocks : f.blocks = g.blocks := by
    refine Array.ext hnum fun i hi hi' => ?_
    have hget : ∀ {l : Array Block} (hi : i < l.size), l.getD i default = l[i] := fun hi => by
      simp [Array.getD_eq_getD_getElem?, Array.getElem?_eq_getElem hi]
    have := hblock i
    rwa [block, block, hget hi, hget hi'] at this
  cases f
  cases g
  obtain ⟨h₁, h₂, h₃, h₄, h₅, h₆, h₇, h₈⟩ := hrest
  simp_all

/-- The last predecessor of an empty block. -/
theorem removePred_last {ps : List BlockId} (hc : c < f.numBlocks)
    (hvalues : (f.block c).values = []) (hpreds : (f.block c).preds = ps ++ [b]) :
    f.removePred c ps.length = .ok (f.modifyBlock c fun blk => { blk with preds := ps }) := by
  have hdrop : dropAt (ps ++ [b]) ps.length = .ok ps := by
    rw [dropAt, if_pos (by simp)]
    simp [List.eraseIdx_append_of_length_le]
  have hnone : (f.modifyBlock c fun blk => { blk with preds := ps }).valuesOf c = [] := by
    rw [valuesOf, block_modifyBlock hc, if_pos rfl]
    simp [hvalues]
  rw [removePred, if_neg (by simp)]
  simp only [Int.toNat_natCast, hpreds, hdrop, Outcome.ok_bind, hnone]
  rfl

theorem replaceSucc_last {ps : List BlockId} (hc : c < f.numBlocks)
    (hvalues : (f.block c).values = []) (hpreds : (f.block c).preds = ps ++ [b]) (hb : b ∉ ps)
    (hsuccs : (f.block b).succs = [c]) :
    f.replaceSucc b c d = .ok (((f.modifyBlock c fun blk => { blk with preds := ps }).modifyBlock b
      fun blk => { blk with succs := blk.succs.set 0 d }).modifyBlock d
        fun blk => { blk with preds := blk.preds ++ [b] }) := by
  have hplace : (f.block c).predIndex? b = some ps.length := by
    have hnone : ps.findIdx? (· == b) = none := by
      rw [List.findIdx?_eq_none_iff]
      intro p hp
      simpa using fun h : p = b => hb (h ▸ hp)
    rw [Block.predIndex?, hpreds, List.findIdx?_append, hnone]
    simp
  have hphis : f.phisOf c = [] := by
    rw [phisOf, valuesOf, hvalues]
    rfl
  have hextend : ∀ g : Func, g.extendPhis d [] = g := fun g => by simp [extendPhis]
  rw [replaceSucc, hsuccs]
  simp only [List.findIdx?_cons, beq_self_eq_true, if_true, hplace, hphis,
    removePred_last hc hvalues hpreds, List.mapM_nil, Outcome.ok_bind, Outcome.pure_eq_ok, hextend]

/-- Turning the jump from `b` away from an empty block to a new one undoes it: the block might have
jumped there in the first place. -/
theorem replaceSucc_jump (hb : b < f.numBlocks) (hbare : f.Bare b) (hp : (f.block b).kind = .pending)
    (hc : c < f.numBlocks) (hbc : b ≠ c) (hvalues : (f.block c).values = [])
    (hpreds : b ∉ (f.block c).preds) :
    (f.ended b .jump .missing [c]).newBlock.1.replaceSucc b c f.numBlocks =
      .ok (f.newBlock.1.ended b .jump .missing [f.numBlocks]) := by
  have hsuccs := (hbare hp).1
  have hblock : ∀ d, (f.ended b .jump .missing [c]).newBlock.1.block d = _ :=
    fun d => block_newBlock.trans (block_ended hb (by simpa using hc) hsuccs)
  have hnum : (f.ended b .jump .missing [c]).newBlock.1.numBlocks = f.numBlocks + 1 := by simp
  have hb' : b < f.numBlocks + 1 := Nat.lt_succ_of_lt hb
  have hc' : c < f.numBlocks + 1 := Nat.lt_succ_of_lt hc
  rw [replaceSucc_last (by rwa [hnum]) (by rw [hblock]; exact hvalues) (by rw [hblock]; simp) hpreds
    (by rw [hblock]; simp)]
  have hrest : SameRest (f.ended b .jump .missing [c]).newBlock.1
      (f.newBlock.1.ended b .jump .missing [f.numBlocks]) :=
    (SameRest.ended ((SameRest.refl f).ended.newBlock numBlocks_ended).symm).symm
  refine congrArg Except.ok (eq_of_blocks hrest.modifyBlock.modifyBlock.modifyBlock (by simp)
    fun d => ?_)
  have hnb : f.numBlocks ≠ b := (Nat.ne_of_lt hb).symm
  have hnc : f.numBlocks ≠ c := (Nat.ne_of_lt hc).symm
  rw [block_ended (by simpa using hb') (by simp) (by simpa using hsuccs), block_newBlock]
  by_cases hdn : d = f.numBlocks
  · subst hdn
    rw [block_modifyBlock (by simp [hnum]), if_pos rfl, block_modifyBlock_ne hnb,
      block_modifyBlock_ne hnc, hblock]
    simp [hnb, Ne.symm hnc]
  rw [block_modifyBlock_ne hdn]
  by_cases hdb : d = b
  · subst hdb
    rw [block_modifyBlock (by simpa [hnum] using hb'), if_pos rfl, block_modifyBlock_ne hbc, hblock]
    simp [hnb, Ne.symm hbc]
  rw [block_modifyBlock_ne hdb]
  by_cases hdc : d = c
  · subst hdc
    rw [block_modifyBlock (by rwa [hnum]), if_pos rfl, hblock]
    simp [hdb, Ne.symm hdn]
  rw [block_modifyBlock_ne hdc, hblock]
  simp [hdb, Ne.symm hdc, Ne.symm hdn]

end SsaJit.Func
