import Mathlib.Data.List.InsertIdx
import Mathlib.Data.List.Nodup
import SsaJit.Graph.Edit
import SsaJit.Proofs.Graph.Paths

/-! What the updates of a function do to its tables of values and blocks, entry by entry. -/

namespace SsaJit.Func

variable {f : Func} {v w : ValueId} {b c : BlockId}

theorem value_of_le (h : f.numValues ≤ v) : f.value v = default := by
  simp [value, Array.getElem?_eq_none (by exact h)]

theorem block_of_le (h : f.numBlocks ≤ b) : f.block b = default := by
  simp [block, Array.getElem?_eq_none (by exact h)]

/-! ## Changing one entry -/

section modify

variable {g : Value → Value} {k : Block → Block}

@[simp] theorem block_modifyValue : (f.modifyValue v g).block b = f.block b := rfl
@[simp] theorem layout_modifyValue : (f.modifyValue v g).layout = f.layout := rfl
@[simp] theorem ret_modifyValue : (f.modifyValue v g).ret = f.ret := rfl
@[simp] theorem numBlocks_modifyValue : (f.modifyValue v g).numBlocks = f.numBlocks := rfl
@[simp] theorem numValues_modifyValue : (f.modifyValue v g).numValues = f.numValues := by
  simp [numValues, modifyValue]

@[simp] theorem value_modifyBlock : (f.modifyBlock b k).value v = f.value v := rfl
@[simp] theorem layout_modifyBlock : (f.modifyBlock b k).layout = f.layout := rfl
@[simp] theorem ret_modifyBlock : (f.modifyBlock b k).ret = f.ret := rfl
@[simp] theorem numValues_modifyBlock : (f.modifyBlock b k).numValues = f.numValues := rfl
@[simp] theorem numBlocks_modifyBlock : (f.modifyBlock b k).numBlocks = f.numBlocks := by
  simp [numBlocks, modifyBlock]

theorem value_modifyValue (hv : v < f.numValues) :
    (f.modifyValue v g).value w = if w = v then g (f.value v) else f.value w := by
  have hv' : v < f.values.size := hv
  by_cases hwv : w = v
  · subst hwv
    simp [value, modifyValue, hv', Array.getElem_modify]
  · by_cases hw : w < f.values.size
    · simp [value, modifyValue, hw, hwv, Array.getElem_modify, Ne.symm hwv]
    · simp [value, modifyValue, hw, hwv]

theorem value_modifyValue_ne (hwv : w ≠ v) : (f.modifyValue v g).value w = f.value w := by
  by_cases hv : v < f.numValues
  · rw [value_modifyValue hv, if_neg hwv]
  · by_cases hw : w < f.values.size
    · simp [value, modifyValue, hw, Array.getElem_modify, Ne.symm hwv]
    · simp [value, modifyValue, hw]

theorem block_modifyBlock (hb : b < f.numBlocks) :
    (f.modifyBlock b k).block c = if c = b then k (f.block b) else f.block c := by
  have hb' : b < f.blocks.size := hb
  by_cases hcb : c = b
  · subst hcb
    simp [block, modifyBlock, hb', Array.getElem_modify]
  · by_cases hc : c < f.blocks.size
    · simp [block, modifyBlock, hc, hcb, Array.getElem_modify, Ne.symm hcb]
    · simp [block, modifyBlock, hc, hcb]

theorem block_modifyBlock_ne (hcb : c ≠ b) : (f.modifyBlock b k).block c = f.block c := by
  by_cases hb : b < f.numBlocks
  · rw [block_modifyBlock hb, if_neg hcb]
  · by_cases hc : c < f.blocks.size
    · simp [block, modifyBlock, hc, Array.getElem_modify, Ne.symm hcb]
    · simp [block, modifyBlock, hc]

theorem modifyBlock_congr {p q : Block → Block} (h : p (f.block b) = q (f.block b)) :
    f.modifyBlock b p = f.modifyBlock b q := by
  have hblocks : f.blocks.modify b p = f.blocks.modify b q := by
    refine Array.ext (by simp) fun i hi hi' => ?_
    rw [Array.getElem_modify, Array.getElem_modify]
    split
    · next hbi =>
      subst hbi
      simpa [block, Array.getD_eq_getD_getElem?, Array.getElem?_eq_getElem (by simpa using hi)]
        using h
    · rfl
  rw [modifyBlock, modifyBlock, hblocks]

theorem modifyBlock_self {p : Block → Block} (h : p (f.block b) = f.block b) :
    f.modifyBlock b p = f := by
  rw [modifyBlock_congr (q := id) h, modifyBlock]
  have : f.blocks.modify b id = f.blocks := Array.ext (by simp) fun i _ _ => by
    rw [Array.getElem_modify]
    split <;> rfl
  rw [this]

theorem modifyValue_congr {p q : Value → Value} (h : p (f.value v) = q (f.value v)) :
    f.modifyValue v p = f.modifyValue v q := by
  have hvalues : f.values.modify v p = f.values.modify v q := by
    refine Array.ext (by simp) fun i hi hi' => ?_
    rw [Array.getElem_modify, Array.getElem_modify]
    split
    · next hvi =>
      subst hvi
      simpa [value, Array.getD_eq_getD_getElem?, Array.getElem?_eq_getElem (by simpa using hi)]
        using h
    · rfl
  rw [modifyValue, modifyValue, hvalues]

theorem modifyValue_modifyValue {p q : Value → Value} :
    (f.modifyValue v p).modifyValue v q = f.modifyValue v (q ∘ p) := by
  have hvalues : (f.values.modify v p).modify v q = f.values.modify v (q ∘ p) := by
    refine Array.ext (by simp) fun i hi hi' => ?_
    simp only [Array.getElem_modify]
    split <;> rfl
  simp only [modifyValue, hvalues]

end modify

/-! ## Changing many values -/

section foldl

variable {g : Value → Value} {l : List ValueId}

@[simp] theorem block_foldl_modifyValue :
    (l.foldl (fun f v => f.modifyValue v g) f).block b = f.block b := by
  induction l generalizing f with
  | nil => rfl
  | cons v l ih => rw [List.foldl_cons, ih, block_modifyValue]

@[simp] theorem layout_foldl_modifyValue :
    (l.foldl (fun f v => f.modifyValue v g) f).layout = f.layout := by
  induction l generalizing f with
  | nil => rfl
  | cons v l ih => rw [List.foldl_cons, ih, layout_modifyValue]

@[simp] theorem numValues_foldl_modifyValue :
    (l.foldl (fun f v => f.modifyValue v g) f).numValues = f.numValues := by
  induction l generalizing f with
  | nil => rfl
  | cons v l ih => rw [List.foldl_cons, ih, numValues_modifyValue]

@[simp] theorem numBlocks_foldl_modifyValue :
    (l.foldl (fun f v => f.modifyValue v g) f).numBlocks = f.numBlocks := by
  induction l generalizing f with
  | nil => rfl
  | cons v l ih => rw [List.foldl_cons, ih, numBlocks_modifyValue]

@[simp] theorem ret_foldl_modifyValue :
    (l.foldl (fun f v => f.modifyValue v g) f).ret = f.ret := by
  induction l generalizing f with
  | nil => rfl
  | cons v l ih => rw [List.foldl_cons, ih, ret_modifyValue]

/-- A change that is the same made twice. -/
theorem value_foldl_modifyValue (hg : ∀ x, g (g x) = g x) (hl : ∀ v ∈ l, v < f.numValues) :
    (l.foldl (fun f v => f.modifyValue v g) f).value w =
      if w ∈ l then g (f.value w) else f.value w := by
  induction l generalizing f with
  | nil => simp
  | cons v l ih =>
    have hv := hl v List.mem_cons_self
    rw [List.foldl_cons, ih fun x hx => by
      rw [numValues_modifyValue]; exact hl x (List.mem_cons_of_mem _ hx)]
    rw [value_modifyValue hv]
    by_cases hwv : w = v
    · subst hwv
      simp [hg]
    · simp [hwv]

end foldl

/-! ## New and removed entries -/

section push

variable {x : Value}

@[simp] theorem value_pushValue : (f.pushValue x).1.value w =
    if w = f.numValues then x else f.value w := by
  by_cases hw : w = f.numValues
  · subst hw
    simp [value, pushValue, numValues]
  · rw [if_neg hw]
    have hw' : w ≠ f.values.size := hw
    simp [value, pushValue, Array.getElem?_push, hw']

@[simp] theorem block_pushValue : (f.pushValue x).1.block b = f.block b := rfl
@[simp] theorem layout_pushValue : (f.pushValue x).1.layout = f.layout := rfl
@[simp] theorem ret_pushValue : (f.pushValue x).1.ret = f.ret := rfl
@[simp] theorem numBlocks_pushValue : (f.pushValue x).1.numBlocks = f.numBlocks := rfl
@[simp] theorem pushValue_snd : (f.pushValue x).2 = f.numValues := rfl
@[simp] theorem numValues_pushValue : (f.pushValue x).1.numValues = f.numValues + 1 := by
  simp [numValues, pushValue]

end push

/-- The function that has a new value at a position of a block. -/
def inserted (f : Func) (b : BlockId) (i : Nat) (x : Value) : Func :=
  (f.pushValue { x with block := some b }).1.modifyBlock b fun blk =>
    { blk with values := blk.values.insertIdx i f.numValues }

/-- A change of an old value and a new value do not touch each other. -/
theorem inserted_modifyValue {i : Nat} {x : Value} {g : Value → Value} (hv : v < f.numValues) :
    (f.modifyValue v g).inserted b i x = (f.inserted b i x).modifyValue v g := by
  have hvalues : ∀ y : Value, (f.values.modify v g).push y = (f.values.push y).modify v g := by
    intro y
    refine Array.ext (by simp) fun i hi hi' => ?_
    have hv : v < f.values.size := hv
    simp only [Array.getElem_push, Array.getElem_modify, Array.size_modify]
    split
    · rfl
    · next hge => rw [if_neg fun heq : v = i => hge (heq ▸ hv)]
  simp only [inserted, pushValue, modifyValue, modifyBlock, hvalues, numValues, Array.size_modify]

theorem insertValue_eq {i : Nat} {x : Value} (hi : i ≤ (f.block b).values.length) :
    f.insertValue b i x = .ok (f.inserted b i x, f.numValues) := by
  have hneg : ¬ ((i : Int) < 0 ∨ (f.block b).values.length < (i : Int).toNat) := by
    simp only [Int.toNat_natCast]
    omega
  rw [insertValue, if_neg hneg]
  rfl

section inserted

variable {i : Nat} {x : Value}

@[simp] theorem layout_inserted : (f.inserted b i x).layout = f.layout := rfl
@[simp] theorem ret_inserted : (f.inserted b i x).ret = f.ret := rfl
@[simp] theorem numValues_inserted : (f.inserted b i x).numValues = f.numValues + 1 := by
  simp [inserted]
@[simp] theorem numBlocks_inserted : (f.inserted b i x).numBlocks = f.numBlocks := by
  simp [inserted]

theorem value_inserted : (f.inserted b i x).value w =
    if w = f.numValues then { x with block := some b } else f.value w := by
  simp [inserted]

theorem block_inserted (hb : b < f.numBlocks) : (f.inserted b i x).block c =
    if c = b then { f.block b with values := (f.block b).values.insertIdx i f.numValues }
    else f.block c := by
  rw [inserted, block_modifyBlock (by simpa using hb)]
  simp

end inserted

section removed

@[simp] theorem layout_removeValue : (f.removeValue b v).layout = f.layout := by
  unfold removeValue; split <;> rfl
@[simp] theorem ret_removeValue : (f.removeValue b v).ret = f.ret := by
  unfold removeValue; split <;> rfl
@[simp] theorem numValues_removeValue : (f.removeValue b v).numValues = f.numValues := by
  unfold removeValue; split <;> simp
@[simp] theorem numBlocks_removeValue : (f.removeValue b v).numBlocks = f.numBlocks := by
  unfold removeValue; split <;> simp

theorem value_removeValue (hv : v < f.numValues) (hin : v ∈ (f.block b).values) :
    (f.removeValue b v).value w =
      if w = v then { f.value v with block := none } else f.value w := by
  rw [removeValue, if_pos (by simpa using hin), value_modifyValue (by simpa using hv)]
  simp

theorem block_removeValue (hb : b < f.numBlocks) (hin : v ∈ (f.block b).values) :
    (f.removeValue b v).block c =
      if c = b then { f.block b with values := (f.block b).values.erase v } else f.block c := by
  rw [removeValue, if_pos (by simpa using hin), block_modifyValue, block_modifyBlock hb]

end removed

/-! ## Replacing operands -/

/-- One operand put for another. -/
def swap (old new o : Operand) : Operand := if o = old then new else o

/-- The operand with its value renamed. -/
def rename (σ : ValueId → ValueId) : Operand → Operand
  | .value v => .value (σ v)
  | o => o

theorem rename_id (o : Operand) : rename id o = o := by
  cases o <;> rfl

/-- Putting one value for another after renaming is renaming. -/
theorem swap_rename (σ : ValueId → ValueId) (v w : ValueId) (o : Operand) :
    swap (.value v) (.value w) (rename σ o) = rename (fun x => if σ x = v then w else σ x) o := by
  cases o with
  | missing => rfl
  | foreign k => rfl
  | value x =>
    simp only [swap, rename, Operand.value.injEq]
    split <;> rfl

theorem swap_idem (old new o : Operand) : swap old new (swap old new o) = swap old new o := by
  unfold swap
  split
  · split <;> simp_all
  · rfl

theorem map_swap_idem (old new : Operand) (l : List Operand) :
    (l.map (swap old new)).map (swap old new) = l.map (swap old new) := by
  rw [List.map_map]
  exact List.map_congr_left fun o _ => swap_idem old new o


/-- Every entry that the blocks of a list name exists. -/
def InTables (f : Func) (l : List BlockId) : Prop :=
  ∀ b ∈ l, b < f.numBlocks ∧ ∀ v ∈ (f.block b).values, v < f.numValues

/-- Replacing in one block. -/
def replaceIn (old new : Operand) (f : Func) (b : BlockId) : Func :=
  ((f.block b).values.foldl (fun f v =>
    f.modifyValue v fun val => { val with args := val.args.map (swap old new) }) f).modifyBlock b
      fun blk => { blk with control := swap old new blk.control }

theorem replaceUses_eq (old new : Operand) :
    f.replaceUses old new = f.layout.foldl (replaceIn old new) f := rfl

section replaceUses

variable {old new : Operand} {l : List BlockId}

theorem replaceIn_frame (old new : Operand) (f : Func) (b : BlockId) :
    (replaceIn old new f b).layout = f.layout ∧
    (replaceIn old new f b).ret = f.ret ∧ (replaceIn old new f b).numValues = f.numValues ∧
    (replaceIn old new f b).numBlocks = f.numBlocks := by
  simp [replaceIn]

theorem block_replaceIn (hb : b < f.numBlocks) : (replaceIn old new f b).block c =
    if c = b then { f.block b with control := swap old new (f.block b).control }
    else f.block c := by
  rw [replaceIn, block_modifyBlock (by simpa using hb)]
  simp

theorem value_replaceIn (hv : ∀ v ∈ (f.block b).values, v < f.numValues) :
    (replaceIn old new f b).value w = if w ∈ (f.block b).values
      then { f.value w with args := (f.value w).args.map (swap old new) } else f.value w := by
  rw [replaceIn, value_modifyBlock, value_foldl_modifyValue (fun x => ?_) hv]
  exact congrArg (fun a => { x with args := a }) (map_swap_idem old new x.args)

theorem replaceIn_inTables (h : InTables f l) (hb : b < f.numBlocks) :
    InTables (replaceIn old new f b) l := by
  intro c hc
  obtain ⟨hlt, hval⟩ := h c hc
  obtain ⟨_, _, hnv, hnb⟩ := replaceIn_frame old new f b
  rw [hnv, hnb, block_replaceIn hb]
  split
  · next heq => subst heq; exact ⟨hlt, hval⟩
  · exact ⟨hlt, hval⟩

theorem replaceIn_foldl (h : InTables f l) :
    (l.foldl (replaceIn old new) f).layout = f.layout ∧
    (l.foldl (replaceIn old new) f).ret = f.ret ∧
    (l.foldl (replaceIn old new) f).numValues = f.numValues ∧
    (l.foldl (replaceIn old new) f).numBlocks = f.numBlocks ∧
    (∀ c, (l.foldl (replaceIn old new) f).block c =
      if c ∈ l then { f.block c with control := swap old new (f.block c).control }
      else f.block c) ∧
    (∀ w, (l.foldl (replaceIn old new) f).value w = if ∃ b ∈ l, w ∈ (f.block b).values
      then { f.value w with args := (f.value w).args.map (swap old new) } else f.value w) := by
  induction l generalizing f with
  | nil => simp
  | cons b l ih =>
    obtain ⟨hb, hv⟩ := h b List.mem_cons_self
    have hl : InTables f l := fun c hc => h c (List.mem_cons_of_mem _ hc)
    obtain ⟨hlay, hret, hnv, hnb⟩ := replaceIn_frame old new f b
    obtain ⟨h₁, h₂, h₃, h₄, h₅, h₆⟩ := ih (replaceIn_inTables hl hb)
    rw [List.foldl_cons]
    refine ⟨h₁.trans hlay, h₂.trans hret, h₃.trans hnv, h₄.trans hnb, fun c => ?_, fun w => ?_⟩
    · rw [h₅, block_replaceIn hb]
      by_cases hcb : c = b
      · subst hcb
        simp [swap_idem]
      · simp [hcb]
    · have hvals : ∀ c, ((replaceIn old new f b).block c).values = (f.block c).values := by
        intro c
        rw [block_replaceIn hb]
        split
        · next heq => subst heq; rfl
        · rfl
      rw [h₆, value_replaceIn hv]
      simp only [hvals, List.mem_cons, exists_eq_or_imp]
      by_cases hwb : w ∈ (f.block b).values
      · simp [hwb, swap_idem, Function.comp_def]
      · simp [hwb]

variable (h : InTables f f.layout)
include h

theorem layout_replaceUses : (f.replaceUses old new).layout = f.layout :=
  (replaceIn_foldl h).1

theorem ret_replaceUses : (f.replaceUses old new).ret = f.ret :=
  (replaceIn_foldl h).2.1

theorem numValues_replaceUses : (f.replaceUses old new).numValues = f.numValues :=
  (replaceIn_foldl h).2.2.1

theorem numBlocks_replaceUses : (f.replaceUses old new).numBlocks = f.numBlocks :=
  (replaceIn_foldl h).2.2.2.1

theorem block_replaceUses : (f.replaceUses old new).block c = if c ∈ f.layout
    then { f.block c with control := swap old new (f.block c).control } else f.block c :=
  (replaceIn_foldl h).2.2.2.2.1 c

theorem value_replaceUses : (f.replaceUses old new).value w =
    if ∃ b ∈ f.layout, w ∈ (f.block b).values
    then { f.value w with args := (f.value w).args.map (swap old new) } else f.value w :=
  (replaceIn_foldl h).2.2.2.2.2 w

end replaceUses

end SsaJit.Func
