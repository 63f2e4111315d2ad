import SsaJit.Graph.Verify
import SsaJit.Proofs.Table

/-! Functions in good form, said without reference to the verifier's way of checking.

`Func.Consistent` is the form in which builders leave a function: the verifier finds nothing, edges
are entered as often at one end as at the other, values are listed where they say, and the entry has
neither predecessors nor phis. `Func.Ssa` says along trails what the optimisations rely on and keep.
It asks a little less: parameters may mention anything, since nothing reads the operands of a
parameter, and so may any operand mention a store, since a store has no result. -/

namespace SsaJit

/-- The pattern as far as the bytes of the kind hold it. -/
def Kind.cut (k : Kind) (w : UInt64) : UInt64 := if k.size = 0 then 0 else k.canon w

theorem Op.isBinary_of_isCast {op : Op} (h : op.isCast = true) : op.isBinary = false := by
  cases op <;> simp_all [isCast, isBinary]

namespace Func

variable {f : Func}

/-- Control can come to the block. -/
def Reached (f : Func) (b : BlockId) : Prop := Reach f.next f.start b

/-- All control that comes to `b` has come to `d`. -/
def Dominates (f : Func) (d b : BlockId) : Prop := Dom f.next f.start d b

/-- A function as builders leave it. -/
structure Consistent (f : Func) : Prop where
  verified : f.verify = .ok []
  layout_nodup : f.layout.Nodup
  succs_mem : ∀ b ∈ f.layout, ∀ s ∈ (f.block b).succs, s ∈ f.layout
  preds_mem : ∀ b ∈ f.layout, ∀ p ∈ (f.block b).preds, p ∈ f.layout
  /-- As multisets, the successors and the predecessors are the same edges. -/
  edges : ∀ b ∈ f.layout, ∀ c ∈ f.layout, (f.block b).succs.count c = (f.block c).preds.count b
  /-- A value is listed in the block that it names, and nowhere else. -/
  listed : ∀ v b, (f.value v).block = some b ↔ b ∈ f.layout ∧ v ∈ (f.block b).values
  values_nodup : ∀ b ∈ f.layout, (f.block b).values.Nodup
  entry_preds : (f.block f.start).preds = []
  entry_phis : ∀ v ∈ (f.block f.start).values, (f.value v).op ≠ .phi

/-! ## What builders promise of the data -/

/-- The patterns of constants fit their types. -/
def ConstsFit (f : Func) : Prop :=
  ∀ b ∈ f.layout, ∀ v ∈ (f.block b).values, ∀ lanes, (f.value v).constLanes = some lanes →
    ∀ w ∈ lanes, (f.value v).type.elemKind.cut w = w

/-- Vectors have the shapes that can be built. -/
def TypesValid (f : Func) : Prop :=
  ∀ b ∈ f.layout, ∀ v ∈ (f.block b).values, (f.value v).type.Valid

/-- Parameters take no operands. -/
def ParamsBare (f : Func) : Prop :=
  ∀ b ∈ f.layout, ∀ v ∈ (f.block b).values, (f.value v).op = .param → (f.value v).args = []

/-- No operand and no block's end mentions a store. -/
def StoresUnused (f : Func) : Prop :=
  ∀ b ∈ f.layout, (∀ v ∈ (f.block b).values, ∀ w, .value w ∈ (f.value v).args →
    (f.value w).op ≠ .store) ∧ ∀ w, (f.block b).control = .value w → (f.value w).op ≠ .store

/-- Only branches and returns read a value. -/
def EndsBare (f : Func) : Prop :=
  ∀ b ∈ f.layout, (f.block b).kind ≠ .branch → (f.block b).kind ≠ .ret →
    (f.block b).control = .missing

/-- What builders promise beyond what the verifier looks at; if `strict`, also of what nothing reads. -/
structure Tidy (f : Func) (strict : Prop) : Prop where
  consts : f.ConstsFit
  types : f.TypesValid
  stores : f.StoresUnused
  params : strict → f.ParamsBare
  ends : strict → f.EndsBare

/-! ## Types -/

/-- The type of an operand; void if it is no value of the function. -/
def operandType (f : Func) : Operand → Ty
  | .value v => (f.value v).type
  | _ => .void

def argTypes (f : Func) (v : Value) : List Ty := v.args.map f.operandType

/-- The operand is found and has the type. -/
def OfType (f : Func) (o : Operand) (t : Ty) : Prop := ∃ a, f.find o = .ok a ∧ a.type = t

theorem ofType_argTypes {y : Value} (hval : ∀ o ∈ y.args, ∃ v, o = .value v) :
    List.Forall₂ f.OfType y.args (f.argTypes y) := by
  rw [argTypes, List.forall₂_map_right_iff, List.forall₂_same]
  intro o ho
  obtain ⟨v, rfl⟩ := hval o ho
  exact ⟨f.value v, rfl, rfl⟩

/-- A lane number that a type has. -/
def LaneOf (v : Value) (t : Ty) : Prop := 0 ≤ v.aux.toInt ∧ v.aux.toInt < t.numLanes

/-- The type rules of a value with operands of types `ts`; `home` says that it stands in the entry. -/
def WellTyped (v : Value) (ts : List Ty) (home : Prop) : Prop :=
  if v.op.isBinary then
    ts = [v.type, v.type] ∧ if v.op.isFloatBinary then v.type.isFloat = true else v.type.isInt = true
  else if v.op.isCast then ∃ s, ts = [s] ∧ castRule? v.op s v.type = none
  else match v.op with
  | .fneg | .fsqrt => v.type.isFloat = true ∧ ts = [v.type]
  | .icmp | .fcmp => ∃ a, ts = [a, a] ∧ a.maskType = .ok v.type ∧
      v.predicate.isFloat = (v.op == .fcmp) ∧
      if v.op = .icmp then (a.isInt || a.isPtr) = true else a.isFloat = true
  | .alloca => home ∧ v.type = .ptr ∧ 0 < v.aux.toInt
  | .load => ts = [.ptr]
  | .store => v.type = .void ∧ ∃ t, ts = [t, .ptr]
  | .gep => v.type = .ptr ∧ ∃ t, ts = [.ptr, t] ∧ t.isInt = true ∧ t.isVector = false
  | .extract => ∃ a, ts = [a] ∧ a.isVector = true ∧ LaneOf v a ∧ v.type = a.elemType
  | .insert => ts = [v.type, v.type.elemType] ∧ v.type.isVector = true ∧ LaneOf v v.type
  | .shuffle => ∃ a, ts = [a, a] ∧ a.isVector = true ∧ v.type.isVector = true ∧
      v.type.elemKind = a.elemKind ∧ (v.mask.getD []).length = v.type.numLanes ∧
      ∀ m ∈ v.mask.getD [], m < 2 * (a.numLanes : Int)
  | .select => ∃ c, ts = [c, v.type, v.type] ∧ (c = .i1 ∨
      (c.isVector = true ∧ c.isInt = true ∧ c.numLanes = v.type.numLanes))
  | .call => ∃ rest, ts = .ptr :: rest
  | .copy => ts = [v.type]
  | .const => v.type.isVector = true → (v.lanes.getD []).length = v.type.numLanes
  | .globalAddr => v.global.isSome = true ∧ v.type = .ptr
  | _ => True

/-! ## Definitions before uses -/

/-- The operand can be read at the end of the block. -/
def AtEnd (f : Func) (o : Operand) (b : BlockId) : Prop :=
  ∃ v, o = .value v ∧ ((f.value v).op = .store ∨
    ∃ d, (f.value v).block = some d ∧ (f.Reached b → f.Dominates d b))

/-- In block `b`, `v` is defined before `u`: earlier in the list or in a block passed before. -/
def Earlier (f : Func) (v u : ValueId) (b : BlockId) : Prop :=
  ∃ d, (f.value v).block = some d ∧
    (d = b ∧ [v, u].Sublist (f.block b).values ∨ d ≠ b ∧ f.Dominates d b)

/-- The operand can be read where `u` stands in `b`. -/
def Before (f : Func) (o : Operand) (u : ValueId) (b : BlockId) : Prop :=
  ∃ v, o = .value v ∧ ((f.value v).op = .store ∨
    ((f.value v).block.isSome ∧ (f.Reached b → f.Earlier v u b)))

/-- The end of a block is in order. -/
def EndsWell (f : Func) (b : BlockId) : Prop :=
  match (f.block b).kind with
  | .pending => False
  | .jump => (f.block b).succs.length = 1
  | .branch => (f.block b).succs.length = 2 ∧ f.operandType (f.block b).control = .i1 ∧
      f.AtEnd (f.block b).control b
  | .ret => if (f.block b).control = .missing then f.ret.isVoid = true
      else f.ret.isVoid = false ∧ f.operandType (f.block b).control = f.ret ∧
        f.AtEnd (f.block b).control b
  | _ => True

/-- The control-flow graph is in order. -/
structure Flow (f : Func) : Prop where
  layout_ne : f.layout ≠ []
  layout_nodup : f.layout.Nodup
  lt : ∀ b ∈ f.layout, b < f.numBlocks
  own : ∀ b ∈ f.layout, (f.block b).isForeign = false
  succs_mem : ∀ b ∈ f.layout, ∀ s ∈ (f.block b).succs, s ∈ f.layout
  preds_mem : ∀ b ∈ f.layout, ∀ p ∈ (f.block b).preds, p ∈ f.layout
  edges : ∀ b ∈ f.layout, ∀ c ∈ f.layout, (f.block b).succs.count c = (f.block c).preds.count b
  entry_preds : (f.block f.start).preds = []

/-- Values are listed once, in the blocks that they name. -/
structure Listing (f : Func) : Prop where
  listed : ∀ v b, (f.value v).block = some b ↔ b ∈ f.layout ∧ v ∈ (f.block b).values
  nodup : ∀ b ∈ f.layout, (f.block b).values.Nodup

/-- A phi is in step with the predecessors, and each argument can be read where it comes from. -/
def PhiWell (f : Func) (b : BlockId) (v : ValueId) : Prop :=
  (f.value v).args.length = (f.block b).preds.length ∧
    ∀ x ∈ (f.value v).args.zip (f.block b).preds,
      f.operandType x.1 = (f.value v).type ∧ f.AtEnd x.1 x.2

/-- The operands of a value that is no phi can be read where it stands, and have the right types. -/
def ValueWell (f : Func) (b : BlockId) (v : ValueId) : Prop :=
  ((f.value v).op ≠ .param → ∀ o ∈ (f.value v).args, f.Before o v b) ∧
    WellTyped (f.value v) (f.argTypes (f.value v)) (b = f.start)

/-- What the optimisations rely on and keep. -/
structure Ssa (f : Func) : Prop where
  flow : f.Flow
  listing : f.Listing
  entry_phis : ∀ v ∈ (f.block f.start).values, (f.value v).op ≠ .phi
  ends : ∀ b ∈ f.layout, f.EndsWell b
  phisFirst : ∀ b ∈ f.layout, ∀ x p, [x, p].Sublist (f.block b).values →
    (f.value p).op = .phi → (f.value x).op = .phi ∨ (f.value x).op = .param
  phis : ∀ b ∈ f.layout, ∀ v ∈ (f.block b).values, (f.value v).op = .phi → f.PhiWell b v
  values : ∀ b ∈ f.layout, ∀ v ∈ (f.block b).values, (f.value v).op ≠ .phi → f.ValueWell b v

end Func
end SsaJit

/-! ## Deciding good form

Good form can be decided: every condition is about the blocks in the layout and the values in the
table. -/

namespace SsaJit.Func

variable {f : Func}

/-- The verifier finds nothing. -/
def isVerified (f : Func) : Bool :=
  match f.verify with
  | .ok [] => true
  | _ => false

theorem isVerified_iff : f.isVerified = true ↔ f.verify = .ok [] := by
  unfold isVerified
  cases f.verify with
  | error e => simp
  | ok l => cases l <;> simp

/-- Listed values name their block, and values that name a block are listed there. -/
def Listed (f : Func) : Prop :=
  (∀ b ∈ f.layout, ∀ v ∈ (f.block b).values, (f.value v).block = some b) ∧
    ∀ v < f.numValues, ∀ b ∈ (f.value v).block, b ∈ f.layout ∧ v ∈ (f.block b).values

theorem listed_iff : f.Listed ↔
    ∀ v b, (f.value v).block = some b ↔ b ∈ f.layout ∧ v ∈ (f.block b).values := by
  constructor
  · intro h v b
    refine ⟨fun hv => ?_, fun hv => h.1 b hv.1 v hv.2⟩
    rcases Nat.lt_or_ge v f.numValues with hlt | hge
    · exact h.2 v hlt b hv
    · rw [value_of_le hge] at hv
      cases hv
  · exact fun h => ⟨fun b hb v hv => (h v b).mpr ⟨hb, hv⟩, fun v _ b hv => (h v b).mp hv⟩

instance : Decidable f.Listed := inferInstanceAs (Decidable (_ ∧ _))

theorem consistent_iff : f.Consistent ↔ f.isVerified = true ∧ f.layout.Nodup ∧
    (∀ b ∈ f.layout, ∀ s ∈ (f.block b).succs, s ∈ f.layout) ∧
    (∀ b ∈ f.layout, ∀ p ∈ (f.block b).preds, p ∈ f.layout) ∧
    (∀ b ∈ f.layout, ∀ c ∈ f.layout, (f.block b).succs.count c = (f.block c).preds.count b) ∧
    f.Listed ∧ (∀ b ∈ f.layout, (f.block b).values.Nodup) ∧ (f.block f.start).preds = [] ∧
    ∀ v ∈ (f.block f.start).values, (f.value v).op ≠ .phi := by
  rw [isVerified_iff, listed_iff]
  constructor
  · intro h
    exact ⟨h.verified, h.layout_nodup, h.succs_mem, h.preds_mem, h.edges, h.listed, h.values_nodup,
      h.entry_preds, h.entry_phis⟩
  · rintro ⟨h₁, h₂, h₃, h₄, h₅, h₆, h₇, h₈, h₉⟩
    exact ⟨h₁, h₂, h₃, h₄, h₅, h₆, h₇, h₈, h₉⟩

instance : Decidable f.Consistent := decidable_of_iff' _ consistent_iff

instance : Decidable f.TypesValid := inferInstanceAs (Decidable (∀ b ∈ f.layout, _))

theorem constsFit_iff : f.ConstsFit ↔ ∀ b ∈ f.layout, ∀ v ∈ (f.block b).values,
    ((f.value v).constLanes.getD []).all (fun w => (f.value v).type.elemKind.cut w == w) = true := by
  refine forall₂_congr fun b _ => forall₂_congr fun v _ => ?_
  cases (f.value v).constLanes <;> simp

instance : Decidable f.ConstsFit := decidable_of_iff' _ constsFit_iff

/-- The operand is a value that is no store, or no value. -/
def isNoStore (f : Func) : Operand → Bool
  | .value v => (f.value v).op != .store
  | _ => true

theorem storesUnused_iff : f.StoresUnused ↔ ∀ b ∈ f.layout,
    (∀ v ∈ (f.block b).values, ∀ o ∈ (f.value v).args, f.isNoStore o = true) ∧
      f.isNoStore (f.block b).control = true := by
  have hone : ∀ o, f.isNoStore o = true ↔ ∀ w, o = .value w → (f.value w).op ≠ .store := by
    intro o
    cases o <;> simp [isNoStore]
  constructor
  · exact fun h b hb => ⟨fun v hv o ho => (hone o).mpr fun w hw => (h b hb).1 v hv w (hw ▸ ho),
      (hone _).mpr (h b hb).2⟩
  · exact fun h b hb => ⟨fun v hv w hw => (hone _).mp ((h b hb).1 v hv _ hw) w rfl,
      (hone _).mp (h b hb).2⟩

instance : Decidable f.StoresUnused := decidable_of_iff' _ storesUnused_iff

instance : Decidable f.ParamsBare := inferInstanceAs (Decidable (∀ b ∈ f.layout, _))

instance : Decidable f.EndsBare := inferInstanceAs (Decidable (∀ b ∈ f.layout, _))

end SsaJit.Func
