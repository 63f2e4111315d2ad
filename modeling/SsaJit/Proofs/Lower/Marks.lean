import SsaJit.Lower.Function
import SsaJit.Proofs.Outcome
import SsaJit.Proofs.X86.Run

/-! The labels that code binds. Blocks have their own numbers as labels, and whatever else binds one
takes it from the labels not given out yet, which begin past the blocks; so the label of a block leads
to that block's code. -/

namespace SsaJit.Lower

open X86

/-- The labels that code binds, in order. -/
def marks : Code → List Label
  | [] => []
  | .mark l :: rest => l :: marks rest
  | .instr _ :: rest => marks rest

@[simp] theorem marks_nil : marks [] = [] := rfl

@[simp] theorem marks_cons_mark (l : Label) (c : Code) : marks (.mark l :: c) = l :: marks c := rfl

@[simp] theorem marks_append (c c' : Code) : marks (c ++ c') = marks c ++ marks c' := by
  induction c with
  | nil => rfl
  | cons i c ih =>
    cases i with
    | instr i => exact ih
    | mark l => exact congrArg (l :: ·) ih

@[simp] theorem marks_straight (is : List (Instr Label)) : marks (straight is) = [] := by
  induction is with
  | nil => rfl
  | cons i is ih => exact ih

theorem mem_marks {l : Label} {c : Code} : l ∈ marks c ↔ .mark l ∈ c := by
  induction c with
  | nil => simp
  | cons item c ih =>
    cases item with
    | mark k => simp [ih]
    | instr i =>
      change l ∈ marks c ↔ _
      simp [ih]

/-- Behind a label is what follows the first place that binds it. -/
theorem behind_append {l : Label} {c : Code} (rest : Code) (h : l ∉ marks c) :
    behind l (c ++ .mark l :: rest) = some rest := by
  induction c with
  | nil => simp [behind]
  | cons i c ih =>
    cases i with
    | instr i => exact ih h
    | mark k =>
      rw [marks_cons_mark, List.mem_cons, not_or] at h
      rw [List.cons_append, behind, if_neg (Ne.symm h.1), ih h.2]

/-! ## Code without labels -/

/-- The code, if there is any, binds no labels. -/
def Unmarked (r : Outcome Code) : Prop := ∀ c, r = .ok c → marks c = []

theorem Unmarked.pure {c : Code} (h : marks c = []) : Unmarked (pure c) := by
  rintro _ ⟨⟩
  exact h

theorem Unmarked.error {e : Fault} : Unmarked (.error e) := fun _ h => by cases h

theorem Unmarked.bind {α : Type} {x : Outcome α} {g : α → Outcome Code}
    (h : ∀ a, x = .ok a → Unmarked (g a)) : Unmarked (x >>= g) := by
  intro c hc
  obtain ⟨a, ha, hg⟩ := Outcome.bind_eq_ok.mp hc
  exact h a ha c hg

theorem Unmarked.append {x y : Outcome Code} (hx : Unmarked x) (hy : Unmarked y) :
    Unmarked (do return (← x) ++ (← y)) :=
  .bind fun a ha => .bind fun b hb => .pure (by rw [marks_append, hx a ha, hy b hb]; rfl)

/-- The labels of parts that are put together. -/
theorem mem_marks_flatten {α : Type} {g : α → Outcome Code} {xs : List α} {cs : List Code}
    (h : List.Forall₂ (fun x c => g x = .ok c) xs cs) {l : Label} (hl : l ∈ marks cs.flatten) :
    ∃ x ∈ xs, ∃ c, g x = .ok c ∧ l ∈ marks c := by
  obtain ⟨c, hc, hmem⟩ := List.mem_flatten.mp (mem_marks.mp hl)
  obtain ⟨x, hx, hg⟩ := Outcome.exists_of_mem hc h
  exact ⟨x, hx, c, hg, mem_marks.mpr hmem⟩

theorem Unmarked.mapM {α : Type} {g : α → Outcome Code} {l : List α}
    (h : ∀ a ∈ l, Unmarked (g a)) : Unmarked (do return (← l.mapM g).flatten) := by
  refine .bind fun cs hcs => .pure (List.eq_nil_iff_forall_not_mem.mpr fun k hk => ?_)
  obtain ⟨a, ha, c, hc, hmem⟩ := mem_marks_flatten (Outcome.mapM_eq_ok.mp hcs) hk
  rw [h a ha c hc] at hmem
  cases hmem

theorem unmarked_loadInt (r : Reg) (p : Place) (k : Kind) (s : Bool) : Unmarked (loadInt r p k s) :=
  .bind fun _ _ => .pure (marks_straight _)

theorem unmarked_storeInt (p : Place) (r : Reg) (k : Kind) : Unmarked (storeInt p r k) :=
  .bind fun _ _ => .pure (marks_straight _)

theorem unmarked_loadX (x : XReg) (p : Place) (n : Nat) : Unmarked (loadX x p n) := by
  unfold loadX
  split
  · exact .pure (marks_straight _)
  · split
    · exact .pure (marks_straight _)
    · exact .bind fun _ _ => .pure (marks_straight _)

theorem unmarked_storeX (p : Place) (x : XReg) (n : Nat) : Unmarked (storeX p x n) := by
  unfold storeX
  split
  · exact .pure (marks_straight _)
  · split
    · exact .pure (marks_straight _)
    · exact .bind fun _ _ => .pure (marks_straight _)

@[simp] theorem marks_copy (dst src : Place) (n : Nat) : marks (copy dst src n) = [] :=
  marks_straight _

@[simp] theorem marks_storeBytes (dst : Place) (data : List UInt8) : marks (storeBytes dst data) = [] :=
  marks_straight _

@[simp] theorem marks_scalarUnary (op : Op) (dst x : Place) : marks (scalarUnary op dst x) = [] := by
  unfold scalarUnary
  split <;> exact marks_straight _

theorem unmarked_scalarBinary (op : Op) (k : Kind) (dst x y : Place) :
    Unmarked (scalarBinary op k dst x y) := by
  unfold scalarBinary
  split
  · exact .pure (marks_straight _)
  · refine .bind fun a ha => .bind fun b hb => .bind fun c hc => .pure ?_
    rw [marks_append, marks_append, marks_append, unmarked_loadInt _ _ _ _ a ha,
      unmarked_loadInt _ _ _ _ b hb, unmarked_storeInt _ _ _ c hc, marks_straight]
    rfl

theorem unmarked_compare (p : Predicate) (k : Kind) (x y : Place) : Unmarked (compare p k x y) := by
  unfold compare
  split
  · exact .pure (marks_straight _)
  · refine .bind fun a ha => .bind fun b hb => .pure ?_
    rw [marks_append, marks_append, unmarked_loadInt _ _ _ _ a ha, unmarked_loadInt _ _ _ _ b hb,
      marks_straight]
    rfl

theorem unmarked_eachLane {n : Nat} {lane : Nat → Outcome Code} (h : ∀ i, Unmarked (lane i)) :
    Unmarked (eachLane n lane) := .mapM fun i _ => h i

theorem marks_vectorBinary {cpu : Features} {op : Op} {t : Ty} {dst x y : Place} {code : Code}
    (h : vectorBinary cpu op t dst x y = some code) : marks code = [] := by
  unfold vectorBinary at h
  split at h
  · cases h
  · split at h
    · cases h
    · split at h
      · cases h
        exact marks_straight _
      · cases h

theorem marks_vectorCompare {op : Op} {p : Predicate} {t : Ty} {dst x y : Place} {code : Code}
    (h : vectorCompare op p t dst x y = some code) : marks code = [] := by
  unfold vectorCompare at h
  split at h
  · cases h
  · split at h
    · obtain ⟨sel, -, h⟩ := Option.bind_eq_some_iff.mp h
      cases h
      exact marks_straight _
    · obtain ⟨tests, -, h⟩ := Option.bind_eq_some_iff.mp h
      obtain ⟨test, -, h⟩ := Option.bind_eq_some_iff.mp h
      cases h
      exact marks_straight _

theorem unmarked_select (c : Context) (x : Value) (dst : Place) : Unmarked (c.select x dst) := by
  unfold Context.select
  refine .bind fun cond _ => .bind fun _ _ => .bind fun _ _ => .bind fun _ _ => ?_
  dsimp only
  split
  · refine .bind fun a ha => .pure ?_
    rw [marks_append, unmarked_loadInt _ _ _ _ a ha, marks_straight]
    rfl
  · split
    · exact .pure (marks_straight _)
    · exact unmarked_eachLane fun i => .bind fun _ _ => .bind fun _ _ => .pure (marks_straight _)

theorem unmarked_passArgs (c : Context) (args : List Operand) (ints : List Reg) (vecs : Nat) :
    Unmarked (c.passArgs args ints vecs) := by
  induction args generalizing ints vecs with
  | nil => exact .pure rfl
  | cons a args ih =>
    unfold Context.passArgs
    refine .bind fun t _ => ?_
    dsimp only
    split
    · exact .append (unmarked_loadX _ _ _) (ih _ _)
    · split
      · exact .append (unmarked_loadInt _ _ _ _) (ih _ _)
      · exact .error

theorem unmarked_call (c : Context) (x : Value) (dst : Place) : Unmarked (c.call x dst) := by
  unfold Context.call
  split
  · exact .error
  · refine .bind fun loaded hl => .bind fun target ht => ?_
    have hend : ∀ result : Code, marks result = [] →
        Unmarked (pure (loaded ++ target ++ straight [.call .r11] ++ result)) := fun result hr => by
      refine .pure ?_
      rw [marks_append, marks_append, marks_append, unmarked_passArgs _ _ _ _ loaded hl,
        unmarked_loadInt _ _ _ _ target ht, marks_straight, hr]
      rfl
    dsimp only
    split
    · exact hend [] rfl
    · split
      · exact .bind fun result hr => hend result (unmarked_storeX _ _ _ result hr)
      · exact .bind fun result hr => hend result (unmarked_storeInt _ _ _ result hr)

theorem unmarked_constant (x : Value) (dst : Place) : Unmarked (constant x dst) := by
  unfold constant
  split
  · exact .bind fun _ _ => .pure (marks_straight _)
  · exact .bind fun _ _ => .pure (marks_straight _)

theorem unmarked_shuffle (c : Context) (x : Value) (dst : Place) : Unmarked (c.shuffle x dst) := by
  unfold Context.shuffle
  refine .bind fun _ _ => .mapM fun a _ => ?_
  obtain ⟨m, i⟩ := a
  dsimp only
  split
  · exact .bind fun _ _ => .pure (marks_straight _)
  · split
    · exact .bind fun _ _ => .pure (marks_copy ..)
    · exact .bind fun _ _ => .pure (marks_copy ..)

theorem unmarked_intrinsicCode (c : Context) (x : Value) (dst : Place) :
    Unmarked (c.intrinsicCode x dst) := by
  unfold Context.intrinsicCode
  refine .bind fun op _ => .bind fun _ _ => .bind fun _ _ => .bind fun first hfirst => ?_
  split
  · refine .bind fun a ha => .bind fun b hb => .pure ?_
    rw [marks_append, marks_append, marks_append, unmarked_loadX _ _ _ first hfirst,
      unmarked_loadX _ _ _ a ha, marks_straight, unmarked_storeX _ _ _ b hb]
    rfl
  · refine .bind fun b hb => .pure ?_
    rw [marks_append, marks_append, unmarked_loadX _ _ _ first hfirst, marks_straight,
      unmarked_storeX _ _ _ b hb]
    rfl

/-! ## The kinds of values -/

namespace Context

variable (c : Context) (x : Value) (dst : Place)

/-- Where an operand of a value is kept. -/
def arg (i : Nat) : Outcome Place := do return c.slot (← .at? x.args i)

/-- The type of an operand of a value. -/
def typeOf (i : Nat) : Outcome Ty := do return (← c.func.argument x i).type

/-- An operation on two operands, by one instruction if the processor has it. -/
def binaryCode : Outcome Code := do
  let size := x.type.elemKind.size
  if x.type.numLanes = 0 then return []
  let a ← c.arg x 0
  let b ← c.arg x 1
  match if x.type.isVector then vectorBinary c.cpu x.op x.type dst a b else none with
  | some code => return code
  | none => eachLane x.type.numLanes fun i =>
      scalarBinary x.op x.type.elemKind (shift dst (i * size)) (shift a (i * size)) (shift b (i * size))

/-- A negation or square root of floats. -/
def unaryCode : Outcome Code := do
  if x.op = .fsqrt ∧ x.type.size = 16 then
    return straight [.movdquLoad 0 (← c.arg x 0), vector .sqrtps 0 0, .movdquStore dst 0]
  else eachLane x.type.numLanes fun i => do
    return scalarUnary x.op (shift dst (i * 4)) (shift (← c.arg x 0) (i * 4))

/-- A comparison, which gives a bit or lanes of ones and zeros. -/
def compareCode : Outcome Code := do
  let source ← c.typeOf x 0
  if source.numLanes = 0 then return []
  let a ← c.arg x 0
  let b ← c.arg x 1
  if !source.isVector then
    return (← compare x.predicate source.kind a b) ++ (← storeInt dst .rax .i1)
  else match vectorCompare x.op x.predicate source dst a b with
    | some code => return code
    | none =>
      let size := source.elemKind.size
      eachLane source.numLanes fun i => do
        return (← compare x.predicate source.elemKind (shift a (i * size)) (shift b (i * size))) ++
          straight [.unary .neg .rax, .store (shift dst (i * size)) .rax (← Width.ofSize size)]

/-- A read from memory; a bit is cut to one. -/
def loadCode : Outcome Code := do
  let address ← loadInt .rax (← c.arg x 0) .ptr false
  if x.type.kind = .i1 then
    return address ++ straight [.load .rcx (.based .rax 0) .u8] ++ (← storeInt dst .rcx .i1)
  else return address ++ copy dst (.based .rax 0) x.type.size

/-- A write to memory. -/
def storeCode : Outcome Code := do
  return (← loadInt .rax (← c.arg x 1) .ptr false) ++
    copy (.based .rax 0) (← c.arg x 0) (← c.typeOf x 0).size

/-- The index times the size of an element. -/
def scaled : List (Instr Label) := if x.aux = 1 then [] else [.imulImm .rcx .rcx x.aux.toInt32]

/-- The address of an element. -/
def gepCode : Outcome Code := do
  let base ← loadInt .rax (← c.arg x 0) .ptr false
  let index ← loadInt .rcx (← c.arg x 1) (← c.typeOf x 1).kind true
  return base ++ index ++ straight (scaled x ++ [.alu .add .rax .rcx, .store dst .rax .b8])

/-- A vector with one lane written anew. -/
def insertCode : Outcome Code := do
  let size := x.type.elemKind.size
  return copy dst (← c.arg x 0) x.type.size ++
    copy (dst.offset (x.aux * Int64.ofNat size)) (← c.arg x 1) size

/-- The code of a value is that of its kind, left in its own slot. -/
theorem plain_eq (v : ValueId) : c.plain v x =
    if x.op.isBinary then c.binaryCode x (c.home v) else match x.op with
    | .const => constant x (c.home v)
    | .alloca =>
      .ok (straight [.lea .rax (inFrame (c.frame.regions.getD v 0)), .store (c.home v) .rax .b8])
    | .fneg | .fsqrt => c.unaryCode x (c.home v)
    | .icmp | .fcmp => c.compareCode x (c.home v)
    | .bitcast | .copy => do return copy (c.home v) (← c.arg x 0) x.type.size
    | .load => c.loadCode x (c.home v)
    | .store => c.storeCode x
    | .gep => c.gepCode x (c.home v)
    | .extract => do
      return copy (c.home v) ((← c.arg x 0).offset (x.aux * Int64.ofNat x.type.size)) x.type.size
    | .insert => c.insertCode x (c.home v)
    | .shuffle => c.shuffle x (c.home v)
    | .select => c.select x (c.home v)
    | .call => c.call x (c.home v)
    | .intrinsic => c.intrinsicCode x (c.home v)
    | op => .fail (.unsupported (.op op)) := by
  cases hbin : x.op.isBinary with
  | true =>
    unfold plain binaryCode
    simp only [hbin, true_and, if_true]
    rfl
  | false =>
    unfold plain
    simp only [hbin, Bool.false_eq_true, false_and, if_false]
    cases hop : x.op
    case fneg | fsqrt =>
      unfold unaryCode
      rw [hop]
      rfl
    case icmp | fcmp =>
      unfold compareCode
      rw [hop]
      rfl
    all_goals rfl

end Context

/-! ## The labels of values without labels -/

section kinds

variable (c : Context) (x : Value) (dst : Place)

theorem unmarked_binaryCode : Unmarked (c.binaryCode x dst) := by
  unfold Context.binaryCode
  dsimp only
  split
  · exact .pure rfl
  refine .bind fun a _ => .bind fun b _ => ?_
  split
  · next code hcode =>
    refine .pure ?_
    split at hcode
    · exact marks_vectorBinary hcode
    · cases hcode
  · exact unmarked_eachLane fun i => unmarked_scalarBinary _ _ _ _ _

theorem unmarked_unaryCode : Unmarked (c.unaryCode x dst) := by
  unfold Context.unaryCode
  split
  · exact .bind fun _ _ => .pure (marks_straight _)
  · exact unmarked_eachLane fun i => .bind fun _ _ => .pure (marks_scalarUnary _ _ _)

theorem unmarked_compareCode : Unmarked (c.compareCode x dst) := by
  unfold Context.compareCode
  refine .bind fun source _ => ?_
  split
  · exact .pure rfl
  refine .bind fun a _ => .bind fun b _ => ?_
  split
  · exact .append (unmarked_compare _ _ _ _) (unmarked_storeInt _ _ _)
  · split
    · next code hcode => exact .pure (marks_vectorCompare hcode)
    · refine unmarked_eachLane fun i => .bind fun c hc => .bind fun _ _ => .pure ?_
      rw [marks_append, unmarked_compare _ _ _ _ c hc, marks_straight]
      rfl

theorem unmarked_loadCode : Unmarked (c.loadCode x dst) := by
  unfold Context.loadCode
  refine .bind fun _ _ => .bind fun address ha => ?_
  split
  · refine .bind fun r hr => .pure ?_
    rw [marks_append, marks_append, unmarked_loadInt _ _ _ _ address ha, marks_straight,
      unmarked_storeInt _ _ _ r hr]
    rfl
  · refine .pure ?_
    rw [marks_append, unmarked_loadInt _ _ _ _ address ha, marks_copy]
    rfl

theorem unmarked_storeCode : Unmarked (c.storeCode x) := by
  refine .bind fun _ _ => .bind fun address ha => .bind fun _ _ => .bind fun _ _ => .pure ?_
  rw [marks_append, unmarked_loadInt _ _ _ _ address ha, marks_copy]
  rfl

theorem unmarked_gepCode : Unmarked (c.gepCode x dst) := by
  refine .bind fun _ _ => .bind fun base hb => .bind fun _ _ => .bind fun _ _ =>
    .bind fun index hi => .pure ?_
  rw [marks_append, marks_append, unmarked_loadInt _ _ _ _ base hb,
    unmarked_loadInt _ _ _ _ index hi, marks_straight]
  rfl

theorem unmarked_insertCode : Unmarked (c.insertCode x dst) := by
  refine .bind fun _ _ => .bind fun _ _ => .pure ?_
  rw [marks_append, marks_copy, marks_copy]
  rfl

end kinds

theorem unmarked_plain (c : Context) (v : ValueId) (x : Value) : Unmarked (c.plain v x) := by
  rw [Context.plain_eq]
  split
  · exact unmarked_binaryCode _ _ _
  split
  case h_1 => exact unmarked_constant _ _
  case h_2 => exact .pure (marks_straight _)
  case h_3 | h_4 => exact unmarked_unaryCode _ _ _
  case h_5 | h_6 => exact unmarked_compareCode _ _ _
  case h_7 | h_8 => exact .bind fun _ _ => .pure (marks_copy _ _ _)
  case h_9 => exact unmarked_loadCode _ _ _
  case h_10 => exact unmarked_storeCode _ _
  case h_11 => exact unmarked_gepCode _ _ _
  case h_12 => exact .bind fun _ _ => .pure (marks_copy _ _ _)
  case h_13 => exact unmarked_insertCode _ _ _
  case h_14 => exact unmarked_shuffle _ _ _
  case h_15 => exact unmarked_select _ _ _
  case h_16 => exact unmarked_call _ _ _
  case h_17 => exact unmarked_intrinsicCode _ _ _
  case h_18 => exact .error

/-! ## Labels of values and blocks -/

/-- Only the conversion of unsigned numbers binds labels. -/
theorem unmarked_cast {op : Op} {s t : Kind} {dst x : Place} {big done : Label} (hop : op ≠ .uitofp) :
    Unmarked (cast op s t dst x big done) := by
  cases op with
  | uitofp => exact absurd rfl hop
  | trunc | zext | ptrtoint | inttoptr | sext =>
    exact .append (unmarked_loadInt _ _ _ _) (unmarked_storeInt _ _ _)
  | fptosi | fptoui =>
    refine .bind fun a ha => .pure ?_
    rw [marks_append, marks_straight, unmarked_storeInt _ _ _ a ha]
    rfl
  | sitofp =>
    refine .bind fun a ha => .pure ?_
    rw [marks_append, marks_straight, unmarked_loadInt _ _ _ _ a ha]
    rfl
  | _ => exact .pure rfl

theorem marks_cast_eq {op : Op} {s t : Kind} {dst x : Place} {big done : Label} {code : Code}
    (h : cast op s t dst x big done = .ok code) : marks code = [] ∨ marks code = [big, done] := by
  by_cases hop : op = .uitofp
  · subst hop
    obtain ⟨loaded, hloaded, h⟩ := Outcome.bind_eq_ok.mp h
    cases h
    rw [marks_append, marks_append, unmarked_loadInt _ _ _ _ loaded hloaded, marks_straight]
    split
    · exact .inr rfl
    · exact .inl rfl
  · exact .inl (unmarked_cast hop code h)

theorem marks_cast {op : Op} {s t : Kind} {dst x : Place} {big done : Label} {code : Code}
    (h : cast op s t dst x big done = .ok code) : ∀ l ∈ marks code, l = big ∨ l = done := by
  intro l hl
  rcases marks_cast_eq h with heq | heq
  · rw [heq] at hl
    cases hl
  · simpa [heq] using hl

/-- Code that binds only labels not given out before, and says which are given out after. -/
def Fresh (n : Label) (r : Outcome (Code × Labels)) : Prop :=
  ∀ code ls, r = .ok (code, ls) → n ≤ ls.next ∧ ∀ l ∈ marks code, n ≤ l

theorem Fresh.bind {α : Type} {n : Label} {x : Outcome α} {g : α → Outcome (Code × Labels)}
    (h : ∀ a, x = .ok a → Fresh n (g a)) : Fresh n (x >>= g) := by
  intro code ls hc
  obtain ⟨a, ha, hg⟩ := Outcome.bind_eq_ok.mp hc
  exact h a ha code ls hg

theorem Fresh.pure {n : Label} {code : Code} {ls : Labels} (hn : n ≤ ls.next)
    (h : ∀ l ∈ marks code, n ≤ l) : Fresh n (pure (code, ls)) := by
  rintro _ _ ⟨⟩
  exact ⟨hn, h⟩

theorem double_nonneg (n : Nat) : 0 ≤ 2 * (n : Label) :=
  Int.mul_nonneg (by decide) (Int.natCast_nonneg n)

theorem marks_vectorCast {op : Op} {source target : Ty} {dst x : Place} {code : Code}
    (h : vectorCast op source target dst x = some code) : marks code = [] := by
  unfold vectorCast at h
  dsimp only at h
  split at h
  · cases h
    exact marks_straight _
  · split at h
    · cases h
      exact marks_straight _
    · cases h

theorem fresh_conversion (c : Context) (v : ValueId) (x : Value) (ls : Labels) :
    Fresh ls.next (c.conversion v x ls) := by
  unfold Context.conversion
  refine .bind fun source _ => .bind fun o _ => ?_
  dsimp only
  split
  · next code hcode =>
    refine .pure (Int.le_refl _) fun l hl => ?_
    rw [marks_vectorCast hcode] at hl
    cases hl
  · refine .bind fun code hcode => .pure (Int.le_add_of_nonneg_right (double_nonneg _)) fun l hl => ?_
    obtain ⟨parts, hparts, hflat⟩ := Outcome.bind_eq_ok.mp hcode
    cases hflat
    obtain ⟨i, -, lane, hlane, hl⟩ := mem_marks_flatten (Outcome.mapM_eq_ok.mp hparts) hl
    rcases marks_cast hlane l hl with rfl | rfl
    · exact Int.le_add_of_nonneg_right (double_nonneg i)
    · exact Int.le_trans (Int.le_add_of_nonneg_right (double_nonneg _))
        (Int.le_add_of_nonneg_right (by decide))

theorem fresh_value (c : Context) (v : ValueId) (x : Value) (ls : Labels) :
    Fresh ls.next (c.value v x ls) := by
  unfold Context.value
  split
  · refine .pure ?_ fun l hl => by rw [marks_straight] at hl; cases hl
    split
    · exact Int.le_refl _
    · exact Int.le_add_of_nonneg_right (by decide)
  · split
    · exact fresh_conversion c v x ls
    · refine .bind fun code hcode => .pure (Int.le_refl _) fun l hl => ?_
      rw [unmarked_plain c v x code hcode] at hl
      cases hl

/-- Code in which nothing failed is that of the value. -/
theorem value_of_located {c : Context} {v : ValueId} {r : Outcome (Code × Labels)} {y : Code × Labels}
    (h : c.located v r = .ok y) : r = .ok y := by
  unfold Context.located at h
  split at h
  · obtain ⟨_, _, h⟩ := Outcome.bind_eq_ok.mp h
    cases h
  · exact h

theorem fresh_values (c : Context) (xs : List (ValueId × Value)) (ls : Labels) :
    Fresh ls.next (c.values xs ls) := by
  induction xs generalizing ls with
  | nil => exact .pure (Int.le_refl _) fun l hl => by cases hl
  | cons x xs ih =>
    obtain ⟨v, x⟩ := x
    unfold Context.values
    split
    · exact ih ls
    · refine .bind fun first hfirst => .bind fun more hmore => ?_
      obtain ⟨code, ls₁⟩ := first
      obtain ⟨rest, ls₂⟩ := more
      obtain ⟨hle₁, hmarks₁⟩ := fresh_value c v x ls code ls₁ (value_of_located hfirst)
      obtain ⟨hle₂, hmarks₂⟩ := ih ls₁ rest ls₂ hmore
      refine .pure (Int.le_trans hle₁ hle₂) fun l hl => ?_
      rw [marks_append] at hl
      rcases List.mem_append.mp hl with hl | hl
      · exact hmarks₁ l hl
      · exact Int.le_trans hle₁ (hmarks₂ l hl)

theorem unmarked_phiMoves (c : Context) (b s : BlockId) : Unmarked (c.phiMoves b s) := by
  unfold Context.phiMoves
  split
  · exact .pure rfl
  · exact .mapM fun x _ => .bind fun _ _ => .pure (marks_copy _ _ _)

theorem unmarked_terminator (c : Context) (b : BlockId) (next : Option BlockId) :
    Unmarked (c.terminator b next) := by
  unfold Context.terminator
  dsimp only
  split
  · refine .bind fun s _ => .bind fun moves hmoves => .pure ?_
    rw [marks_append, unmarked_phiMoves _ _ _ moves hmoves, marks_straight]
    rfl
  · refine .bind fun yes _ => .bind fun no _ => .bind fun moves hmoves => ?_
    have hend : ∀ (more : Code) (is : List (Instr Label)), marks more = [] →
        Unmarked (do return moves ++ more ++
          (← loadInt .rax (c.slot (c.func.block b).control) .i1 false) ++ straight is) :=
      fun more is hmore => .bind fun loaded hl => .pure (by
        rw [marks_append, marks_append, marks_append, unmarked_phiMoves _ _ _ moves hmoves, hmore,
          unmarked_loadInt _ _ _ _ loaded hl, marks_straight]
        rfl)
    split
    · exact hend [] _ rfl
    · exact .bind fun more hmore => hend more _ (unmarked_phiMoves _ _ _ more hmore)
  · have hend : ∀ result : Code, marks result = [] →
        Unmarked (pure (result ++ straight [.leave, .ret])) := fun result hr => .pure (by
      rw [marks_append, hr, marks_straight]
      rfl)
    split
    · exact hend [] rfl
    · refine .bind fun t _ => ?_
      split
      · exact .bind fun r hr => hend r (unmarked_loadX _ _ _ r hr)
      · exact .bind fun r hr => hend r (unmarked_loadInt _ _ _ _ r hr)
  · exact .pure (marks_straight _)
  · exact .error

theorem unmarked_storeParams (c : Context) (ps : List (Ty × ValueId)) (ints : List Reg) (vecs : Nat) :
    Unmarked (c.storeParams ps ints vecs) := by
  induction ps generalizing ints vecs with
  | nil => exact .pure rfl
  | cons p ps ih =>
    obtain ⟨t, v⟩ := p
    unfold Context.storeParams
    split
    · exact .append (unmarked_storeX _ _ _) (ih _ _)
    · split
      · exact .append (unmarked_storeInt _ _ _) (ih _ _)
      · exact .error

theorem unmarked_prologue (c : Context) : Unmarked c.prologue := by
  unfold Context.prologue
  refine .bind fun params hparams => .pure ?_
  rw [marks_append, marks_straight, unmarked_storeParams _ _ _ _ params hparams]
  rfl

end SsaJit.Lower
