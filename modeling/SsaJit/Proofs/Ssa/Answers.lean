import SsaJit.Proofs.Ssa.Verify

/-! When the verifier comes to an answer. It finds that an operand is missing, but the type rules of the
same value then ask for the operand's type, and an instruction is written out with the name of its
global whether there is one or not. So the verifier answers just for the functions in which nothing is
missing that it looks at; and if it answers, a missing operand has been reported. -/

namespace SsaJit

namespace Outcome

variable {α β : Type}

/-- A computation comes to an answer: it neither crashes nor fails. -/
def Answers (x : Outcome α) : Prop := ∃ r, x = .ok r

@[simp] theorem answers_ok (r : α) : Answers (.ok r) := ⟨r, rfl⟩

@[simp] theorem not_answers_error (e : Fault) : ¬ Answers (.error e : Outcome α) := nofun

@[simp] theorem answers_ite {p : Prop} [Decidable p] {x y : Outcome α} :
    (if p then x else y).Answers ↔ (p → x.Answers) ∧ (¬ p → y.Answers) := by
  by_cases hp : p <;> simp [hp]

/-- If what follows always comes to an answer, the first part decides. -/
theorem answers_bind {x : Outcome α} {k : α → Outcome β} (hk : ∀ a, x = .ok a → (k a).Answers) :
    (x >>= k).Answers ↔ x.Answers := by
  cases x with
  | error e => simp
  | ok a => simpa using hk a rfl

theorem answers_bind_pure {x : Outcome α} {g : α → β} :
    (x >>= fun a => pure (g a)).Answers ↔ x.Answers := answers_bind fun _ _ => answers_ok _

theorem answers_mapM {g : α → Outcome β} {l : List α} :
    (l.mapM g).Answers ↔ ∀ a ∈ l, (g a).Answers := by
  induction l with
  | nil => exact iff_of_true ⟨[], rfl⟩ (by simp)
  | cons a l ih =>
    rw [List.forall_mem_cons, ← ih, List.mapM_cons]
    cases g a with
    | error e => simp
    | ok y => simpa using answers_bind_pure

/-- A run over a list whose steps come to an answer or not whatever was found before. -/
theorem answers_foldlM {g : β → α → Outcome β} {P : α → Prop} {l : List α} {s : β}
    (hg : ∀ s, ∀ a ∈ l, (g s a).Answers ↔ P a) : (l.foldlM g s).Answers ↔ ∀ a ∈ l, P a := by
  induction l generalizing s with
  | nil => exact iff_of_true (answers_ok _) (by simp)
  | cons a l ih =>
    rw [List.foldlM_cons, List.forall_mem_cons, ← hg s a List.mem_cons_self]
    cases g s a with
    | error e => simp
    | ok s' => simpa using ih fun s b hb => hg s b (List.mem_cons_of_mem _ hb)

end Outcome

namespace Func

/-- The places of the operands whose types the type rules of a value ask for. Operands in a wrong number
are not looked at, and some rules look at a later operand only if an earlier one is in order. -/
def typeReads (f : Func) (x : Value) : List Nat :=
  let ty (i : Nat) := f.operandType (x.args.getD i .missing)
  let counted (n : Nat) (reads : List Nat) := if x.args.length = n then reads else []
  let andThen (holds : Bool) (reads : List Nat) := if holds then reads else []
  if x.op.isBinary then counted 2 (0 :: andThen (ty 0 == x.type) [1])
  else if x.op.isCast then counted 1 [0]
  else match x.op with
  | .fneg | .fsqrt => counted 1 (andThen x.type.isFloat [0])
  | .icmp | .fcmp => counted 2 [0, 1]
  | .load | .extract | .copy => counted 1 [0]
  | .store => counted 2 [1]
  | .gep => counted 2 (0 :: andThen (ty 0 == .ptr) [1])
  | .insert => counted 2 (0 :: andThen ((ty 0).isVector && x.type == ty 0) [1])
  | .shuffle => counted 2 (0 :: andThen (ty 0).isVector [1])
  | .select => counted 3 (0 :: 1 :: andThen (ty 1 == x.type) [2])
  | .call => andThen (1 ≤ x.args.length) [0]
  | _ => []

/-- The verifier misses nothing when it looks at a value of the block. -/
def Legible (f : Func) (b : BlockId) (v : ValueId) : Prop :=
  if (f.value v).op = .phi then
    (f.value v).args.length = (f.block b).preds.length → .missing ∉ (f.value v).args
  else (∀ i ∈ f.typeReads (f.value v), (f.value v).args[i]? ≠ some .missing) ∧
    ((f.value v).op = .globalAddr → (f.value v).global.isSome = true)

/-- Operands are missing or values of the function, and of valid types. -/
def OwnOperands (f : Func) : Prop :=
  ∀ b ∈ f.layout, ∀ v ∈ (f.block b).values, ∀ o ∈ (f.value v).args,
    o = .missing ∨ ∃ w, o = .value w ∧ (f.value w).type.Valid

variable {f : Func} {c : Checker} {b : BlockId} {v : ValueId} {id : ValueId} {x : Value} {o : Operand}
  {pos : Nat} {late : Bool}

/-! ## Answers of the parts -/

theorem instrText_answers :
    (f.instrText id x).Answers ↔ (x.op = .globalAddr → x.global.isSome = true) := by
  have haux : (auxText x).Answers ↔ (x.op = .globalAddr → x.global.isSome = true) := by
    unfold auxText
    cases hop : x.op <;> cases x.global <;> simp [Outcome.need, Outcome.crash]
  rw [← haux, instrText]
  exact Outcome.answers_bind_pure

theorem find_answers : (f.find o).Answers ↔ o ≠ .missing := by
  cases o <;> simp [find, Outcome.crash]

/-- Whether a definition comes before a use can always be told. -/
theorem use_answers (c : Checker) (b : BlockId) (pos : Nat) (o : Operand) :
    (c.use b pos o).Answers := by
  cases o with
  | missing => simp [Checker.use]
  | foreign k => simp [Checker.use, number]
  | value w => cases hd : (c.func.value w).block <;> simp [Checker.use, number, hd]

theorem terminator_answers : (c.terminator b).Answers := by
  obtain ⟨r, hr⟩ := use_answers c b (c.func.block b).values.length (c.func.block b).control
  unfold Checker.terminator
  by_cases hm : (c.func.block b).control = .missing
  · cases hk : (c.func.block b).kind <;> simp [hk, hm]
  · obtain ⟨y, hy⟩ := (find_answers (f := c.func)).mpr hm
    cases hk : (c.func.block b).kind <;> simp [hk, hm, hy, hr]

theorem maskType_answers {t : Ty} (h : t.Valid) : t.maskType.Answers := by
  cases t with
  | scalar k => exact Outcome.answers_ok _
  | vec e n =>
    obtain ⟨-, htwo, hbytes⟩ := h
    by_cases he : e = .f32
    · subst he
      have hwide : ¬ ((n.toNat : Int) < 2 ∨
          (Ty.maxVectorBytes : Int) < (n.toNat : Int) * (Kind.i32.size : Int)) := by
        simp only [Ty.maxVectorBytes, Kind.size] at hbytes ⊢
        omega
      exact ⟨_, by simp only [Ty.maskType, Ty.vector?, Ty.laneKind, if_neg hwide]; rfl⟩
    · refine ⟨.vec e n, ?_⟩
      unfold Ty.maskType
      split <;> simp_all

section rules

variable {s : String} {n i : Nat} {r : TypeRule}

/-- A rule that can be written out is looked at without fail. -/
theorem require_eq (hs : c.func.instrText id x = .ok s) (ok : Bool) (r : TypeRule) :
    c.require id x ok r = .ok (orReport ok (.type s r)) := by
  cases ok <;> simp [Checker.require, orReport, hs]

theorem counted_answers {k : Findings} {reads : List Nat} (hs : c.func.instrText id x = .ok s)
    (h : x.args.length = n → (k.Answers ↔ ∀ i ∈ reads, x.args[i]? ≠ some .missing)) :
    (c.counted id x n k).Answers ↔
      ∀ i ∈ if x.args.length = n then reads else [], x.args[i]? ≠ some .missing := by
  by_cases hn : x.args.length = n
  · simpa [Checker.counted, hn] using h hn
  · simp [Checker.counted, hn, hs]

/-- An operand that is there has a type to ask for, one that is missing stops the rule that asks. -/
theorem argType_cases
    (hown : ∀ o ∈ x.args, o = .missing ∨ ∃ w, o = .value w ∧ (c.func.value w).type.Valid)
    (hi : i < x.args.length) :
    c.argType x i = .error (.crash .absent) ∧ x.args[i]? = some .missing ∨
      ∃ t, c.argType x i = .ok t ∧ c.func.operandType (x.args[i]?.getD .missing) = t ∧ t.Valid ∧
        x.args[i]? ≠ some .missing := by
  have hi' := List.getElem?_eq_getElem hi
  rcases hown _ (List.getElem_mem hi) with hm | ⟨w, hw, hvalid⟩
  · rw [hm] at hi'
    exact .inl ⟨by simp [Checker.argType, argument, Outcome.at?, hi', find, Outcome.crash], hi'⟩
  · rw [hw] at hi'
    refine .inr ⟨(c.func.value w).type, ?_, ?_, hvalid, by simp [hi']⟩
    · simp [Checker.argType, argument, Outcome.at?, hi', find]
    · simp [hi', operandType]

variable (hs : c.func.instrText id x = .ok s)
  (hown : ∀ o ∈ x.args, o = .missing ∨ ∃ w, o = .value w ∧ (c.func.value w).type.Valid)

include hs hown

/-- Rules that ask for the type of one operand, whatever they then require. -/
theorem single_answers {j : Nat} {g : Ty → Bool} (hj : j < n) :
    (c.counted id x n (c.argType x j >>= fun t => c.require id x (g t) r)).Answers ↔
      ∀ i ∈ if x.args.length = n then [j] else [], x.args[i]? ≠ some .missing := by
  refine counted_answers hs fun hn => ?_
  rcases argType_cases hown (i := j) (by omega) with ⟨h, m⟩ | ⟨t, h, -, -, m⟩ <;>
    simp [h, m, require_eq hs]

theorem binaryRule_answers (hop : x.op.isBinary = true) : (c.binaryRule id x).Answers ↔
    ∀ i ∈ c.func.typeReads x, x.args[i]? ≠ some .missing := by
  unfold typeReads
  rw [if_pos hop]
  refine counted_answers hs fun hn => ?_
  rcases argType_cases hown (i := 0) (by omega) with ⟨h₀, m₀⟩ | ⟨t, h₀, e₀, -, m₀⟩
  · simp [h₀, m₀, both]
  · rcases argType_cases hown (i := 1) (by omega) with ⟨h₁, m₁⟩ | ⟨u, h₁, -, -, m₁⟩ <;>
      by_cases ht : t = x.type <;> cases x.op.isFloatBinary <;>
        simp [h₀, m₀, h₁, m₁, e₀, require_eq hs, both, ht]

theorem conversionRule_answers (hbin : ¬ x.op.isBinary = true) (hop : x.op.isCast = true) :
    (c.conversionRule id x).Answers ↔ ∀ i ∈ c.func.typeReads x, x.args[i]? ≠ some .missing := by
  unfold typeReads
  rw [if_neg hbin, if_pos hop]
  refine counted_answers hs fun hn => ?_
  rcases argType_cases hown (i := 0) (by omega) with ⟨h₀, m₀⟩ | ⟨t, h₀, -, -, m₀⟩
  · simp [h₀, m₀]
  · cases hr : castRule? x.op t x.type <;> simp [h₀, m₀, hr, hs]

theorem unaryRule_answers : (c.unaryRule id x).Answers ↔
    ∀ i ∈ if x.args.length = 1 then (if x.type.isFloat then [0] else []) else [],
      x.args[i]? ≠ some .missing := by
  refine counted_answers hs fun hn => ?_
  rcases argType_cases hown (i := 0) (by omega) with ⟨h₀, m₀⟩ | ⟨t, h₀, -, -, m₀⟩ <;>
    cases x.type.isFloat <;> simp [h₀, m₀, require_eq hs, both]

theorem compareRule_answers : (c.compareRule id x).Answers ↔
    ∀ i ∈ if x.args.length = 2 then [0, 1] else [], x.args[i]? ≠ some .missing := by
  refine counted_answers hs fun hn => ?_
  rcases argType_cases hown (i := 0) (by omega) with ⟨h₀, m₀⟩ | ⟨t, h₀, -, hvalid, m₀⟩
  · simp [h₀, m₀]
  · obtain ⟨m, hm⟩ := maskType_answers hvalid
    rcases argType_cases hown (i := 1) (by omega) with ⟨h₁, m₁⟩ | ⟨u, h₁, -, -, m₁⟩ <;>
      by_cases hop : x.op = .icmp <;> simp [h₀, m₀, h₁, m₁, hm, require_eq hs, hop]

theorem gepRule_answers (hop : x.op = .gep) : (c.gepRule id x).Answers ↔
    ∀ i ∈ c.func.typeReads x, x.args[i]? ≠ some .missing := by
  unfold typeReads
  rw [hop]
  refine counted_answers hs fun hn => ?_
  rcases argType_cases hown (i := 0) (by omega) with ⟨h₀, m₀⟩ | ⟨t, h₀, e₀, -, m₀⟩
  · simp [h₀, m₀, both]
  · rcases argType_cases hown (i := 1) (by omega) with ⟨h₁, m₁⟩ | ⟨u, h₁, -, -, m₁⟩ <;>
      by_cases ht : t = .ptr <;> simp [h₀, m₀, h₁, m₁, e₀, both, require_eq hs, ht]

theorem insertRule_answers (hop : x.op = .insert) : (c.insertRule id x).Answers ↔
    ∀ i ∈ c.func.typeReads x, x.args[i]? ≠ some .missing := by
  unfold typeReads
  rw [hop]
  refine counted_answers hs fun hn => ?_
  rcases argType_cases hown (i := 0) (by omega) with ⟨h₀, m₀⟩ | ⟨t, h₀, e₀, -, m₀⟩
  · simp [h₀, m₀]
  · rcases argType_cases hown (i := 1) (by omega) with ⟨h₁, m₁⟩ | ⟨u, h₁, -, -, m₁⟩ <;>
      by_cases ht : t.isVector = true ∧ x.type = t <;>
        simp [h₀, m₀, h₁, m₁, e₀, both, require_eq hs, ht]

theorem shuffleRule_answers (hop : x.op = .shuffle) : (c.shuffleRule id x).Answers ↔
    ∀ i ∈ c.func.typeReads x, x.args[i]? ≠ some .missing := by
  unfold typeReads
  rw [hop]
  refine counted_answers hs fun hn => ?_
  rcases argType_cases hown (i := 0) (by omega) with ⟨h₀, m₀⟩ | ⟨t, h₀, e₀, -, m₀⟩
  · simp [h₀, m₀]
  · have hmask : ((x.mask.getD []).mapM fun (m : Int) =>
        c.require id x (m < 2 * t.numLanes) .shuffleSelector).Answers :=
      Outcome.answers_mapM.mpr fun m _ => by simp [require_eq hs]
    obtain ⟨l, hl⟩ := hmask
    simp only [require_eq hs] at hl
    rcases argType_cases hown (i := 1) (by omega) with ⟨h₁, m₁⟩ | ⟨u, h₁, -, -, m₁⟩ <;>
      cases ht : t.isVector <;> simp [h₀, m₀, h₁, m₁, e₀, both, require_eq hs, ht, hl]

theorem selectRule_answers (hop : x.op = .select) : (c.selectRule id x).Answers ↔
    ∀ i ∈ c.func.typeReads x, x.args[i]? ≠ some .missing := by
  unfold typeReads
  rw [hop]
  refine counted_answers hs fun hn => ?_
  rcases argType_cases hown (i := 0) (by omega) with ⟨h₀, m₀⟩ | ⟨t, h₀, -, -, m₀⟩
  · simp [h₀, m₀]
  rcases argType_cases hown (i := 1) (by omega) with ⟨h₁, m₁⟩ | ⟨u, h₁, e₁, -, m₁⟩
  · simp [h₀, m₀, h₁, m₁, both]
  rcases argType_cases hown (i := 2) (by omega) with ⟨h₂, m₂⟩ | ⟨w, h₂, -, -, m₂⟩ <;>
    by_cases ht : u = x.type <;> simp [h₀, m₀, h₁, m₁, h₂, m₂, e₁, both, require_eq hs, ht]

theorem callRule_answers (hop : x.op = .call) : (c.callRule id x).Answers ↔
    ∀ i ∈ c.func.typeReads x, x.args[i]? ≠ some .missing := by
  unfold typeReads Checker.callRule
  rw [hop]
  by_cases hn : 1 ≤ x.args.length
  · rcases argType_cases hown hn with ⟨h₀, m₀⟩ | ⟨t, h₀, -, -, m₀⟩ <;>
      simp [h₀, m₀, require_eq hs, both, hn, Op.isBinary, Op.isCast]
  · simp [require_eq hs, both, hn, Op.isBinary, Op.isCast]

end rules

/-- The type rules come to an answer if the operands are there that they look at, and the global of an
address is. -/
theorem types_answers (hl : c.func.layout ≠ [])
    (hown : ∀ o ∈ x.args, o = .missing ∨ ∃ w, o = .value w ∧ (c.func.value w).type.Valid) :
    (c.types id x).Answers ↔ (∀ i ∈ c.func.typeReads x, x.args[i]? ≠ some .missing) ∧
      (x.op = .globalAddr → x.global.isSome = true) := by
  by_cases hglobal : x.op = .globalAddr
  · cases hg : x.global <;> by_cases hty : x.type = .ptr <;>
      simp [Checker.types, typeReads, hglobal, Op.isBinary, Op.isCast, hg, hty, instrText, auxText,
        Outcome.need, Outcome.crash]
  obtain ⟨s, hs⟩ : (c.func.instrText id x).Answers :=
    instrText_answers.mpr fun h => absurd h hglobal
  rw [and_iff_left fun h => absurd h hglobal, Checker.types_eq]
  split
  · next hbin => exact binaryRule_answers hs hown hbin
  split
  · next hbin hcast => exact conversionRule_answers hs hown hbin hcast
  next hbin hcast =>
  cases hop : x.op <;> simp only
  case gep => exact gepRule_answers hs hown hop
  case insert => exact insertRule_answers hs hown hop
  case shuffle => exact shuffleRule_answers hs hown hop
  case select => exact selectRule_answers hs hown hop
  case call => exact callRule_answers hs hown hop
  all_goals
    unfold typeReads
    rw [if_neg hbin, if_neg hcast, hop]
  case fneg | fsqrt => exact unaryRule_answers hs hown
  case icmp | fcmp => exact compareRule_answers hs hown
  case alloca =>
    cases hl' : c.func.layout with
    | nil => exact absurd hl' hl
    | cons b l => simp [Checker.allocaRule, entry, hl', require_eq hs]
  case load | store | extract | copy => exact single_answers hs hown (by decide)
  all_goals simp [require_eq hs]

theorem phi_answers : (c.phi b id x).Answers ↔
    (x.args.length = (c.func.block b).preds.length → .missing ∉ x.args) := by
  unfold Checker.phi
  by_cases hlen : x.args.length = (c.func.block b).preds.length
  · simp only [hlen, ne_eq, not_true_eq_false, if_false, forall_const]
    rw [Outcome.answers_bind_pure, Outcome.answers_mapM]
    have hstep : ∀ y : Operand × BlockId, ((do
        let a ← c.func.find y.1
        return orReport (a.type == x.type) (.phiArgument b id a.type) ++
          (← c.use y.2 (c.func.block y.2).values.length y.1)) : Findings).Answers ↔
        y.1 ≠ .missing := by
      intro y
      rw [← find_answers (f := c.func)]
      refine Outcome.answers_bind fun a _ => ?_
      exact Outcome.answers_bind_pure.mpr (use_answers _ _ _ _)
    have hmap : x.args = (x.args.zip (c.func.block b).preds).map Prod.fst :=
      (List.map_fst_zip hlen.le).symm
    constructor
    · intro h hmem
      rw [hmap] at hmem
      obtain ⟨y, hy, hm⟩ := List.mem_map.mp hmem
      exact (hstep y).mp (h y hy) hm
    · intro h y hy
      refine (hstep y).mpr fun hm => h ?_
      rw [← hm]
      exact (List.of_mem_zip hy).1
  · simp [hlen]

/-- The verifier comes to an answer about a value if it misses nothing that it looks at. -/
theorem value_answers (hl : c.func.layout ≠ []) (hb : b ∈ c.func.layout)
    (hv : v ∈ (c.func.block b).values) (hown : c.func.OwnOperands) :
    (c.value b late pos v).Answers ↔ c.func.Legible b v := by
  unfold Checker.value Legible
  by_cases hphi : (c.func.value v).op = .phi
  · simp only [hphi, beq_self_eq_true, if_true]
    rw [Outcome.answers_bind_pure, phi_answers]
  · simp only [beq_iff_eq, hphi, if_false]
    obtain ⟨us, hus⟩ := Outcome.answers_mapM.mpr
      fun o (_ : o ∈ (c.func.value v).args) => use_answers c b pos o
    rw [hus, Outcome.ok_bind, Outcome.answers_bind_pure,
      types_answers hl (hown b hb v hv)]

theorem block_answers (hl : c.func.layout ≠ []) (hb : b ∈ c.func.layout)
    (hown : c.func.OwnOperands) :
    (c.block b).Answers ↔ ∀ v ∈ (c.func.block b).values, c.func.Legible b v := by
  obtain ⟨ends, hends⟩ := terminator_answers (c := c) (b := b)
  unfold Checker.block Checker.values
  rw [hends, Outcome.ok_bind, Outcome.answers_bind_pure,
    Outcome.answers_bind_pure,
    Outcome.answers_foldlM (P := fun y => c.func.Legible b y.1)]
  · have hmap : (c.func.block b).values = (c.func.block b).values.zipIdx.map Prod.fst := by simp
    constructor
    · intro h v hv
      rw [hmap] at hv
      obtain ⟨y, hy, rfl⟩ := List.mem_map.mp hv
      exact h y hy
    · intro h y hy
      exact h y.1 (List.fst_mem_of_mem_zipIdx hy)
  · intro s y hy
    rw [Outcome.answers_bind_pure]
    exact value_answers hl hb (List.fst_mem_of_mem_zipIdx hy) hown

/-- The verifier comes to an answer just about the functions in which it misses nothing that it looks
at, and then it finds fault with every operand that is missing. -/
theorem verify_answers (h : f.Wired) (hown : f.OwnOperands) :
    ((∃ found, f.verify = .ok found) ↔ ∀ b ∈ f.layout, ∀ v ∈ (f.block b).values, f.Legible b v) ∧
      ∀ found, f.verify = .ok found →
        (∃ b ∈ f.layout, ∃ v ∈ (f.block b).values, .missing ∈ (f.value v).args) → found ≠ [] := by
  constructor
  · obtain ⟨t, ht, -⟩ := h.domTree
    have hl : f.layout ≠ [] := h.layout_ne
    change f.verify.Answers ↔ _
    unfold verify
    rw [ht, Outcome.ok_bind, Outcome.answers_bind_pure,
      Outcome.answers_mapM]
    exact forall₂_congr fun b hb => block_answers (c := f.checker t) hl hb hown
  · rintro found hfound ⟨b, hb, v, hv, hm⟩ rfl
    obtain ⟨a, _, ha, -⟩ := args_listed hfound hb hv hm
    cases ha

/-- An addition of one operand, and that one missing. -/
def addsNothing : Func where
  name := "addsNothing"
  ret := .void
  params := []
  values := #[{ op := .add, type := .i32, args := [.missing], block := some 0 }]
  layout := [0]
  blocks := #[{ values := [0], kind := .ret }]

/-- The number of operands is wrong, so the missing one is not looked into, but reported. -/
theorem verify_answers_addsNothing : addsNothing.Wired ∧ addsNothing.OwnOperands ∧
    ∃ found, addsNothing.verify = .ok found ∧ found ≠ [] := by
  have hwired : addsNothing.Wired := ⟨by decide, by decide, by decide, by decide⟩
  have hown : addsNothing.OwnOperands := fun b hb v hv o ho => by
    obtain rfl : b = 0 := List.mem_singleton.mp hb
    obtain rfl : v = 0 := List.mem_singleton.mp hv
    exact .inl (List.mem_singleton.mp ho)
  obtain ⟨hiff, hreports⟩ := verify_answers hwired hown
  have hlegible : ∀ b ∈ addsNothing.layout, ∀ v ∈ (addsNothing.block b).values,
      addsNothing.Legible b v := fun b hb v hv => by
    obtain rfl : b = 0 := List.mem_singleton.mp hb
    obtain rfl : v = 0 := List.mem_singleton.mp hv
    exact ⟨by decide, nofun⟩
  obtain ⟨found, hfound⟩ := hiff.mpr hlegible
  exact ⟨hwired, hown, found, hfound, hreports found hfound
    ⟨0, by decide, 0, by decide, by decide⟩⟩

/-- With a second operand the first one's type is asked for. -/
example : Func.verify { addsNothing with
    values := #[{ op := .add, type := .i32, args := [.missing, .missing], block := some 0 }] } =
      Outcome.crash .absent := by rfl

end Func
end SsaJit
