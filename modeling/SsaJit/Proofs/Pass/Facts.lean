import Mathlib.Algebra.Order.Ring.Nat
import SsaJit.Pass.ConstProp
import SsaJit.Proofs.Pass.Basic
import SsaJit.Proofs.Ssa.Trim

/-! What constant propagation learns. Facts only ever grow, each value's at most twice, so learning
comes to an end in the rounds allowed for it, and what it ends with says of every executable block
what its values and its end say of themselves: `Facts.Stable`. -/

namespace SsaJit.Func

variable {f g : Func} {b c d s p : BlockId} {u v w x : ValueId} {o : Operand}

/-! ## Facts in order -/

namespace Fact

variable {a b c : Fact}

/-- No more is said by `a` than by `b`. -/
def Le (a b : Fact) : Prop := a = .unknown ∨ a = b ∨ b = .varies

theorem join_const (l l' : List UInt64) :
    (const l).join (const l') = if l = l' then const l else varies := rfl

theorem Le.refl (a : Fact) : Le a a := .inr (.inl rfl)

theorem unknown_le (a : Fact) : Le .unknown a := .inl rfl

theorem le_varies (a : Fact) : Le a .varies := .inr (.inr rfl)

theorem Le.trans (hab : Le a b) (hbc : Le b c) : Le a c := by
  rcases hab with rfl | rfl | rfl
  · exact unknown_le c
  · exact hbc
  · rcases hbc with h | rfl | rfl
    · cases h
    · exact le_varies a
    · exact le_varies a

theorem le_join_left (a b : Fact) : Le a (a.join b) := by
  cases a with
  | unknown => exact unknown_le _
  | varies => cases b <;> exact .refl _
  | const l =>
    cases b with
    | unknown => exact .refl _
    | varies => exact le_varies _
    | const l' =>
      rw [join_const]
      split
      · exact .refl _
      · exact le_varies _

theorem le_join_right (a b : Fact) : Le b (a.join b) := by
  cases a with
  | unknown => exact .refl _
  | varies => cases b <;> first | exact unknown_le _ | exact le_varies _
  | const l =>
    cases b with
    | unknown => exact unknown_le _
    | varies => exact .refl _
    | const l' =>
      rw [join_const]
      split
      · next h => rw [h]; exact .refl _
      · exact le_varies _

theorem join_le (hac : Le a c) (hbc : Le b c) : Le (a.join b) c := by
  rcases hac with rfl | rfl | rfl
  · exact hbc
  · rcases hbc with rfl | rfl | rfl
    · cases a <;> exact .refl _
    · cases b with
      | unknown => exact .refl _
      | varies => exact .refl _
      | const l => rw [join_const, if_pos rfl]; exact .refl _
    · exact le_varies _
  · exact le_varies _

/-- A join of the same sort as its first part is that part. -/
theorem join_eq_left_of_sameSort (h : (a.join b).sameSort a = true) : a.join b = a := by
  cases a with
  | unknown =>
    cases b with
    | unknown => rfl
    | varies => simp [join, sameSort] at h
    | const l => simp [join, sameSort] at h
  | varies => cases b <;> rfl
  | const l =>
    cases b with
    | unknown => rfl
    | varies => simp [join, sameSort] at h
    | const l' =>
      rw [join_const] at h ⊢
      split
      · rfl
      · next hne => simp [hne, sameSort] at h

theorem join_eq_left (h : Le b a) : a.join b = a := by
  rcases h with rfl | rfl | rfl
  · cases a <;> rfl
  · cases b with
    | unknown | varies => rfl
    | const l => rw [join_const, if_pos rfl]
  · cases b <;> rfl

@[simp] theorem sameSort_self (a : Fact) : a.sameSort a = true := by cases a <;> rfl

/-- How often a fact can still change. -/
def rest : Fact → Nat
  | .unknown => 2
  | .const _ => 1
  | .varies => 0

theorem rest_lt_of_not_sameSort (hab : Le a b) (h : b.sameSort a = false) : b.rest < a.rest := by
  rcases hab with rfl | rfl | rfl
  · cases b <;> simp_all [sameSort, rest]
  · cases a <;> simp [sameSort] at h
  · cases a <;> simp_all [sameSort, rest]

/-- What is known from many sources. -/
def joinAll (l : List Fact) : Fact := l.foldl join .unknown

theorem foldl_join_spec (l : List Fact) : ∀ a : Fact, Le a (l.foldl join a) ∧
    (∀ x ∈ l, Le x (l.foldl join a)) ∧
    (∀ lanes, l.foldl join a = .const lanes → a = .const lanes ∨ .const lanes ∈ l) ∧
    ∀ c, Le a c → (∀ x ∈ l, Le x c) → Le (l.foldl join a) c := by
  induction l with
  | nil => exact fun a => ⟨.refl a, by simp, fun _ h => .inl h, fun _ h _ => h⟩
  | cons y l ih =>
    intro a
    obtain ⟨h₁, h₂, h₃, h₄⟩ := ih (a.join y)
    refine ⟨(le_join_left a y).trans h₁, fun x hx => ?_, fun lanes hl => ?_, fun c hac hall => ?_⟩
    · rcases List.mem_cons.mp hx with rfl | hx
      · exact (le_join_right a x).trans h₁
      · exact h₂ x hx
    · rcases h₃ lanes hl with hj | hm
      · cases a with
        | unknown => exact .inr (by rw [show y = .const lanes from hj]; exact List.mem_cons_self)
        | varies => cases y <;> simp [join] at hj
        | const l' =>
          refine .inl ?_
          cases y with
          | unknown => exact hj
          | varies => simp [join] at hj
          | const l'' =>
            rw [join_const] at hj
            split at hj
            · exact hj
            · cases hj
      · exact .inr (List.mem_cons_of_mem _ hm)
    · exact h₄ c (join_le hac (hall y List.mem_cons_self))
        fun x hx => hall x (List.mem_cons_of_mem _ hx)

theorem of_join {lanes : List UInt64} (h : a.join b = .const lanes) :
    a = .const lanes ∨ b = .const lanes :=
  ((foldl_join_spec [b] a).2.2.1 lanes h).imp_right fun h => (List.mem_singleton.mp h).symm

theorem le_joinAll {l : List Fact} {a : Fact} (h : a ∈ l) : Le a (joinAll l) :=
  (foldl_join_spec l .unknown).2.1 a h

theorem mem_of_joinAll {l : List Fact} {lanes : List UInt64} (h : joinAll l = .const lanes) :
    .const lanes ∈ l :=
  ((foldl_join_spec l .unknown).2.2.1 lanes h).resolve_left (by simp)

end Fact

/-! ## What facts say of operands -/

namespace Facts

variable {s s' : Facts}

/-- The fact about a value. -/
def fact (s : Facts) (v : ValueId) : Fact := s.values.getD v .unknown

/-- The fact about an operand; nothing if it is no value of the function. -/
def operand (s : Facts) : Operand → Fact
  | .value v => s.fact v
  | _ => .unknown

/-- Where control can go from a block, as far as is known. -/
def ways (f : Func) (s : Facts) (b : BlockId) : List BlockId :=
  match s.feasible f b with
  | .ok l => l
  | .error _ => []

/-- Can control go from `p` to `b`, as far as is known? -/
def taken (f : Func) (s : Facts) (b p : BlockId) : Bool :=
  s.executable.contains p && (s.ways f p).contains b

/-- Facts that fit the function. -/
structure Ok (f : Func) (s : Facts) : Prop where
  size : s.values.size = f.numValues
  fits : ∀ v lanes, s.fact v = .const lanes →
    (f.value v).op ≠ .store ∧ (f.value v).type.Fits lanes
  executable : ∀ b ∈ s.executable, f.Reached b
  nodup : s.executable.Nodup

theorem of_eq (h : s.Ok f) (hv : v < f.numValues) : s.of f (.value v) = .ok (s.fact v) := by
  have hlt : v < s.values.size := h.size ▸ hv
  simp [Facts.of, number, fact, hlt]

end Facts

namespace Facts

variable {s s' : Facts}

theorem of_atEnd (h : s.Ok f) (ho : f.AtEnd o b) :
    s.of f o = .ok (s.operand o) := by
  obtain ⟨v, rfl⟩ := ho.isValue
  exact of_eq h ho.lt

theorem of_before (h : s.Ok f) (ho : f.Before o u b) :
    s.of f o = .ok (s.operand o) := by
  obtain ⟨v, rfl⟩ := ho.isValue
  exact of_eq h ho.lt

/-! ## Where control can go -/

/-- The lanes of a condition: one. -/
theorem operand_cond (h : s.Ok f) (hty : f.operandType o = .i1) {lanes : List UInt64}
    (ho : s.operand o = .const lanes) : ∃ w, lanes = [w] := by
  cases o with
  | value v =>
    obtain ⟨_, hfit⟩ := h.fits v lanes ho
    rw [show (f.value v).type = .i1 from hty] at hfit
    exact List.length_eq_one_iff.mp hfit.1
  | missing => cases ho
  | foreign k => cases ho

theorem feasible_jump (hk : (f.block b).kind = .jump) :
    s.feasible f b = .ok (f.block b).succs := by
  simp [feasible, hk]

/-- The edges that a branch can take. -/
theorem feasible_branch (h : s.Ok f) (hf : f.Ssa) (hb : b ∈ f.layout)
    (hk : (f.block b).kind = .branch) {yes no : BlockId} (hs : (f.block b).succs = [yes, no]) :
    s.feasible f b = .ok (match s.operand (f.block b).control with
      | .unknown => []
      | .varies => [yes, no]
      | .const lanes => if lanes.headD 0 ≠ 0 then [yes] else [no]) := by
  have hends := hf.ends b hb
  simp only [EndsWell, hk] at hends
  have hof := of_atEnd h hends.2.2
  simp only [feasible, hk, hof, Outcome.ok_bind, hs]
  cases hfact : s.operand (f.block b).control with
  | unknown => rfl
  | varies => rfl
  | const lanes =>
    obtain ⟨w, rfl⟩ := operand_cond h hends.2.1 hfact
    by_cases hw : w = 0
    · simp [takenEdge, Outcome.at?, hw]
    · simp [takenEdge, Outcome.at?, hw]

theorem feasible_ok (h : s.Ok f) (hf : f.Ssa) (hb : b ∈ f.layout) :
    s.feasible f b = .ok (s.ways f b) ∧ ∀ t ∈ s.ways f b, t ∈ f.next b := by
  by_cases hj : (f.block b).kind = .jump
  · have := feasible_jump (s := s) hj
    exact ⟨by rw [ways, this], by rw [ways, this]; exact fun t ht => ht⟩
  by_cases hk : (f.block b).kind = .branch
  · obtain ⟨yes, no, hs⟩ := hf.branch_succs hb hk
    have hfe := feasible_branch h hf hb hk hs
    refine ⟨by rw [ways, hfe], fun t ht => ?_⟩
    simp only [ways, hfe] at ht
    rw [next, hs]
    split at ht
    · simp at ht
    · exact ht
    · split at ht
      · exact List.mem_cons.mpr (.inl (by simpa using ht))
      · exact List.mem_cons_of_mem _ ht
  · have : s.feasible f b = .ok [] := by
      unfold feasible
      cases hkind : (f.block b).kind <;> simp_all
    exact ⟨by rw [ways, this], by simp [ways, this]⟩

theorem edgeTaken_eq (h : s.Ok f) (hf : f.Ssa) (hp : p ∈ f.layout) :
    s.edgeTaken f p b = .ok (s.taken f b p) := by
  unfold edgeTaken taken
  by_cases hx : p ∈ s.executable
  · simp [hx, (feasible_ok h hf hp).1]
  · simp [hx]

/-! ## What a value says of itself -/

/-- The facts about the arguments of a phi that control can bring. -/
def incoming (f : Func) (s : Facts) (b : BlockId) (v : ValueId) : List Fact :=
  (f.argsFrom (s.taken f b) b v).map fun x => s.operand x.1

/-- What `eval` does with one argument of a phi. -/
def phiStep (f : Func) (s : Facts) (v : Value) (fact : Fact) (x : Operand × Nat) : Outcome Fact := do
  let b ← .need v.block
  if ← s.edgeTaken f (← .at? (f.block b).preds x.2) b then return fact.join (← s.of f x.1)
  return fact

theorem phiStep_foldlM (h : s.Ok f) (hf : f.Ssa)
    (hblock : (f.value v).block = some b) (ps : List BlockId) (hps : ∀ p ∈ ps, p ∈ f.layout)
    (os : List Operand) (hlen : os.length = ps.length)
    (hos : ∀ x ∈ os.zip ps, f.AtEnd x.1 x.2) :
    ∀ (before : List BlockId) (fact : Fact), (f.block b).preds = before ++ ps →
      (os.zipIdx before.length).foldlM (phiStep f s (f.value v)) fact =
        .ok ((((os.zip ps).filter fun x => s.taken f b x.2).map fun x =>
          s.operand x.1).foldl Fact.join fact) := by
  induction ps generalizing os with
  | nil =>
    intro before fact _
    obtain rfl : os = [] := List.length_eq_zero_iff.mp (by simpa using hlen)
    rfl
  | cons p ps ih =>
    intro before fact hpreds
    cases os with
    | nil => simp at hlen
    | cons o os =>
      have hend : f.AtEnd o p := hos (o, p) (by simp)
      have hpl : p ∈ f.layout := hps p List.mem_cons_self
      have hat : (f.block b).preds[before.length]? = some p := by simp [hpreds]
      have hrest := ih (fun q hq => hps q (List.mem_cons_of_mem _ hq)) os (by simpa using hlen)
        (fun x hx => hos x (by simp [hx])) (before ++ [p])
      simp only [List.length_append, List.length_cons, List.length_nil, Nat.zero_add] at hrest
      rw [List.zipIdx_cons, List.foldlM_cons]
      have hstep : phiStep f s (f.value v) fact (o, before.length) =
          .ok (if s.taken f b p then fact.join (s.operand o) else fact) := by
        simp only [phiStep, hblock, Outcome.need, Outcome.ok_bind, Outcome.at?, hat,
          edgeTaken_eq h hf hpl, of_atEnd h hend]
        split <;> rfl
      rw [hstep, Outcome.ok_bind, hrest _ (by rw [hpreds, List.append_assoc]; rfl)]
      by_cases ht : s.taken f b p = true
      · simp [ht]
      · simp [ht]

theorem eval_phi (h : s.Ok f) (hf : f.Ssa) (hb : b ∈ f.layout) (hv : v ∈ (f.block b).values)
    (hphi : (f.value v).op = .phi) :
    s.eval f (f.value v) = .ok (Fact.joinAll (s.incoming f b v)) := by
  obtain ⟨hlen, hall⟩ := hf.phis b hb v hv hphi
  have heq : s.eval f (f.value v) =
      (f.value v).args.zipIdx.foldlM (phiStep f s (f.value v)) .unknown := by
    simp only [eval, hphi]
    rfl
  rw [heq]
  exact phiStep_foldlM h hf ((hf.listing.listed v b).mpr ⟨hb, hv⟩) _
    (fun p hp => hf.flow.preds_mem b hb p hp) _ hlen (fun x hx => (hall x hx).2) [] .unknown rfl

/-- The lanes of facts that are all constant, else the first that is not. -/
def gather : List Fact → Except Fact (List (List UInt64))
  | [] => .ok []
  | .const lanes :: rest => (gather rest).map (lanes :: ·)
  | fact :: _ => .error fact

theorem operands_eq {l : List Operand} (hos : ∀ o ∈ l, s.of f o = .ok (s.operand o)) :
    s.operands f l = .ok (gather (l.map s.operand)) := by
  induction l with
  | nil => rfl
  | cons o l ih =>
    have ho := hos o List.mem_cons_self
    have ih := ih fun o ho => hos o (List.mem_cons_of_mem _ ho)
    simp only [operands, ho, Outcome.ok_bind, List.map_cons]
    cases hfact : s.operand o with
    | unknown => rfl
    | varies => rfl
    | const lanes =>
      simp only [ih, Outcome.ok_bind, gather]
      cases gather (l.map s.operand) <;> rfl

theorem gather_spec {l : List Fact} : (∀ ls, gather l = .ok ls → l = ls.map .const) ∧
    ∀ e, gather l = .error e → e ∈ l ∧ ∀ lanes, e ≠ .const lanes := by
  induction l with
  | nil => exact ⟨fun ls h => (by cases h; rfl), fun e h => (by cases h)⟩
  | cons a l ih =>
    cases a with
    | unknown => exact ⟨fun ls h => (by cases h), fun e h => (by cases h; simp)⟩
    | varies => exact ⟨fun ls h => (by cases h), fun e h => (by cases h; simp)⟩
    | const lanes =>
      cases hg : gather l with
      | error e =>
        refine ⟨fun ls h => by simp [gather, hg, Except.map] at h, fun e' h => ?_⟩
        obtain rfl : e = e' := by simpa [gather, hg, Except.map] using h
        exact ⟨List.mem_cons_of_mem _ (ih.2 e hg).1, (ih.2 e hg).2⟩
      | ok rest =>
        refine ⟨fun ls h => ?_, fun e h => by simp [gather, hg, Except.map] at h⟩
        obtain rfl : lanes :: rest = ls := by simpa [gather, hg, Except.map] using h
        rw [ih.1 rest hg]
        rfl

/-- The operations that nothing is learnt about. -/
def opens : Op → Bool
  | .param | .load | .store | .call | .alloca | .intrinsic | .globalAddr => true
  | _ => false

/-- What the operands' facts make of an operation. -/
def folded (f : Func) (v : Value) : Except Fact (List (List UInt64)) → Outcome Fact
  | .error fact => .ok fact
  | .ok args => do
    match ← (operationOf v (f.argTypes v)).fold args with
    | some lanes => return .const lanes
    | none => return .varies

theorem eval_pure (h : s.Ok f) (hf : f.Ssa) (hb : b ∈ f.layout) (hv : v ∈ (f.block b).values)
    (hphi : (f.value v).op ≠ .phi) (hconst : (f.value v).op ≠ .const)
    (hopen : opens (f.value v).op = false) :
    s.eval f (f.value v) = if (f.value v).volatile || (f.value v).type.isVoid then .ok .varies
      else folded f (f.value v) (gather ((f.value v).args.map s.operand)) := by
  have hparam : (f.value v).op ≠ .param := by
    intro heq
    simp [heq, opens] at hopen
  have hbefore := fun o ho => hf.before (o := o) hb hv hphi hparam ho
  have hop := operation_eq (f := f) fun o ho => (hbefore o ho).isValue
  have hargs := operands_eq (f := f) (s := s) (l := (f.value v).args) fun o ho =>
    of_before h (hbefore o ho)
  unfold eval
  cases hcase : (f.value v).op <;> simp only [hcase] at hphi hconst hopen
  case phi => exact absurd rfl hphi
  case const => exact absurd rfl hconst
  case param | load | store | call | alloca | intrinsic | globalAddr => simp [opens] at hopen
  all_goals
    simp only
    split
    · rfl
    · rw [hargs, Outcome.ok_bind]
      cases gather ((f.value v).args.map s.operand) with
      | error fact => rfl
      | ok args => exact (congrArg (· >>= _) hop).trans rfl

theorem eval_open (hopen : opens (f.value v).op = true) : s.eval f (f.value v) = .ok .varies := by
  unfold eval
  cases hcase : (f.value v).op <;> simp_all [opens]

theorem eval_const (hc : (f.value v).op = .const) :
    s.eval f (f.value v) = .ok (.const ((f.value v).constLanes.getD [])) := by
  simp [eval, hc]

theorem const_fits (hf : f.Fit) (hb : b ∈ f.layout) (hv : v ∈ (f.block b).values)
    (hc : (f.value v).op = .const) :
    (f.value v).type.Fits ((f.value v).constLanes.getD []) := by
  cases hl : (f.value v).constLanes with
  | some lanes => exact constLanes_fits hf hb hv hl
  | none =>
    have hty := hf.ssa.typed hb hv (by simp [hc])
    simp only [WellTyped, hc, Op.isBinary, Op.isCast] at hty
    simp only [Value.constLanes, Value.isConst, hc] at hl
    split at hl
    · simp_all
    · split at hl
      · next hvec =>
        have hlen := hty hvec
        rw [hl] at hlen
        exact ⟨hlen, by simp⟩
      · cases hl

/-- What constant operands make of an operation. -/
theorem folded_spec (h : s.Ok f) (hf : f.Fit) (hb : b ∈ f.layout) (hv : v ∈ (f.block b).values)
    (hphi : (f.value v).op ≠ .phi) (hparam : (f.value v).op ≠ .param) :
    ∃ e, folded f (f.value v) (gather ((f.value v).args.map s.operand)) = .ok e ∧
      ∀ lanes, e = .const lanes → (f.value v).type.Fits lanes := by
  cases hg : gather ((f.value v).args.map s.operand) with
  | error fact => exact ⟨fact, rfl, fun lanes hl => absurd hl ((gather_spec.2 fact hg).2 lanes)⟩
  | ok args =>
    have hall : List.Forall₂ (fun o ls => s.operand o = .const ls) (f.value v).args args := by
      have := gather_spec.1 args hg
      rw [← List.forall₂_eq_eq_eq, List.forall₂_map_left_iff, List.forall₂_map_right_iff] at this
      exact this
    have hbefore := fun o ho => hf.ssa.before (o := o) hb hv hphi hparam ho
    have hfit : List.Forall₂ (fun o ls => (f.operandType o).Valid ∧ (f.operandType o).Fits ls)
        (f.value v).args args := by
      refine ((List.forall₂_and_left _ _).mpr ⟨fun o ho => ho, hall⟩).imp ?_
      rintro o ls ⟨ho, hls⟩
      have hbefore := hf.ssa.before hb hv hphi hparam ho
      obtain ⟨w, rfl⟩ := hbefore.isValue
      obtain ⟨hstore, hfit⟩ := h.fits w ls hls
      obtain ⟨d, hd, hw⟩ := (hbefore.listed hf.ssa.listing).resolve_left hstore
      exact ⟨hf.types d hd w hw, hfit⟩
    obtain ⟨hvalid, hfits⟩ := (List.forall₂_and_left _ _).mp hfit
    have htypes : ∀ t ∈ f.argTypes (f.value v), t.Valid := by
      intro t ht
      obtain ⟨o, ho, rfl⟩ := List.mem_map.mp ht
      exact hvalid o ho
    obtain ⟨r, hr, hres⟩ := fold_fits (hf.ssa.typed hb hv hphi) (hf.types b hb v hv) htypes
      (List.forall₂_map_left_iff.mpr hfits)
    cases r with
    | none => exact ⟨.varies, by simp [folded, hr], fun _ hl => by cases hl⟩
    | some lanes =>
      refine ⟨.const lanes, by simp [folded, hr], fun ls hl => ?_⟩
      obtain rfl : lanes = ls := by simpa using hl
      exact hres lanes rfl

theorem eval_spec (h : s.Ok f) (hf : f.Fit) (hb : b ∈ f.layout) (hv : v ∈ (f.block b).values) :
    ∃ e, s.eval f (f.value v) = .ok e ∧
      ∀ lanes, e = .const lanes → (f.value v).op ≠ .store ∧ (f.value v).type.Fits lanes := by
  by_cases hphi : (f.value v).op = .phi
  · refine ⟨_, eval_phi h hf.ssa hb hv hphi, fun lanes hl => ⟨by simp [hphi], ?_⟩⟩
    obtain ⟨x, hx, hfact⟩ := List.mem_map.mp (Fact.mem_of_joinAll hl)
    obtain ⟨hty, hend⟩ := (hf.ssa.phis b hb v hv hphi).2 x (List.mem_filter.mp hx).1
    obtain ⟨w, hw⟩ := hend.isValue
    rw [hw] at hty hfact
    rw [← hty]
    exact (h.fits w lanes hfact).2
  by_cases hc : (f.value v).op = .const
  · refine ⟨_, eval_const hc, fun lanes hl => ⟨by simp [hc], ?_⟩⟩
    obtain rfl : (f.value v).constLanes.getD [] = lanes := by simpa using hl
    exact const_fits hf hb hv hc
  by_cases hopen : opens (f.value v).op = true
  · exact ⟨.varies, eval_open hopen, fun _ hl => by cases hl⟩
  · have hopen : opens (f.value v).op = false := by simpa using hopen
    rw [eval_pure h hf.ssa hb hv hphi hc hopen]
    split
    · exact ⟨.varies, rfl, fun _ hl => by cases hl⟩
    · obtain ⟨e, he, hfit⟩ := folded_spec h hf hb hv hphi fun heq => by simp [heq, opens] at hopen
      exact ⟨e, he, fun lanes hl => ⟨fun heq => by simp [heq, opens] at hopen, hfit lanes hl⟩⟩

/-! ## Learning -/

/-- The blocks that control can go to from a block found executable. -/
def out (f : Func) (s : Facts) (b : BlockId) : List BlockId :=
  if s.executable.contains b then s.ways f b else []

/-- Blocks are found executable only along edges that can be taken. -/
def Traced (f : Func) (s : Facts) : Prop := ∀ b ∈ s.executable, Reach (s.out f) f.start b

/-- `s'` knows no less than `s`. -/
structure Le (s s' : Facts) : Prop where
  fact : ∀ v, Fact.Le (s.fact v) (s'.fact v)
  executable : ∀ b ∈ s.executable, b ∈ s'.executable

theorem Le.refl (s : Facts) : Le s s := ⟨fun _ => .refl _, fun _ hb => hb⟩

theorem Le.trans {s₁ s₂ s₃ : Facts} (h : Le s₁ s₂) (h' : Le s₂ s₃) : Le s₁ s₃ :=
  ⟨fun v => (h.fact v).trans (h'.fact v), fun b hb => h'.executable b (h.executable b hb)⟩

theorem Le.operand (h : Le s s') (o : Operand) : Fact.Le (s.operand o) (s'.operand o) := by
  cases o with
  | value v => exact h.fact v
  | missing => exact .refl _
  | foreign k => exact .refl _

/-- More facts leave control no fewer ways. -/
theorem ways_mono (h : s.Ok f) (h' : s'.Ok f) (hf : f.Ssa) (hle : Le s s') (hb : b ∈ f.layout)
    (ht : c ∈ s.ways f b) : c ∈ s'.ways f b := by
  by_cases hk : (f.block b).kind = .branch
  · obtain ⟨yes, no, hs⟩ := hf.branch_succs hb hk
    have hop := hle.operand (f.block b).control
    rw [ways, feasible_branch h hf hb hk hs] at ht
    rw [ways, feasible_branch h' hf hb hk hs]
    rcases hop with hop | hop | hop
    · rw [hop] at ht
      cases ht
    · rwa [← hop]
    · rw [hop]
      simp only at ht ⊢
      split at ht
      · cases ht
      · exact ht
      · split at ht
        · exact List.mem_cons.mpr (.inl (by simpa using ht))
        · exact List.mem_cons_of_mem _ ht
  · have heq : s.feasible f b = s'.feasible f b := by
      unfold feasible
      cases hkind : (f.block b).kind <;> simp_all
    rwa [ways, ← heq]

theorem out_mono (h : s.Ok f) (h' : s'.Ok f) (hf : f.Ssa) (hle : Le s s')
    (ht : c ∈ s.out f b) : c ∈ s'.out f b := by
  unfold out at ht ⊢
  split at ht
  · next hx =>
    have hmem : b ∈ s.executable := by simpa using hx
    rw [if_pos (by simpa using hle.executable b hmem)]
    exact ways_mono h h' hf hle (hf.flow.reached_mem (h.executable b hmem)) ht
  · cases ht

/-- How often facts can still change. -/
def left (f : Func) (s : Facts) : Nat :=
  (s.values.toList.map Fact.rest).sum + (f.numBlocks - s.executable.length)

/-- What a step of learning does, `changed` or not. -/
structure Grows (f : Func) (s s' : Facts) (changed : Bool) : Prop where
  ok : s'.Ok f
  le : Le s s'
  traced : s.Traced f → s'.Traced f
  same : changed = false → s' = s
  less : changed = true → s'.left f < s.left f

theorem Grows.refl (h : s.Ok f) : Grows f s s false :=
  ⟨h, .refl s, id, fun _ => rfl, fun h => by cases h⟩

theorem Grows.trans {s₁ s₂ s₃ : Facts} {x y : Bool} (h : Grows f s₁ s₂ x) (h' : Grows f s₂ s₃ y) :
    Grows f s₁ s₃ (x || y) where
  ok := h'.ok
  le := h.le.trans h'.le
  traced ht := h'.traced (h.traced ht)
  same hxy := by
    obtain ⟨hx, hy⟩ := Bool.or_eq_false_iff.mp hxy
    exact (h'.same hy).trans (h.same hx)
  less hxy := by
    cases x with
    | false =>
      rw [h.same rfl] at h'
      exact h'.less hxy
    | true =>
      have hlt := h.less rfl
      cases y with
      | false =>
        rw [h'.same rfl]
        exact hlt
      | true => exact Nat.lt_trans (h'.less rfl) hlt

theorem sum_map_set_lt {l : List Fact} {i : Nat} {a b : Fact} (hi : l[i]? = some a)
    (hlt : b.rest < a.rest) : ((l.set i b).map Fact.rest).sum < (l.map Fact.rest).sum := by
  induction l generalizing i with
  | nil => simp at hi
  | cons y l ih =>
    cases i with
    | zero =>
      obtain rfl : y = a := by simpa using hi
      simpa using hlt
    | succ i =>
      have := ih (i := i) (by simpa using hi)
      simpa using this

theorem fact_set {e : Fact} (hv : v < s.values.size) :
    Facts.fact { s with values := s.values.setIfInBounds v e } x = if x = v then e else s.fact x := by
  simp only [fact, Array.getD_eq_getD_getElem?, Array.getElem?_setIfInBounds]
  by_cases hx : x = v
  · subst hx
    simp [hv]
  · simp [hx, Ne.symm hx]

/-- What a value says of itself is no more than what is known of it. -/
def Settled (f : Func) (s : Facts) (v : ValueId) : Prop :=
  ∃ e, s.eval f (f.value v) = .ok e ∧ Fact.Le e (s.fact v)

theorem learn_eq {e : Fact} (he : s.eval f (f.value v) = .ok e) : s.learn f v =
    if s.fact v = .varies then .ok (s, false)
    else if ((s.fact v).join e).sameSort (s.fact v) then .ok (s, false)
    else .ok ({ s with values := s.values.setIfInBounds v ((s.fact v).join e) }, true) := by
  simp only [learn, he, Outcome.ok_bind, Outcome.pure_eq_ok]
  rfl

/-- A settled value has nothing to teach. -/
theorem Settled.learn (h : s.Settled f v) : s.learn f v = .ok (s, false) := by
  obtain ⟨e, he, hle⟩ := h
  rw [learn_eq he, Fact.join_eq_left hle, Fact.sameSort_self]
  simp

theorem learn_spec (h : s.Ok f) (hf : f.Fit) (hb : b ∈ f.layout) (hv : v ∈ (f.block b).values) :
    ∃ s' ch, s.learn f v = .ok (s', ch) ∧ Grows f s s' ch ∧ (ch = false → s.Settled f v) := by
  obtain ⟨e, he, hfit⟩ := eval_spec h hf hb hv
  have hlt : v < s.values.size := h.size ▸ hf.ssa.listing.lt hb hv
  rw [learn_eq he]
  by_cases hvar : s.fact v = .varies
  · exact ⟨s, false, by rw [if_pos hvar], .refl h, fun _ => ⟨e, he, hvar ▸ Fact.le_varies e⟩⟩
  by_cases hsort : ((s.fact v).join e).sameSort (s.fact v) = true
  · refine ⟨s, false, by rw [if_neg hvar, if_pos hsort], .refl h, fun _ => ⟨e, he, ?_⟩⟩
    have hle := Fact.le_join_right (s.fact v) e
    rwa [Fact.join_eq_left_of_sameSort hsort] at hle
  refine ⟨_, true, by rw [if_neg hvar, if_neg hsort], ?_, fun h => by cases h⟩
  have hle : Le s { s with values := s.values.setIfInBounds v ((s.fact v).join e) } := by
    refine ⟨fun x => ?_, fun _ hx => hx⟩
    rw [fact_set hlt]
    split
    · next hx => exact hx ▸ Fact.le_join_left _ _
    · exact .refl _
  have hok : Facts.Ok f { s with values := s.values.setIfInBounds v ((s.fact v).join e) } := by
    refine ⟨by simpa using h.size, fun x lanes hx => ?_, h.executable, h.nodup⟩
    rw [fact_set hlt] at hx
    split at hx
    · next hxv =>
      subst hxv
      rcases Fact.of_join hx with hold | hnew
      · exact h.fits x lanes hold
      · exact hfit lanes hnew
    · exact h.fits x lanes hx
  refine ⟨hok, hle, fun ht c hc => (ht c hc).mono fun _ _ _ => out_mono h hok hf.ssa hle,
    fun h => (by cases h), fun _ => ?_⟩
  have hrest := Fact.rest_lt_of_not_sameSort (Fact.le_join_left (s.fact v) e) (by simpa using hsort)
  have hget : s.values.toList[v]? = some (s.fact v) := by simp [fact, hlt]
  have := sum_map_set_lt hget hrest
  simpa [left] using this

/-- Find a block executable. -/
def mark (x : Facts × Bool) (t : BlockId) : Facts × Bool :=
  if x.1.executable.contains t then x
  else ({ x.1 with executable := t :: x.1.executable }, true)

theorem ways_congr (h : s.values = s'.values) : s.ways f b = s'.ways f b := by
  simp only [ways, feasible, Facts.of, h]

theorem Ok.length_le (h : s.Ok f) (hf : f.Ssa) : s.executable.length ≤ f.numBlocks := by
  have hsub : s.executable ⊆ List.range f.numBlocks := fun b hb =>
    List.mem_range.mpr (hf.flow.lt b (hf.flow.reached_mem (h.executable b hb)))
  simpa using (List.subperm_of_subset h.nodup hsub).length_le

theorem mark_spec (h : s.Ok f) (hf : f.Ssa) (hb : b ∈ s.executable) (ht : c ∈ s.ways f b)
    (ch : Bool) : ∃ s' more, mark (s, ch) c = (s', ch || more) ∧ Grows f s s' more ∧
      c ∈ s'.executable ∧ s'.values = s.values := by
  have hreach := h.executable b hb
  by_cases hc : c ∈ s.executable
  · exact ⟨s, false, by simp [mark, hc], .refl h, hc, rfl⟩
  refine ⟨{ s with executable := c :: s.executable }, true, by simp [mark, hc], ?_, by simp, rfl⟩
  have hle : Le s { s with executable := c :: s.executable } :=
    ⟨fun _ => .refl _, fun _ hx => List.mem_cons_of_mem _ hx⟩
  have hnext := (feasible_ok h hf (hf.flow.reached_mem hreach)).2 c ht
  have hok : Facts.Ok f { s with executable := c :: s.executable } := by
    refine ⟨h.size, h.fits, fun x hx => ?_, List.nodup_cons.mpr ⟨hc, h.nodup⟩⟩
    rcases List.mem_cons.mp hx with rfl | hx
    · exact hreach.step hnext
    · exact h.executable x hx
  refine ⟨hok, hle, fun htr x hx => ?_, fun h => (by cases h), fun _ => ?_⟩
  · have hold : ∀ y ∈ s.executable, Reach (Facts.out f { s with executable := c :: s.executable })
        f.start y := fun y hy => (htr y hy).mono fun _ _ _ => out_mono h hok hf hle
    rcases List.mem_cons.mp hx with rfl | hx
    · refine (hold b hb).step (out_mono h hok hf hle ?_)
      rwa [out, if_pos (by simpa using hb)]
    · exact hold x hx
  · have hlen := hok.length_le hf
    simp only [List.length_cons] at hlen
    simp only [left, List.length_cons]
    omega

theorem foldl_mark_spec (h : s.Ok f) (hf : f.Ssa) (hb : b ∈ s.executable) (ch : Bool)
    (l : List BlockId) (hl : ∀ t ∈ l, t ∈ s.ways f b) :
    ∃ s' more, l.foldl mark (s, ch) = (s', ch || more) ∧ Grows f s s' more ∧
      ∀ t ∈ l, t ∈ s'.executable := by
  induction l generalizing s ch with
  | nil => exact ⟨s, false, by simp, .refl h, by simp⟩
  | cons t l ih =>
    obtain ⟨s₁, m₁, h₁, hg₁, ht, hval⟩ := mark_spec h hf hb (hl t List.mem_cons_self) ch
    obtain ⟨s₂, m₂, h₂, hg₂, hall⟩ := ih hg₁.ok (hg₁.le.executable b hb) (ch || m₁) fun u hu => by
      rw [ways_congr hval]
      exact hl u (List.mem_cons_of_mem _ hu)
    refine ⟨s₂, m₁ || m₂, by rw [List.foldl_cons, h₁, h₂, Bool.or_assoc], hg₁.trans hg₂, ?_⟩
    intro u hu
    rcases List.mem_cons.mp hu with rfl | hu
    · exact hg₂.le.executable u ht
    · exact hall u hu

/-- All that a block says is known. -/
def StableAt (f : Func) (s : Facts) (b : BlockId) : Prop :=
  b ∈ s.executable → (∀ v ∈ (f.block b).values, s.Settled f v) ∧
    ∀ t ∈ s.ways f b, t ∈ s.executable

theorem visit_eq : s.visit f b = if !s.executable.contains b then .ok (s, false) else
    ((f.block b).values.foldlM (fun (x : Facts × Bool) id =>
      x.1.learn f id >>= fun y => .ok (y.1, x.2 || y.2)) (s, false)) >>= fun x =>
        x.1.feasible f b >>= fun l => .ok (l.foldl mark x) := rfl

theorem visit_spec (h : s.Ok f) (hf : f.Fit) (hb : b ∈ f.layout) :
    ∃ s' ch, s.visit f b = .ok (s', ch) ∧ Grows f s s' ch ∧ (ch = false → s.StableAt f b) := by
  rw [visit_eq]
  by_cases hx : b ∈ s.executable
  · have hrun := Outcome.foldlM_keeps_done (l := (f.block b).values) (b := (s, false))
      (g := fun (x : Facts × Bool) id => x.1.learn f id >>= fun y => .ok (y.1, x.2 || y.2))
      (P := fun before x => Grows f s x.1 x.2 ∧ (x.2 = false → ∀ v ∈ before, s.Settled f v))
      ?_ ⟨.refl h, fun _ v hv => by cases hv⟩
    · obtain ⟨⟨s₁, c₁⟩, hr, hg₁, hset⟩ := hrun
      have hx₁ := hg₁.le.executable b hx
      obtain ⟨hfe, _⟩ := feasible_ok hg₁.ok hf.ssa hb
      obtain ⟨s₂, m, hm, hg₂, hall⟩ := foldl_mark_spec hg₁.ok hf.ssa hx₁ c₁ (s₁.ways f b)
        fun t ht => ht
      refine ⟨s₂, c₁ || m, by simp [hx, hr, hfe, hm], hg₁.trans hg₂, fun hch _ => ?_⟩
      obtain ⟨rfl, rfl⟩ := Bool.or_eq_false_iff.mp hch
      obtain rfl := hg₁.same rfl
      obtain rfl := hg₂.same rfl
      exact ⟨hset rfl, hall⟩
    · rintro before v after ⟨s₁, c₁⟩ hsplit ⟨hg₁, hset⟩
      have hv : v ∈ (f.block b).values := by simp [hsplit]
      obtain ⟨s₂, c₂, hl, hg₂, hset₂⟩ := learn_spec hg₁.ok hf hb hv
      refine ⟨(s₂, c₁ || c₂), by simp [hl], hg₁.trans hg₂, fun hch x hx => ?_⟩
      obtain ⟨rfl, rfl⟩ := Bool.or_eq_false_iff.mp hch
      rcases List.mem_append.mp hx with hx | hx
      · exact hset rfl x hx
      · obtain rfl := List.mem_singleton.mp hx
        have := hset₂ rfl
        rwa [show s₁ = s from hg₁.same rfl] at this
  · exact ⟨s, false, by simp [hx], .refl h, fun _ hb => absurd hb hx⟩

/-- One round through the blocks. -/
def round (f : Func) (rpo : List BlockId) (s : Facts) : Outcome (Facts × Bool) :=
  rpo.foldlM (fun (x : Facts × Bool) b => x.1.visit f b >>= fun y => .ok (y.1, x.2 || y.2)) (s, false)

theorem close_succ {rpo : List BlockId} {fuel : Nat} : Facts.close f rpo (fuel + 1) s =
    s.round f rpo >>= fun x => if x.2 then Facts.close f rpo fuel x.1 else .ok x.1 := rfl

theorem round_spec {rpo : List BlockId} (h : s.Ok f) (hf : f.Fit) (hrpo : ∀ b ∈ rpo, b ∈ f.layout) :
    ∃ s' ch, s.round f rpo = .ok (s', ch) ∧ Grows f s s' ch ∧
      (ch = false → ∀ b ∈ rpo, s.StableAt f b) := by
  have hrun := Outcome.foldlM_keeps_done (l := rpo) (b := (s, false))
    (g := fun (x : Facts × Bool) b => x.1.visit f b >>= fun y => .ok (y.1, x.2 || y.2))
    (P := fun before x => Grows f s x.1 x.2 ∧ (x.2 = false → ∀ b ∈ before, s.StableAt f b))
    ?_ ⟨.refl h, fun _ b hb => by cases hb⟩
  · obtain ⟨⟨s₁, c₁⟩, hr, hg, hst⟩ := hrun
    exact ⟨s₁, c₁, hr, hg, hst⟩
  rintro before b after ⟨s₁, c₁⟩ hsplit ⟨hg₁, hst⟩
  obtain ⟨s₂, c₂, hl, hg₂, hst₂⟩ := visit_spec hg₁.ok hf (hrpo b (by simp [hsplit]))
  refine ⟨(s₂, c₁ || c₂), by simp [hl], hg₁.trans hg₂, fun hch x hx => ?_⟩
  obtain ⟨rfl, rfl⟩ := Bool.or_eq_false_iff.mp hch
  rcases List.mem_append.mp hx with hx | hx
  · exact hst rfl x hx
  · obtain rfl := List.mem_singleton.mp hx
    have := hst₂ rfl
    rwa [show s₁ = s from hg₁.same rfl] at this

theorem close_spec {rpo : List BlockId} {fuel : Nat} (h : s.Ok f) (ht : s.Traced f) (hf : f.Fit)
    (hrpo : ∀ b ∈ rpo, b ∈ f.layout) (hfuel : s.left f < fuel) :
    ∃ s', Facts.close f rpo fuel s = .ok s' ∧ s'.Ok f ∧ s'.Traced f ∧ Le s s' ∧
      ∀ b ∈ rpo, s'.StableAt f b := by
  induction fuel generalizing s with
  | zero => exact absurd hfuel (Nat.not_lt_zero _)
  | succ fuel ih =>
    obtain ⟨s₁, ch, hr, hg, hst⟩ := round_spec h hf hrpo
    rw [close_succ, hr, Outcome.ok_bind]
    cases ch with
    | true =>
      have hlt := hg.less rfl
      obtain ⟨s₂, hs₂, hok, htr, hle, hst₂⟩ := ih hg.ok (hg.traced ht) (by omega)
      exact ⟨s₂, hs₂, hok, htr, hg.le.trans hle, hst₂⟩
    | false =>
      obtain rfl := hg.same rfl
      exact ⟨s₁, rfl, h, ht, .refl _, hst rfl⟩

/-- What is known when nothing new is learnt. -/
structure Stable (f : Func) (s : Facts) : Prop where
  ok : s.Ok f
  start : f.start ∈ s.executable
  traced : s.Traced f
  settled : ∀ b ∈ s.executable, ∀ v ∈ (f.block b).values, s.Settled f v
  ways : ∀ b ∈ s.executable, ∀ t ∈ s.ways f b, t ∈ s.executable

/-- When nothing new is learnt, nothing can be. -/
theorem Stable.visit (h : s.Stable f) (hf : f.Ssa) (hb : b ∈ f.layout) :
    s.visit f b = .ok (s, false) := by
  rw [visit_eq]
  by_cases hx : b ∈ s.executable
  · have hvals : ∀ l : List ValueId, (∀ v ∈ l, s.Settled f v) →
        l.foldlM (fun (x : Facts × Bool) id =>
          x.1.learn f id >>= fun y => .ok (y.1, x.2 || y.2)) (s, false) = .ok (s, false) := by
      intro l hl
      induction l with
      | nil => rfl
      | cons v l ih =>
        rw [List.foldlM_cons, (hl v List.mem_cons_self).learn]
        exact ih fun w hw => hl w (List.mem_cons_of_mem _ hw)
    have hmarks : ∀ l : List BlockId, (∀ t ∈ l, t ∈ s.executable) →
        l.foldl mark (s, false) = (s, false) := by
      intro l hl
      induction l with
      | nil => rfl
      | cons t l ih =>
        rw [List.foldl_cons, mark, if_pos (by simpa using hl t List.mem_cons_self)]
        exact ih fun u hu => hl u (List.mem_cons_of_mem _ hu)
    rw [hvals _ (h.settled b hx), Outcome.ok_bind, (feasible_ok h.ok hf hb).1, Outcome.ok_bind,
      hmarks _ (h.ways b hx)]
    simp [hx]
  · simp [hx]

end Facts

theorem facts_eq : f.facts = f.entry >>= fun e => f.reversePostOrder >>= fun rpo =>
    Facts.close f rpo (2 * f.numValues + f.numBlocks + 1)
      { values := Array.replicate f.numValues .unknown, executable := [e] } := rfl

/-- Learning comes to an end. -/
theorem facts_spec (hf : f.Fit) : ∃ s, f.facts = .ok s ∧ s.Stable f := by
  obtain ⟨rpo, hrpo, hpost⟩ := hf.ssa.reversePostOrder
  have hmem : ∀ b ∈ rpo, b ∈ f.layout := fun b hb =>
    hf.ssa.flow.reached_mem ((hpost.mem_iff b).mp hb)
  let s : Facts := { values := Array.replicate f.numValues .unknown, executable := [f.start] }
  have hfact : ∀ v, s.fact v = .unknown := by
    intro v
    simp only [Facts.fact, s, Array.getD_eq_getD_getElem?, Array.getElem?_replicate]
    split <;> rfl
  have hok : s.Ok f := by
    refine ⟨by simp [s], fun v lanes hv => ?_, fun b hb => ?_, by simp [s]⟩
    · rw [hfact] at hv
      cases hv
    · obtain rfl : b = f.start := by simpa [s] using hb
      exact .refl _ _
  have htr : s.Traced f := by
    intro b hb
    obtain rfl : b = f.start := by simpa [s] using hb
    exact .refl _ _
  have hleft : s.left f < 2 * f.numValues + f.numBlocks + 1 := by
    simp only [Facts.left, s, Array.toList_replicate, List.map_replicate, List.sum_replicate_nat,
      Fact.rest, List.length_singleton]
    omega
  obtain ⟨s', hs', hok', htr', hle, hst⟩ := Facts.close_spec hok htr hf hmem hleft
  have hexec : ∀ b ∈ s'.executable, b ∈ rpo := fun b hb =>
    (hpost.mem_iff b).mpr (hok'.executable b hb)
  refine ⟨s', ?_, hok', hle.executable f.start (by simp [s]), htr',
    fun b hb => (hst b (hexec b hb) hb).1, fun b hb => (hst b (hexec b hb) hb).2⟩
  rw [facts_eq, hf.ssa.flow.entry_eq, Outcome.ok_bind, hrpo, Outcome.ok_bind]
  exact hs'

end SsaJit.Func

/-! ## Nothing unknown where control comes

Constant propagation leaves nothing unknown where control may come. Along the ways by which a block
was found executable all that its values read is passed before, so when nothing new is learnt each of
them is found constant or varying. -/

namespace SsaJit.Func

variable {f : Func} {b c d : BlockId} {u v a : ValueId} {o : Operand} {s : Facts} {p : List BlockId}

/-! ## Where operands stand -/

/-- Whatever is read, stores too, stands where control has come before. -/
structure Grounded (f : Func) : Prop where
  arg : ∀ b ∈ f.layout, ∀ v ∈ (f.block b).values, (f.value v).op ≠ .phi →
    ∀ a, .value a ∈ (f.value v).args → f.Reached b → f.Earlier a v b
  phi : ∀ b ∈ f.layout, ∀ v ∈ (f.block b).values, (f.value v).op = .phi →
    ∀ x ∈ (f.value v).args.zip (f.block b).preds, ∃ a d, x.1 = .value a ∧
      (f.value a).block = some d ∧ (f.Reached x.2 → f.Dominates d x.2)
  control : ∀ b ∈ f.layout, (f.block b).kind = .branch → ∃ a d, (f.block b).control = .value a ∧
    (f.value a).block = some d ∧ (f.Reached b → f.Dominates d b)

theorem Consistent.grounded (h : f.Consistent) : f.Grounded := by
  have hs := h.ssa
  obtain ⟨t, ht, hall⟩ := verify_nil.mp h.verified
  have hof : t.Of f f.start := by
    obtain ⟨t', ht', hof⟩ := hs.flow.domTree
    obtain rfl : t' = t := Except.ok.inj (ht'.symm.trans ht)
    exact hof
  refine ⟨fun b hb v hv hphi a ha hr => ?_, fun b hb v hv hphi x hx => ?_, fun b hb hk => ?_⟩
  · obtain ⟨i, hi⟩ := List.getElem?_of_mem hv
    have huses := (value_uses (values_nil.mp (block_nil.mp (hall b hb)).2.2.2 i v hi) hphi).1
    obtain ⟨a', ha', -, hearlier⟩ := (use_at_nil hs.flow hs.listing hof hi).mp (huses _ ha)
    obtain rfl : a = a' := by simpa using ha'
    exact hearlier hr
  · obtain ⟨i, hi⟩ := List.getElem?_of_mem hv
    have huses := (value_phi (values_nil.mp (block_nil.mp (hall b hb)).2.2.2 i v hi) hphi).2
    exact (use_end_nil hs.flow hs.listing hof).mp ((phi_uses huses).2 x hx).1
  · exact (use_end_nil hs.flow hs.listing hof).mp
      (terminator_use (block_nil.mp (hall b hb)).2.2.1 (.inl hk))

/-- A phi has an argument for every edge to its block. -/
theorem Ssa.phi_from (h : f.Ssa) (hc : c ∈ f.layout) (hb : b ∈ f.layout)
    (hv : v ∈ (f.block b).values) (hphi : (f.value v).op = .phi) (hnext : b ∈ f.next c) :
    ∃ o, (o, c) ∈ (f.value v).args.zip (f.block b).preds := by
  obtain ⟨j, hj⟩ := List.getElem?_of_mem ((h.flow.mem_preds_iff hc hb).mpr hnext)
  have hlt : j < (f.value v).args.length :=
    (h.phis b hb v hv hphi).1 ▸ (List.getElem?_eq_some_iff.mp hj).1
  exact ⟨(f.value v).args[j], List.mem_of_getElem? (i := j)
    (List.getElem?_zip_eq_some.mpr ⟨List.getElem?_eq_getElem hlt, hj⟩)⟩

/-! ## Nothing stays unknown -/

theorem Fact.eq_unknown_of_le {x : Fact} (h : Fact.Le x .unknown) : x = .unknown := by
  rcases h with h | h | h
  · exact h
  · exact h
  · cases h

namespace Facts

/-- If nothing is known of a value that is no phi, nothing is known of something it reads. -/
theorem eval_eq_unknown (h : s.Ok f) (hf : f.Ssa) (hb : b ∈ f.layout) (hv : v ∈ (f.block b).values)
    (hphi : (f.value v).op ≠ .phi) (he : s.eval f (f.value v) = .ok .unknown) :
    ∃ a, .value a ∈ (f.value v).args ∧ s.fact a = .unknown := by
  by_cases hconst : (f.value v).op = .const
  · rw [eval_const hconst] at he
    cases he
  by_cases hopen : opens (f.value v).op = true
  · rw [eval_open hopen] at he
    cases he
  rw [eval_pure h hf hb hv hphi hconst (by simpa using hopen)] at he
  split at he
  · cases he
  cases hg : gather ((f.value v).args.map s.operand) with
  | error fact =>
    rw [hg] at he
    obtain rfl : fact = .unknown := Except.ok.inj he
    obtain ⟨o, ho, hfact⟩ := List.mem_map.mp (gather_spec.2 _ hg).1
    have hparam : (f.value v).op ≠ .param := fun heq => hopen (by rw [heq]; rfl)
    obtain ⟨a, rfl⟩ := (hf.before hb hv hphi hparam ho).isValue
    exact ⟨a, ho, hfact⟩
  | ok args =>
    rw [hg] at he
    obtain ⟨r, -, he⟩ := Outcome.bind_eq_ok.mp he
    cases r <;> cases he

namespace Stable

theorem executable_of_trail (h : s.Stable f) (ht : Trail (s.out f) f.start b p) :
    b ∈ s.executable := by
  cases ht with
  | start => exact h.start
  | step hp hc =>
    unfold out at hc
    split at hc
    · next hx => exact h.ways _ (by simpa using hx) b hc
    · cases hc

theorem ways_next (h : s.Stable f) (hf : f.Ssa) (hb : b ∈ s.executable) (hc : c ∈ s.ways f b) :
    c ∈ f.next b :=
  (feasible_ok h.ok hf (hf.flow.reached_mem (h.ok.executable b hb))).2 c hc

theorem trail (h : s.Stable f) (hf : f.Ssa) (ht : Trail (s.out f) f.start b p) :
    Trail f.next f.start b p := by
  refine ht.mono fun x _ y hy => ?_
  unfold out at hy
  split at hy
  · next hx => exact h.ways_next hf (by simpa using hx) hy
  · cases hy

/-- What a value says of itself is unknown if all that is known of it is nothing. -/
theorem eval_of_unknown (h : s.Stable f) (hb : b ∈ s.executable) (hv : v ∈ (f.block b).values)
    (hfact : s.fact v = .unknown) : s.eval f (f.value v) = .ok .unknown := by
  obtain ⟨e, he, hle⟩ := h.settled b hb v hv
  rw [hfact] at hle
  rw [he, Fact.eq_unknown_of_le hle]

/-- A phi knows no less than each argument that control can bring. -/
theorem le_phi (h : s.Stable f) (hf : f.Ssa) (hb : b ∈ s.executable) (hv : v ∈ (f.block b).values)
    (hphi : (f.value v).op = .phi) {x : Operand × BlockId}
    (hx : x ∈ (f.value v).args.zip (f.block b).preds) (hc : x.2 ∈ s.executable)
    (hway : b ∈ s.ways f x.2) : Fact.Le (s.operand x.1) (s.fact v) := by
  have hin : s.operand x.1 ∈ s.incoming f b v :=
    List.mem_map.mpr ⟨x, List.mem_filter.mpr ⟨hx, by simp [taken, hc, hway]⟩, rfl⟩
  obtain ⟨e, he, hle⟩ := h.settled b hb v hv
  rw [eval_phi h.ok hf (hf.flow.reached_mem (h.ok.executable b hb)) hv hphi] at he
  obtain rfl := Except.ok.inj he
  exact (Fact.le_joinAll hin).trans hle

/-- If nothing is unknown that comes before a block, nothing in it but its phis can be. By induction on
the place in the block. -/
theorem known_in_block (h : s.Stable f) (hf : f.Ssa) (hground : f.Grounded) (hb : b ∈ s.executable)
    (hpassed : ∀ d, f.Dominates d b → d ≠ b → ∀ v ∈ (f.block d).values, s.fact v ≠ .unknown)
    (hphis : ∀ v ∈ (f.block b).values, (f.value v).op = .phi → s.fact v ≠ .unknown) :
    ∀ v ∈ (f.block b).values, s.fact v ≠ .unknown := by
  have hr := h.ok.executable b hb
  have hbl := hf.flow.reached_mem hr
  intro v hv
  induction hi : (f.block b).values.idxOf v using Nat.strongRecOn generalizing v with
  | _ i ih =>
    intro hfact
    have hphi : (f.value v).op ≠ .phi := fun hphi => hphis v hv hphi hfact
    obtain ⟨a, ha, hunknown⟩ := eval_eq_unknown h.ok hf hbl hv hphi (h.eval_of_unknown hb hv hfact)
    obtain ⟨d, hd, hor⟩ := hground.arg b hbl v hv hphi a ha hr
    rcases hor with ⟨rfl, hsub⟩ | ⟨hne, hdom⟩
    · obtain ⟨hin, -, hlt⟩ := (sublist_pair_iff (hf.listing.nodup d hbl)).mp hsub
      exact ih _ (hi ▸ hlt) a hin rfl hunknown
    · exact hpassed d hdom hne a ((hf.listing.listed a d).mp hd).2 hunknown

/-- No value of a block at the end of a way that control may take stays unknown. By induction on the
length of the way: dominators stand on it, and so does the block that the last edge comes from. -/
theorem known_of_trail (h : s.Stable f) (hf : f.Ssa) (hground : f.Grounded)
    (ht : Trail (s.out f) f.start b p) : ∀ v ∈ (f.block b).values, s.fact v ≠ .unknown := by
  induction hn : p.length using Nat.strongRecOn generalizing b p with
  | _ n ih =>
    have hb := h.executable_of_trail ht
    refine h.known_in_block hf hground hb (fun d hd hne => ?_) fun v hv hphi hfact => ?_
    · obtain ⟨q, hq, -, hlt⟩ := ht.cut_length_lt (hd p (h.trail hf ht)) hne
      exact ih q.length (hn ▸ hlt) hq rfl
    · cases ht with
      | start => exact hf.entry_phis v hv hphi
      | @step c _ p hp hc =>
        have hcx := h.executable_of_trail hp
        unfold out at hc
        rw [if_pos (by simpa using hcx)] at hc
        have hr := h.ok.executable c hcx
        obtain ⟨o, ho⟩ := hf.phi_from (hf.flow.reached_mem hr)
          (hf.flow.reached_mem (h.ok.executable b hb)) hv hphi (h.ways_next hf hcx hc)
        obtain ⟨a, d, rfl, hd, hdom⟩ := hground.phi b
          (hf.flow.reached_mem (h.ok.executable b hb)) v hv hphi _ ho
        have hle := h.le_phi hf hb hv hphi ho hcx hc
        rw [hfact] at hle
        obtain ⟨q, hq, hsuffix⟩ := hp.cut (hdom hr p (h.trail hf hp))
        exact ih q.length (hn ▸ Nat.lt_succ_of_le hsuffix.length_le) hq rfl a
          ((hf.listing.listed a d).mp hd).2 (Fact.eq_unknown_of_le hle)

/-- No value of an executable block stays unknown. -/
theorem known (h : s.Stable f) (hf : f.Ssa) (hground : f.Grounded) (hb : b ∈ s.executable) :
    ∀ v ∈ (f.block b).values, s.fact v ≠ .unknown := by
  obtain ⟨p, hp⟩ := h.traced b hb
  exact h.known_of_trail hf hground hp

/-- Nothing that can be read at the end of an executable block stays unknown. -/
theorem known_at_end (h : s.Stable f) (hf : f.Ssa) (hground : f.Grounded) (hb : b ∈ s.executable)
    (ha : (f.value a).block = some d) (hdom : f.Dominates d b) : s.fact a ≠ .unknown := by
  obtain ⟨p, hp⟩ := h.traced b hb
  obtain ⟨q, hq, -⟩ := hp.cut (hdom p (h.trail hf hp))
  exact h.known_of_trail hf hground hq a ((hf.listing.listed a d).mp ha).2

end Stable
end Facts
end SsaJit.Func
