import SsaJit.Proofs.Build.Steps
import SsaJit.Proofs.Exec.Regions

/-! Instructions that are built one after the other in a block, and what running them computes. The
builder adds them to a function that goes on growing, so that what they compute is said of every later
stage of it. -/

namespace SsaJit.Build

open Func BuildM

variable {α β : Type} {s : Session} {f g h F : Func} {b : BlockId} {v w : ValueId} {x : Value}
  {st st' : regionInterp.State} {r : UInt64} {n m k : Nat}

/-- The block has grown at its end. -/
structure Grown (b : BlockId) (f g : Func) : Prop where
  site : Site g b
  later : Later b f g
  numBlocks : g.numBlocks = f.numBlocks
  body : g.body b = f.body b ++ List.range' f.numValues (g.numValues - f.numValues)

namespace Grown

theorem refl (hf : Site f b) : Grown b f f := ⟨hf, .refl b f, rfl, by simp⟩

theorem trans (h₁ : Grown b f g) (h₂ : Grown b g h) : Grown b f h where
  site := h₂.site
  later := h₁.later.trans h₂.later (.inl rfl)
  numBlocks := h₂.numBlocks.trans h₁.numBlocks
  body := by
    have hfg := h₁.later.grows.numValues
    have hgh := h₂.later.grows.numValues
    rw [h₂.body, h₁.body, List.append_assoc]
    obtain ⟨i, hi⟩ := Nat.exists_eq_add_of_le hfg
    obtain ⟨j, hj⟩ := Nat.exists_eq_add_of_le hgh
    rw [hj, hi, Nat.add_sub_cancel_left, Nat.add_sub_cancel_left, Nat.add_assoc,
      Nat.add_sub_cancel_left, ← List.range'_append_1]

theorem appended (hf : Site f b) (hx : f.Fresh b x) : Grown b f (f.appended b x) where
  site := by
    refine ⟨hf.draft.appended hf.lt hx, by simpa using hf.lt, ?_⟩
    rw [block_appended hf.lt, if_pos rfl]
    exact hf.pending
  later := (Later.refl b f).appended hf.draft (.inl rfl) hf.lt hx.head hf.pending
  numBlocks := by simp
  body := by
    rw [body_appended hf.draft hf.lt hx.head, if_pos rfl]
    simp

end Grown

/-- Only the values with numbers from `n` to `m` were given, and the memory is the same. -/
structure Keeps (n m : Nat) (st st' : regionInterp.State) : Prop where
  le : n ≤ m
  mem : st'.mem = st.mem
  others : ∀ u : ValueId, u < n ∨ m ≤ u → st'.env u = st.env u

namespace Keeps

variable {st'' : regionInterp.State}

theorem refl (n : Nat) (st : regionInterp.State) : Keeps n n st st :=
  ⟨Nat.le_refl n, rfl, fun _ _ => rfl⟩

theorem env (h : Keeps n m st st') (u : ValueId) (hu : u < n) : st'.env u = st.env u :=
  h.others u (.inl hu)

theorem trans (h₁ : Keeps n m st st') (h₂ : Keeps m k st' st'') : Keeps n k st st'' :=
  ⟨h₁.le.trans h₂.le, h₂.mem.trans h₁.mem, fun u hu =>
    (h₂.others u (hu.imp_left (Nat.lt_of_lt_of_le · h₁.le))).trans
      (h₁.others u (hu.imp_right (Nat.le_trans h₂.le)))⟩

end Keeps

/-- Running the values with numbers from `n` to `m` gives them and leaves `r` in `v`. -/
def Reckons (F : Func) (n m : Nat) (st : regionInterp.State) (v : ValueId) (r : UInt64) : Prop :=
  ∃ st', (List.range' n (m - n)).foldlM F.exec st = .ok st' ∧ Keeps n m st st' ∧
    st'.env v = .lanes [r]

/-- A value of one lane that can be read next in `b`. -/
structure Offered (f : Func) (b : BlockId) (v : ValueId) (k : Kind) : Prop where
  usable : f.Usable b v
  type : (f.value v).type = .scalar k

namespace Offered

theorem lt {k : Kind} (hv : Offered f b v k) (hf : f.Draft) : v < f.numValues :=
  Widens.usable_lt hf hv.usable

theorem grow {k : Kind} (hv : Offered f b v k) (hf : f.Draft) (hg : Grown b f g) :
    Offered g b v k :=
  ⟨hg.later.grows.usable hf hg.site.draft hv.usable,
    by rw [hg.later.grows.value v (hv.lt hf), hv.type]⟩

end Offered

/-- The action builds, at the end of `b`, a value `v` of kind `k`, and running what it builds computes
`r` wherever `P` says so. -/
structure Computes (s : Session) (f : Func) (b : BlockId) (act : BuildM α) (res : ValueId → α)
    (k : Kind) (g : Func) (v : ValueId) (P : regionInterp.State → UInt64 → Prop) : Prop where
  gives : act.Gives (s.on f b) (res v) (s.on g b)
  grown : Grown b f g
  offered : Offered g b v k
  runs : ∀ F, GrowsTo g F → ∀ st r, P st r → Reckons F f.numValues g.numValues st v r

theorem Reckons.trans (hnm : n ≤ m) (hmk : m ≤ k) (h₁ : Reckons F n m st v r)
    {w : ValueId} {q : UInt64}
    (h₂ : ∀ st', Keeps n m st st' → st'.env v = .lanes [r] → Reckons F m k st' w q) :
    Reckons F n k st w q := by
  obtain ⟨st₁, hrun₁, hkeep₁, hval₁⟩ := h₁
  obtain ⟨st₂, hrun₂, hkeep₂, hval₂⟩ := h₂ st₁ hkeep₁ hval₁
  refine ⟨st₂, ?_, hkeep₁.trans hkeep₂, hval₂⟩
  have hsplit : List.range' n (k - n) = List.range' n (m - n) ++ List.range' m (k - m) := by
    obtain ⟨i, rfl⟩ := Nat.exists_eq_add_of_le hnm
    obtain ⟨j, rfl⟩ := Nat.exists_eq_add_of_le hmk
    rw [Nat.add_sub_cancel_left, Nat.add_sub_cancel_left, Nat.add_assoc, Nat.add_sub_cancel_left,
      ← List.range'_append_1]
  rw [hsplit, List.foldlM_append, hrun₁]
  exact hrun₂

namespace Computes

variable {act : BuildM α} {res : ValueId → α} {k j : Kind}
  {P Q : regionInterp.State → UInt64 → Prop}

theorem numValues_le (h : Computes s f b act res k g v P) : f.numValues ≤ g.numValues :=
  h.grown.later.grows.numValues

theorem weaken (h : Computes s f b act res k g v P) (hPQ : ∀ st r, Q st r → P st r) :
    Computes s f b act res k g v Q :=
  ⟨h.gives, h.grown, h.offered, fun F hF st r hQ => h.runs F hF st r (hPQ st r hQ)⟩

/-- One after the other: what the first computes is there for the second. -/
theorem andThen {k' : Kind} {g' : Func} {w : ValueId} {m : α → BuildM β} {res' : ValueId → β}
    (h₁ : Computes s f b act res k g v P)
    (h₂ : Computes s g b (m (res v)) res' k' g' w Q) :
    Computes s f b (act >>= m) res' k' g' w fun st r => ∃ q, P st q ∧ ∀ st',
      Keeps f.numValues g.numValues st st' → st'.env v = .lanes [q] → Q st' r where
  gives := h₁.gives.bind h₂.gives
  grown := h₁.grown.trans h₂.grown
  offered := h₂.offered
  runs F hF st r := fun ⟨q, hq, hnext⟩ =>
    (h₁.runs F (h₂.grown.later.grows.trans hF) st q hq).trans h₁.numValues_le h₂.numValues_le
      fun st' hkeep hval => h₂.runs F hF st' r (hnext st' hkeep hval)

/-- A step before it that only looks something up. -/
theorem after {γ : Type} {o : BuildM γ} {a : γ} {m : γ → BuildM α}
    (ho : o.Gives (s.on f b) a (s.on f b)) (h : Computes s f b (m a) res k g v P) :
    Computes s f b (o >>= m) res k g v P :=
  ⟨ho.bind h.gives, h.grown, h.offered, h.runs⟩

/-- The value as a handle. -/
theorem into {act : BuildM Operand} {t : SType} (h : Computes s f b act .value k g v P)
    (ht : t.ty = .scalar k) : Computes s f b (into s.id t act) (own s t) k g v P :=
  ⟨gives_into (s := s.on f b) h.gives (h.offered.type.trans ht.symm), h.grown, h.offered, h.runs⟩

end Computes

/-- A value that is there already. -/
theorem computes_there {k : Kind} {act : BuildM α} {res : ValueId → α}
    {a : ValueId} (hf : Site f b) (hact : act.Gives (s.on f b) (res a) (s.on f b))
    (ha : Offered f b a k) :
    Computes s f b act res k f a fun st r => st.env a = .lanes [r] where
  gives := hact
  grown := .refl hf
  offered := ha
  runs F _ st r hr := ⟨st, by rw [Nat.sub_self]; rfl, .refl _ _, hr⟩

/-! ## One instruction -/

theorem offered_appended (hf : Site f b) (hop : x.op ≠ .store) {k : Kind}
    (hk : x.type = .scalar k) : Offered (f.appended b x) b f.numValues k := by
  have hval : (f.appended b x).value f.numValues = { x with block := some b } := by
    rw [value_appended, if_pos rfl]
  refine ⟨⟨by rw [hval]; exact hop, .inr ?_⟩, by rw [hval]; exact hk⟩
  rw [block_appended hf.lt, if_pos rfl]
  simp

/-- What running the new instruction does, in whatever the function grows to. -/
theorem exec_appended {I : Interp} {st : I.State} (hf : Site f b) (hx : f.Fresh b x)
    (hF : GrowsTo (f.appended b x) F) : F.exec st f.numValues =
      Interp.perform f.numValues x.bare (x.args.map f.operandType) (x.args.map st.get) st := by
  have hval : F.value f.numValues = { x with block := some b } := by
    rw [hF.value _ (by simp), value_appended, if_pos rfl]
  have hreads : ({ x with block := some b } : Value).reads = x.args := by
    rw [Value.reads, if_neg hx.head.1]
  have htypes : x.args.map F.operandType = x.args.map f.operandType := by
    refine List.map_congr_left fun o ho => ?_
    obtain ⟨a, rfl, ha⟩ := hx.args o ho
    have hlt := Widens.usable_lt hf.draft ha
    rw [operandType, operandType, hF.value a (by simpa using Nat.lt_succ_of_lt hlt),
      value_appended_of_lt hlt]
  rw [Func.exec, hval, if_neg hx.phi, hreads, htypes]
  rfl

theorem reckons_one {o : Op} (ho : o ≠ .store)
    (h : F.exec st n = .ok (st.assign n o (.lanes [r], st.mem))) :
    Reckons F n (n + 1) st n r := by
  refine ⟨st.assign n o (.lanes [r], st.mem), ?_, ⟨Nat.le_succ n, rfl, fun u hu => ?_⟩, ?_⟩
  · rw [Nat.add_sub_cancel_left]
    change (F.exec st n >>= fun st' => pure st') = _
    rw [h]
    rfl
  · have hne : u ≠ n := hu.elim Nat.ne_of_lt Nat.ne_of_gt
    simp [Interp.State.assign, ho, Function.update_of_ne hne]
  · simp [Interp.State.assign, ho]

/-- An instruction that computes. -/
theorem computes_emit (hs : s.closed = false) (hf : Site f b) (hx : f.Fresh b x)
    (hop : x.op ≠ .store) (hconst : x.op ≠ .const) {k : Kind} (hk : x.type = .scalar k) :
    Computes s f b (emit x) .value k (f.appended b x) f.numValues fun st r =>
      st.mem.exec? f.numValues x.bare (x.args.map f.operandType) (x.args.map st.get) =
        some (.lanes [r], st.mem) where
  gives := gives_emit hs hf.pending
  grown := .appended hf hx
  offered := offered_appended hf hop hk
  runs F hF st r hr := by
    rw [numValues_appended]
    refine reckons_one hop ?_
    rw [exec_appended hf hx hF]
    exact Regions.perform_some hconst hr

/-- An instruction that folding has a say on. -/
theorem computes_pure (hs : s.closed = false) (hf : Site f b) (hx : f.Fresh b x)
    (hpure : x.isPure = true) (hint : x.op ≠ .intrinsic) (hconst : x.op ≠ .const) {k : Kind}
    (hk : x.type = .scalar k) :
    Computes s f b (emit x) .value k (f.appended b x) f.numValues fun st r =>
      ∃ ls : List (List UInt64), x.args.map st.get = ls.map .lanes ∧
        (operationOf x.bare (x.args.map f.operandType)).fold ls = .ok (some [r]) := by
  have hstore : x.op ≠ .store := fun h => by simp [Value.isPure, h] at hpure
  refine (computes_emit hs hf hx hstore hconst hk).weaken fun st r hst => ?_
  obtain ⟨ls, hls, hfold⟩ := hst
  rw [hls, Regions.exec?_fold (y := x.bare) hx.head.1 hx.head.2,
    Value.fold?_of_fold (y := x.bare) hpure hint hfold]
  rfl

section instructions

variable {k j : Kind} {a c d : ValueId}

theorem usable_two (ha : f.Usable b a) (hc : f.Usable b c) :
    ∀ o ∈ [Operand.value a, .value c], ∃ w, o = .value w ∧ f.Usable b w := by
  simp only [List.mem_cons, List.not_mem_nil, or_false]
  rintro o (rfl | rfl)
  · exact ⟨a, rfl, ha⟩
  · exact ⟨c, rfl, hc⟩

/-- The instruction of a comparison. -/
def comparison (p : Predicate) (a c : ValueId) : Value :=
  { op := .icmp, type := .i1, args := [.value a, .value c], aux := Int64.ofNat p.code.toNat }

/-- A comparison of integers that is read back as it was written. -/
structure Comparing (p : Predicate) : Prop where
  isFloat : p.isFloat = false
  code : Predicate.ofCode p.code = p

theorem computes_cast {op : Op} (hs : s.closed = false) (hf : Site f b)
    (hop : op ∈ [Op.trunc, .zext, .sext]) (ha : Offered f b a j)
    (hrule : castRule? op (.scalar j) (.scalar k) = none) :
    ∃ g v, Computes s f b (cast op (.value a) (.scalar k)) .value k g v
      fun st r => ∃ p, st.env a = .lanes [p] ∧ evalCast op j k p = some r := by
  have hcast : op.isBinary = false ∧ op.isCast = true ∧ op ≠ .phi ∧ op ≠ .param ∧ op ≠ .alloca ∧
      op ≠ .intrinsic ∧ op ≠ .const := by
    simp only [List.mem_cons, List.not_mem_nil, or_false] at hop
    rcases hop with rfl | rfl | rfl <;> decide
  obtain ⟨hbin, hcast, hphi, hparam, halloca, hint, hconst⟩ := hcast
  have hx : f.Fresh b { op, type := .scalar k, args := [.value a] } := by
    refine ⟨hphi, ⟨hparam, halloca⟩, ?_, ?_⟩
    · simp only [List.mem_cons, List.not_mem_nil, or_false]
      rintro o rfl
      exact ⟨a, rfl, ha.usable⟩
    · simp [WellTyped, operandType, ha.type, hbin, hcast, hrule]
  have hpure : Value.isPure { op, type := .scalar k, args := [.value a] } = true := by
    simp only [List.mem_cons, List.not_mem_nil, or_false] at hop
    rcases hop with rfl | rfl | rfl <;> rfl
  have hemit := computes_pure hs hf hx hpure hint hconst rfl
  refine ⟨_, _, hemit.gives, hemit.grown, hemit.offered,
    fun F hF st r hst => ?_⟩
  obtain ⟨p, hp, hr⟩ := hst
  refine hemit.runs F hF st r ⟨[[p]], ?_, ?_⟩
  · simp [Interp.State.get, Interp.read, hp]
  · have hops : [Operand.value a].map f.operandType = [.scalar j] := by simp [operandType, ha.type]
    rw [hops]
    exact Operation.fold_cast_scalar (o := operationOf _ _) hop rfl rfl hr

end instructions

end SsaJit.Build
