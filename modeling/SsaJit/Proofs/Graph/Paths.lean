import SsaJit.Graph.Basic

/-! Trails through a graph that is given by its successors, and dominance in its classical form: a
block dominates another if no trail from the start reaches the second without passing the first.
Nothing here knows how dominators are computed; the algorithm is measured against these notions. -/

namespace SsaJit

/-- The blocks `p`, last one first, lead from `e` to `b`. -/
inductive Trail (next : BlockId → List BlockId) (e : BlockId) : BlockId → List BlockId → Prop
  | start : Trail next e e [e]
  | step {b c : BlockId} {p : List BlockId} :
      Trail next e b p → c ∈ next b → Trail next e c (c :: p)

/-- Some trail leads to the block. -/
def Reach (next : BlockId → List BlockId) (e b : BlockId) : Prop := ∃ p, Trail next e b p

/-- Every trail to `b` passes `d`. -/
def Dom (next : BlockId → List BlockId) (e d b : BlockId) : Prop := ∀ p, Trail next e b p → d ∈ p

namespace Func

/-- Where control can go from a block. -/
def next (f : Func) (b : BlockId) : List BlockId := (f.block b).succs

/-- The entry block; zero in a function without blocks. -/
def start (f : Func) : BlockId := f.layout.headD 0

end Func

variable {next next' : BlockId → List BlockId} {e a b c d : BlockId} {p : List BlockId}

namespace Trail

theorem self_mem (h : Trail next e b p) : b ∈ p := by
  cases h <;> simp

theorem start_mem (h : Trail next e b p) : e ∈ p := by
  induction h with
  | start => simp
  | step _ _ ih => exact List.mem_cons_of_mem _ ih

theorem head?_eq (h : Trail next e b p) : p.head? = some b := by
  cases h <;> rfl

/-- A trail can be cut at any block it passes. -/
theorem cut (h : Trail next e b p) (hd : d ∈ p) : ∃ q, Trail next e d q ∧ q <:+ p := by
  induction h with
  | start =>
    obtain rfl : d = e := by simpa using hd
    exact ⟨[d], .start, List.suffix_refl _⟩
  | @step b c p h hc ih =>
    rcases List.mem_cons.mp hd with rfl | hd
    · exact ⟨d :: p, .step h hc, List.suffix_refl _⟩
    · obtain ⟨q, hq, hs⟩ := ih hd
      exact ⟨q, hq, hs.trans (List.suffix_cons _ _)⟩

theorem cut_length_lt (h : Trail next e b p) (hd : d ∈ p) (hne : d ≠ b) :
    ∃ q, Trail next e d q ∧ q <:+ p ∧ q.length < p.length := by
  obtain ⟨q, hq, hs⟩ := h.cut hd
  refine ⟨q, hq, hs, Nat.lt_of_le_of_ne hs.length_le fun heq => hne ?_⟩
  obtain rfl := hs.eq_of_length heq
  simpa using hq.head?_eq.symm.trans h.head?_eq

theorem mono (h : Trail next e b p) (hsub : ∀ x ∈ p, ∀ y ∈ next x, y ∈ next' x) :
    Trail next' e b p := by
  induction h with
  | start => exact .start
  | step h hc ih =>
    exact .step (ih fun x hx => hsub x (List.mem_cons_of_mem _ hx))
      (hsub _ (List.mem_cons_of_mem _ h.self_mem) _ hc)

/-- A trail can begin one block earlier. -/
theorem prepend (h : Trail next c b p) (hc : c ∈ next a) : Trail next a b (p ++ [a]) := by
  induction h with
  | start => exact .step .start hc
  | step _ hd ih => exact .step ih hd

/-- A trail can go on along another. -/
theorem concat {q : List BlockId} (h : Trail next e c q) (hp : Trail next c b p) :
    ∃ r, Trail next e b r ∧ ∀ x ∈ r, x ∈ p ∨ x ∈ q := by
  induction hp with
  | start => exact ⟨q, h, fun x hx => .inr hx⟩
  | @step b d p _ hd ih =>
    obtain ⟨r, hr, hmem⟩ := ih
    refine ⟨d :: r, hr.step hd, fun x hx => ?_⟩
    rcases List.mem_cons.mp hx with rfl | hx
    · exact .inl List.mem_cons_self
    · exact (hmem x hx).imp (List.mem_cons_of_mem _) id

end Trail

namespace Reach

theorem refl (next : BlockId → List BlockId) (e : BlockId) : Reach next e e := ⟨_, .start⟩

theorem step (h : Reach next e b) (hc : c ∈ next b) : Reach next e c :=
  let ⟨_, hp⟩ := h
  ⟨_, hp.step hc⟩

theorem of_mem (h : Trail next e b p) (hd : d ∈ p) : Reach next e d :=
  let ⟨q, hq, _⟩ := h.cut hd
  ⟨q, hq⟩

/-- What holds at the start and along every edge from a reachable block holds of all of them. -/
theorem induct {P : BlockId → Prop} (start : P e)
    (step : ∀ b c, Reach next e b → P b → c ∈ next b → P c) (h : Reach next e b) : P b := by
  obtain ⟨p, hp⟩ := h
  induction hp with
  | start => exact start
  | step hp hc ih => exact step _ _ ⟨_, hp⟩ ih hc

theorem mono (hsub : ∀ x, Reach next e x → ∀ y ∈ next x, y ∈ next' x) (h : Reach next e b) :
    Reach next' e b := by
  obtain ⟨p, hp⟩ := h
  exact ⟨p, hp.mono fun x hx => hsub x (of_mem hp hx)⟩

/-- A reachable block other than the start has a reachable predecessor. -/
theorem exists_pred (h : Reach next e b) (hb : b ≠ e) : ∃ a, Reach next e a ∧ b ∈ next a := by
  obtain ⟨p, hp⟩ := h
  cases hp with
  | start => exact absurd rfl hb
  | step hp hc => exact ⟨_, ⟨_, hp⟩, hc⟩

end Reach

namespace Dom

theorem refl (next : BlockId → List BlockId) (e b : BlockId) : Dom next e b b :=
  fun _ h => h.self_mem

theorem start (next : BlockId → List BlockId) (e b : BlockId) : Dom next e e b :=
  fun _ h => h.start_mem

theorem trans (hab : Dom next e a b) (hbc : Dom next e b c) : Dom next e a c := by
  intro p hp
  obtain ⟨q, hq, hs⟩ := hp.cut (hbc p hp)
  exact hs.subset (hab q hq)

theorem reach (h : Dom next e d b) (hb : Reach next e b) : Reach next e d := by
  obtain ⟨p, hp⟩ := hb
  exact .of_mem hp (h p hp)

theorem antisymm (hb : Reach next e b) (hdb : Dom next e d b) (hbd : Dom next e b d) :
    d = b := by
  obtain ⟨p, hp⟩ := hb
  -- a trail to `b` would hold a shorter one to `d`, and that a shorter one to `b`
  induction hn : p.length using Nat.strongRecOn generalizing p with
  | _ n ih =>
    by_cases hne : d = b
    · exact hne
    · obtain ⟨q, hq, _, hlt⟩ := hp.cut_length_lt (hdb p hp) hne
      obtain ⟨r, hr, _, hlt'⟩ := hq.cut_length_lt (hbd q hq) (Ne.symm hne)
      exact ih r.length (by omega) r hr rfl

theorem eq_start (h : Dom next e d e) : d = e := by
  simpa using h [e] .start

/-- Dominance goes back along an edge, except from the dominator itself. -/
theorem of_edge (h : Dom next e d c) (hc : c ∈ next b) (hne : d ≠ c) : Dom next e d b := by
  intro p hp
  exact (List.mem_cons.mp (h _ (hp.step hc))).resolve_left hne

theorem of_preds (hne : c ≠ e) (h : ∀ b, Reach next e b → c ∈ next b → Dom next e d b) :
    Dom next e d c := by
  intro p hp
  cases hp with
  | start => exact absurd rfl hne
  | step hp hc => exact List.mem_cons_of_mem _ (h _ ⟨_, hp⟩ hc _ hp)

/-- Taking edges away keeps dominance. -/
theorem mono (hsub : ∀ x, Reach next' e x → ∀ y ∈ next' x, y ∈ next x)
    (h : Dom next e d b) : Dom next' e d b := by
  intro p hp
  exact h p (hp.mono fun x hx => hsub x (.of_mem hp hx))

theorem congr (hsub : ∀ x, Reach next e x → next' x = next x) :
    Dom next' e d b ↔ Dom next e d b := by
  have hreach : ∀ x, Reach next' e x → Reach next e x := fun x hx => by
    refine hx.induct (.refl _ _) fun y z _ hy hz => hy.step ?_
    rwa [hsub y hy] at hz
  constructor
  · exact mono fun x hx y hy => by rwa [hsub x hx]
  · exact mono fun x hx y hy => by rwa [hsub x (hreach x hx)] at hy

end Dom

theorem Reach.congr (hsub : ∀ x, Reach next e x → next' x = next x) :
    Reach next' e b ↔ Reach next e b := by
  constructor
  · intro h
    refine h.induct (.refl _ _) fun y z _ hy hz => hy.step ?_
    rwa [hsub y hy] at hz
  · exact Reach.mono fun x hx y hy => by rwa [hsub x hx]

end SsaJit
