import SsaJit.Proofs.Exec.Semantics

/-! When two functions run alike: a relation between points of their runs that both keep, each taking
one step or more at a time. Most edits are followed block by block; there the instructions that the
edited block has for each instruction of the original do the same as that one. -/

namespace SsaJit.Func

variable {I : Interp} {f g : Func} {p q : BlockId × I.State} {e : I.Halt}

/-! ## Results that agree -/

theorem bind_eq_ok {ε α β : Type} {x : Except ε α} {k : α → Except ε β} {b : β} :
    (x >>= k) = .ok b ↔ ∃ a, x = .ok a ∧ k a = .ok b := by
  cases x with
  | error e => exact ⟨fun h => (nomatch h), fun ⟨_, h, _⟩ => (nomatch h)⟩
  | ok a => exact ⟨fun h => ⟨a, rfl, h⟩, fun ⟨_, h, hk⟩ => by obtain rfl := Except.ok.inj h; exact hk⟩

/-- Both end in the same way, or both go on from related results. -/
inductive Agree {ε α β : Type} (R : α → β → Prop) : Except ε α → Except ε β → Prop
  | go {a : α} {b : β} (h : R a b) : Agree R (.ok a) (.ok b)
  | stop (e : ε) : Agree R (.error e) (.error e)

namespace Agree

variable {ε α β γ δ : Type} {R S : α → β → Prop} {T : γ → δ → Prop} {x : Except ε α}
  {y : Except ε β}

theorem imp (h : Agree R x y) (hRS : ∀ a b, R a b → S a b) : Agree S x y := by
  cases h with
  | go h => exact .go (hRS _ _ h)
  | stop e => exact .stop e

theorem bind {k : α → Except ε γ} {l : β → Except ε δ} (h : Agree R x y)
    (hkl : ∀ a b, x = .ok a → y = .ok b → R a b → Agree T (k a) (l b)) :
    Agree T (x >>= k) (y >>= l) := by
  cases h with
  | go h => exact hkl _ _ rfl rfl h
  | stop e => exact .stop e

theorem trans {z : Except ε γ} {S : β → γ → Prop} {U : α → γ → Prop} (h₁ : Agree R x y)
    (h₂ : Agree S y z) (hU : ∀ a b c, R a b → S b c → U a c) : Agree U x z := by
  cases h₁ with
  | stop e =>
    cases h₂
    exact .stop e
  | go hab =>
    cases h₂ with
    | go hbc => exact .go (hU _ _ _ hab hbc)

theorem of_left {a : α} (h : Agree R x y) (hx : x = .ok a) : ∃ b, y = .ok b ∧ R a b := by
  subst hx
  cases h with
  | go h => exact ⟨_, rfl, h⟩

theorem of_right {b : β} (h : Agree R x y) (hy : y = .ok b) : ∃ a, x = .ok a ∧ R a b := by
  subst hy
  cases h with
  | go h => exact ⟨_, rfl, h⟩

theorem error_iff {e : ε} (h : Agree R x y) : x = .error e ↔ y = .error e := by
  cases h with
  | go h => simp
  | stop e' => simp

/-- What each result is like can be added to the relation. -/
theorem with_left {P : α → Prop} (h : Agree R x y) (hP : ∀ a, x = .ok a → P a) :
    Agree (fun a b => R a b ∧ P a) x y := by
  cases h with
  | go h => exact .go ⟨h, hP _ rfl⟩
  | stop e => exact .stop e

theorem with_right {P : β → Prop} (h : Agree R x y) (hP : ∀ b, y = .ok b → P b) :
    Agree (fun a b => R a b ∧ P b) x y := by
  cases h with
  | go h => exact .go ⟨h, hP _ rfl⟩
  | stop e => exact .stop e

end Agree

/-- Bodies agree if the instructions that stand for each instruction agree with it. -/
theorem agree_body {Q : List ValueId → I.State → I.State → Prop} {h : ValueId → List ValueId}
    {l : List ValueId} {s t : I.State}
    (hstep : ∀ pre u post s t, l = pre ++ u :: post → Q pre s t →
      Agree (Q (pre ++ [u])) (f.exec s u) ((h u).foldlM g.exec t)) (hs : Q [] s t) :
    Agree (Q l) (l.foldlM f.exec s) ((l.flatMap h).foldlM g.exec t) := by
  suffices ∀ pre rest s t, l = pre ++ rest → Q pre s t →
      Agree (Q l) (rest.foldlM f.exec s) ((rest.flatMap h).foldlM g.exec t) from
    this [] l s t rfl hs
  intro pre rest
  induction rest generalizing pre with
  | nil =>
    intro s t hl hQ
    rw [List.append_nil] at hl
    exact .go (hl ▸ hQ)
  | cons u rest ih =>
    intro s t hl hQ
    rw [List.foldlM_cons, List.flatMap_cons, List.foldlM_append]
    refine (hstep pre u rest s t hl hQ).bind fun s' t' _ _ hQ' => ?_
    exact ih (pre ++ [u]) s' t' (by rw [hl, List.append_assoc]; rfl) hQ'

/-! ## Points of two runs -/

/-- A relation between points of the runs of two functions that both keep: they end in the same way,
or come to related points by at least one step each. -/
structure Tracks (f g : Func) (R : BlockId × I.State → BlockId × I.State → Prop) : Prop where
  mem : ∀ p q, R p q → p.2.mem = q.2.mem
  next : ∀ p q, R p q → (∃ e, f.Ends p e ∧ g.Ends q e) ∨ ∃ m n p' q', f.run (m + 1) p = .ok p' ∧
    g.run (n + 1) q = .ok q' ∧ R p' q'

namespace Tracks

variable {R : BlockId × I.State → BlockId × I.State → Prop}

theorem symm (h : Tracks f g R) : Tracks g f (fun q p => R p q) where
  mem q p hR := (h.mem p q hR).symm
  next q p hR := by
    rcases h.next p q hR with ⟨e, hf, hg⟩ | ⟨m, n, p', q', hf, hg, hR'⟩
    · exact .inl ⟨e, hg, hf⟩
    · exact .inr ⟨n, m, q', p', hg, hf, hR'⟩

theorem ends (h : Tracks f g R) (hR : R p q) (he : f.Ends p e) : g.Ends q e := by
  obtain ⟨k, hk⟩ := he
  induction k using Nat.strongRecOn generalizing p q with
  | _ k ih =>
    rcases h.next p q hR with ⟨e', hf, hg⟩ | ⟨m, n, p', q', hf, hg, hR'⟩
    · obtain rfl := Ends.unique ⟨k, hk⟩ hf
      exact hg
    · have hmk : m + 1 ≤ k := by
        refine Nat.le_of_not_lt fun hlt => ?_
        have := run_error_add (n := m + 1 - k) hk
        rw [Nat.add_sub_cancel' (Nat.le_of_lt hlt), hf] at this
        cases this
      rw [← Nat.add_sub_cancel' hmk, run_add hf] at hk
      exact Comes.ends ⟨n + 1, hg⟩ (ih (k - (m + 1)) (by omega) hR' hk)

theorem shows {P : I.Mem → Prop} (h : Tracks f g R) (hP : I.Kept P) (hR : R p q)
    (hs : f.Shows p P) : g.Shows q P := by
  rcases hs with ⟨x, ⟨k, hk⟩, hx⟩ | ⟨e, he, hPe⟩
  · induction k using Nat.strongRecOn generalizing p q with
    | _ k ih =>
      rcases h.next p q hR with ⟨e, hf, hg⟩ | ⟨m, n, p', q', hf, hg, hR'⟩
      · exact .inr ⟨e, hg, (hf.of_comes ⟨k, hk⟩).kept hP hx⟩
      · by_cases hmk : m + 1 ≤ k
        · rw [← Nat.add_sub_cancel' hmk, run_add hf] at hk
          rcases ih (k - (m + 1)) (by omega) hR' hk with ⟨y, hy, hPy⟩ | ⟨e, he, hPe⟩
          · exact .inl ⟨y, Comes.trans ⟨n + 1, hg⟩ hy, hPy⟩
          · exact .inr ⟨e, Comes.ends ⟨n + 1, hg⟩ he, hPe⟩
        · -- the run of `f` passes the point it came to before it is at `p'`
          have hgo : f.run (m + 1 - k) x = .ok p' := by
            rw [← run_add hk, Nat.add_sub_cancel' (by omega)]
            exact hf
          refine .inl ⟨q', ⟨n + 1, hg⟩, ?_⟩
          rw [← h.mem p' q' hR']
          exact Comes.kept ⟨_, hgo⟩ hP hx
  · exact .inr ⟨e, h.ends hR he, hPe⟩

theorem alike (h : Tracks f g R) (hstart : ∀ s, R (f.start, s) (g.start, s)) : Alike I f g where
  ends s _ := ⟨h.ends (hstart s), h.symm.ends (hstart s)⟩
  shows _ hP s := ⟨h.shows hP (hstart s), h.symm.shows hP (hstart s)⟩

end Tracks

end SsaJit.Func

/-! ## Runs in step

Two functions in step. At every point that a run of the one comes to, the run of the other comes,
after as many blocks, to a point at which the values of a part are the same and the same ones of them
have been computed. The part is what an edit leaves in the function. -/

namespace SsaJit.Func

variable {I : Interp} {f g k : Func} {b c : BlockId} {u v : ValueId} {s s₀ t : I.State} {n : Nat}
  {pre post : List ValueId} {K L : ValueId → Prop}

/-! ## States alike on a part of the values -/

/-- The memories are the same, and so are the values of a part. -/
structure Same (K : ValueId → Prop) (s t : I.State) : Prop where
  mem : s.mem = t.mem
  env : ∀ v, K v → s.env v = t.env v

theorem Same.refl (K : ValueId → Prop) (s : I.State) : Same K s s := ⟨rfl, fun _ _ => rfl⟩

theorem Same.get (h : Same K s t) (hv : K v) : s.get (.value v) = t.get (.value v) := h.env v hv

theorem Same.mono (h : Same K s t) (hL : ∀ v, L v → K v) : Same L s t :=
  ⟨h.mem, fun v hv => h.env v (hL v hv)⟩

theorem Same.trans {r : I.State} (h₁ : Same K s t) (h₂ : Same L t r) :
    Same (fun v => K v ∧ L v) s r :=
  ⟨h₁.mem.trans h₂.mem, fun v hv => (h₁.env v hv.1).trans (h₂.env v hv.2)⟩

theorem Same.assign {op : Op} (h : Same K s t) (r : I.Val × I.Mem) :
    Same K (s.assign v op r) (t.assign v op r) := by
  refine ⟨rfl, fun x hx => ?_⟩
  simp only [Interp.State.assign]
  split
  · exact h.env x hx
  · by_cases hxv : x = v
    · subst hxv
      rw [Function.update_self, Function.update_self]
    · rw [Function.update_of_ne hxv, Function.update_of_ne hxv]
      exact h.env x hx

/-- Points of two runs in one block. -/
def SamePoint (K : ValueId → Prop) (p q : BlockId × I.State) : Prop :=
  p.1 = q.1 ∧ Same K p.2 q.2

/-! ## Points of a run -/

/-- The run from `s₀` comes, after `n` blocks, to the place in `b` behind the values `pre`, and is in
state `s` there. -/
def Sees (f : Func) (s₀ : I.State) (n : Nat) (b : BlockId) (pre : List ValueId) (s : I.State) :
    Prop :=
  ∃ t post, f.run n (f.start, s₀) = .ok (b, t) ∧ (f.block b).values = pre ++ post ∧
    pre.foldlM f.exec t = .ok s

/-- Both functions run in step, with the values of the part `K` the same at all times. -/
structure Lockstep (I : Interp) (K : ValueId → Prop) (f g : Func) : Prop where
  runs : ∀ n (s : I.State), Agree (SamePoint K) (f.run n (f.start, s)) (g.run n (g.start, s))
  points : ∀ (s₀ : I.State) n b pre s, f.Sees s₀ n b pre s → ∃ pre' t, g.Sees s₀ n b pre' t ∧
    (∀ v, K v → (v ∈ pre' ↔ v ∈ pre)) ∧ Same K s t

namespace Lockstep

theorem refl (K : ValueId → Prop) (f : Func) : Lockstep I K f f where
  runs n s := by
    cases f.run n (f.start, s) with
    | error e => exact .stop e
    | ok p => exact .go ⟨rfl, .refl K p.2⟩
  points _ _ _ pre s h := ⟨pre, s, h, fun _ _ => .rfl, .refl K s⟩

theorem mono (h : Lockstep I K f g) (hL : ∀ v, L v → K v) : Lockstep I L f g where
  runs n s := (h.runs n s).imp fun _ _ hpq => ⟨hpq.1, hpq.2.mono hL⟩
  points s₀ n b pre s hs := by
    obtain ⟨pre', t, ht, hmem, hsame⟩ := h.points s₀ n b pre s hs
    exact ⟨pre', t, ht, fun v hv => hmem v (hL v hv), hsame.mono hL⟩

theorem trans (h₁ : Lockstep I K f g) (h₂ : Lockstep I L g k) :
    Lockstep I (fun v => K v ∧ L v) f k where
  runs n s := (h₁.runs n s).trans (h₂.runs n s) fun _ _ _ hpq hqr =>
    ⟨hpq.1.trans hqr.1, hpq.2.trans hqr.2⟩
  points s₀ n b pre s hs := by
    obtain ⟨pre₁, t₁, ht₁, hmem₁, hsame₁⟩ := h₁.points s₀ n b pre s hs
    obtain ⟨pre₂, t₂, ht₂, hmem₂, hsame₂⟩ := h₂.points s₀ n b pre₁ t₁ ht₁
    exact ⟨pre₂, t₂, ht₂, fun v hv => (hmem₂ v hv.2).trans (hmem₁ v hv.1), hsame₁.trans hsame₂⟩

theorem alike (h : Lockstep I K f g) : Alike I f g where
  ends s e := exists_congr fun n => (h.runs n s).error_iff
  shows P _ s := by
    refine or_congr ⟨?_, ?_⟩ (exists_congr fun e =>
      and_congr_left fun _ => exists_congr fun n => (h.runs n s).error_iff)
    · rintro ⟨p, ⟨n, hn⟩, hp⟩
      obtain ⟨q, hq, hpq⟩ := (h.runs n s).of_left hn
      exact ⟨q, ⟨n, hq⟩, hpq.2.mem ▸ hp⟩
    · rintro ⟨q, ⟨n, hn⟩, hq⟩
      obtain ⟨p, hp, hpq⟩ := (h.runs n s).of_right hn
      exact ⟨p, ⟨n, hp⟩, hpq.2.mem ▸ hq⟩

/-- What bodies and ends of blocks keep: a relation `R` between the states at the beginning of a block,
and a relation `Q` between the states at a place in it, which speaks also of what has been computed. -/
theorem of_blocks {R : BlockId → I.State → I.State → Prop}
    {Q : BlockId → List ValueId → I.State → I.State → Prop}
    (hR : ∀ b s t, R b s t → Same K s t) (hQ : ∀ b pre s t, Q b pre s t → Same K s t)
    (hfirst : g.start = f.start) (hstart : ∀ s, R f.start s s)
    (hbody : ∀ b pre post s t, R b s t → (f.block b).values = pre ++ post →
      ∃ pre' post', (g.block b).values = pre' ++ post' ∧ (post = [] → post' = []) ∧
        (∀ v, K v → (v ∈ pre' ↔ v ∈ pre)) ∧
        Agree (Q b pre) (pre.foldlM f.exec s) (pre'.foldlM g.exec t))
    (hleave : ∀ b s t, Q b (f.block b).values s t →
      Agree (fun p q => p.1 = q.1 ∧ R p.1 p.2 q.2) (f.leave b s) (g.leave b t)) :
    Lockstep I K f g := by
  have hruns : ∀ n s, Agree (fun p q => p.1 = q.1 ∧ R p.1 p.2 q.2)
      (f.run n (f.start, s)) (g.run n (g.start, s)) := by
    intro n s
    suffices ∀ p q, p.1 = q.1 ∧ R p.1 p.2 q.2 →
        Agree (fun p q => p.1 = q.1 ∧ R p.1 p.2 q.2) (f.run n p) (g.run n q) from
      this _ _ ⟨hfirst.symm, hstart s⟩
    induction n with
    | zero => exact fun p q h => .go h
    | succ n ih =>
      rintro ⟨b, s⟩ ⟨b', t⟩ ⟨hb, hst⟩
      obtain rfl : b = b' := hb
      obtain ⟨pre', post', hvals, hnil, _, hagree⟩ := hbody b _ [] s t hst (List.append_nil _).symm
      rw [hnil rfl, List.append_nil] at hvals
      refine Agree.bind ?_ fun p q _ _ hpq => ih p q hpq
      change Agree _ ((f.block b).values.foldlM f.exec s >>= f.leave b)
        ((g.block b).values.foldlM g.exec t >>= g.leave b)
      rw [hvals]
      exact hagree.bind fun s' t' _ _ h => hleave b s' t' h
  refine ⟨fun n s => (hruns n s).imp fun p q h => ⟨h.1, hR _ _ _ h.2⟩, ?_⟩
  rintro s₀ n b pre s ⟨s₁, post, hrun, hvals, hpre⟩
  obtain ⟨⟨b', t₁⟩, hrun', hb, hst⟩ := (hruns n s₀).of_left hrun
  obtain rfl : b = b' := hb
  obtain ⟨pre', post', hvals', _, hmem, hagree⟩ := hbody b pre post s₁ t₁ hst hvals
  obtain ⟨t, ht, hpoint⟩ := hagree.of_left hpre
  exact ⟨pre', t, ⟨t₁, post', hrun', hvals', ht⟩, hmem, hQ _ _ _ _ hpoint⟩

end Lockstep

end SsaJit.Func
