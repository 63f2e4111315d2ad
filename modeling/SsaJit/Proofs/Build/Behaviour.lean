import SsaJit.Proofs.Build.Draft
import SsaJit.Proofs.Build.Program
import SsaJit.Proofs.Exec.Semantics
import SsaJit.Proofs.Exec.Regions

/-! Code between two places of a function, and what it does. `Does` compares it with a behaviour of
programs: it takes stores to the stores that the behaviour takes them to, returns what the behaviour
returns, and a run that ends has a result of the behaviour to end with. Code for the parts of a program
makes code for the whole.

A run that goes round in a loop has fewer blocks left to leave each time, so that a run that ends leaves
every loop. -/

namespace SsaJit.Build

open Func

/-- A place in a function: a block, and how many instructions of its body are behind. -/
structure Place where
  block : BlockId
  behind : Nat

/-- The beginning of a block other than the entry. -/
def Place.top (b : BlockId) : Place := ⟨b, 0⟩

/-- The end of what a block of the function computes. -/
def Place.last (f : Func) (b : BlockId) : Place := ⟨b, (f.body b).length⟩

/-- The value that is returned. -/
def datum (w : Option UInt64) : Option Datum := w.map fun w => .lanes [w]

/-- From the place, the run ends with `e` before it leaves an `n`-th block. -/
def EndsFrom (F : Func) (n : Nat) (p : Place) (st : regionInterp.State) (e : regionInterp.Halt) :
    Prop :=
  F.EndsIn n p.block ((F.body p.block).drop p.behind) st e

/-- The run from `p` comes to `q` and leaves `n` blocks on the way. -/
def Passes (F : Func) (n : Nat) (p : Place) (st : regionInterp.State) (q : Place)
    (st' : regionInterp.State) : Prop :=
  ∀ m e, EndsFrom F (m + n) p st e ↔ EndsFrom F m q st' e

variable {F : Func} {m n : Nat} {p q r yes no : Place} {st st' st'' : regionInterp.State}
  {e : regionInterp.Halt} {b d : BlockId} {σ τ : Store} {w : Option UInt64}

namespace Passes

theorem refl (p : Place) (st : regionInterp.State) : Passes F 0 p st p st := fun _ _ => Iff.rfl

theorem trans (h₁ : Passes F n p st q st') (h₂ : Passes F m q st' r st'') :
    Passes F (m + n) p st r st'' := fun i e => by
  rw [← Nat.add_assoc, h₁, h₂]

theorem ends (h : Passes F n p st q st') (he : EndsFrom F m q st' e) :
    EndsFrom F (m + n) p st e := (h m e).mpr he

/-- A run that ends has left fewer blocks on the way than in all. -/
theorem rest (h : Passes F n p st q st') (he : EndsFrom F m p st e) :
    n < m ∧ EndsFrom F (m - n) q st' e := by
  have hlt : n < m := by
    by_contra hle
    have h0 : EndsFrom F (0 + n) p st e := EndsIn.mono he (by omega)
    exact (h 0 e).mp h0
  exact ⟨hlt, (h (m - n) e).mp (by rwa [Nat.sub_add_cancel (Nat.le_of_lt hlt)])⟩

end Passes

/-! ## Code and behaviour -/

section behaviour

variable {inv : Store → regionInterp.State → Prop} {A B P : Behaviour} {c : Store → UInt64}

/-- The code from `p` to `q` does what the behaviour says, where `inv` ties stores to states. -/
structure Does (F : Func) (inv : Store → regionInterp.State → Prop) (p q : Place) (A : Behaviour) :
    Prop where
  next : ∀ σ st τ, inv σ st → A σ (.next τ) → ∃ n st', inv τ st' ∧ Passes F n p st q st'
  returned : ∀ σ st w, inv σ st → A σ (.returned w) →
    ∃ n mem, EndsFrom F n p st (.returned (datum w) mem)
  ends : ∀ σ st n e, inv σ st → EndsFrom F n p st e → ∃ r, A σ r

/-- Control goes from `p` to `q`, to another block. -/
def Goes (F : Func) (inv : Store → regionInterp.State → Prop) (p q : Place) : Prop :=
  ∀ σ st, inv σ st → ∃ st', inv σ st' ∧ Passes F 1 p st q st'

/-- Control goes from `p` to `yes` if the condition is not zero and to `no` if it is. -/
def Tests (F : Func) (inv : Store → regionInterp.State → Prop) (p : Place) (c : Store → UInt64)
    (yes no : Place) : Prop :=
  ∀ σ st, inv σ st → ∃ st', inv σ st' ∧ Passes F 1 p st (if c σ = 0 then no else yes) st'

namespace Does

/-- Code that only changes the store. -/
theorem change {φ : Store → Store}
    (h : ∀ σ st, inv σ st → ∃ n st', inv (φ σ) st' ∧ Passes F n p st q st') :
    Does F inv p q fun σ r => r = .next (φ σ) where
  next σ st τ hinv hτ := by
    obtain rfl : τ = φ σ := Result.next.inj hτ
    exact h σ st hinv
  returned _ _ _ _ h := nomatch h
  ends σ _ _ _ _ _ := ⟨.next (φ σ), rfl⟩

theorem stay : Does F inv p p fun σ r => r = .next σ :=
  change fun _ st hinv => ⟨0, st, hinv, .refl p st⟩

/-- Code in two parts. -/
theorem andThen (h₁ : Does F inv p q A) (h₂ : Does F inv q r B) : Does F inv p r (A.andThen B) where
  next σ st τ hinv h := by
    obtain ⟨υ, hA, hB⟩ | ⟨w, -, hr⟩ := h
    · obtain ⟨n, st₁, hinv₁, hpass₁⟩ := h₁.next σ st υ hinv hA
      obtain ⟨m, st₂, hinv₂, hpass₂⟩ := h₂.next υ st₁ τ hinv₁ hB
      exact ⟨m + n, st₂, hinv₂, hpass₁.trans hpass₂⟩
    · cases hr
  returned σ st w hinv h := by
    obtain ⟨υ, hA, hB⟩ | ⟨w', hA, hr⟩ := h
    · obtain ⟨n, st₁, hinv₁, hpass₁⟩ := h₁.next σ st υ hinv hA
      obtain ⟨m, mem, hend⟩ := h₂.returned υ st₁ w hinv₁ hB
      exact ⟨m + n, mem, hpass₁.ends hend⟩
    · obtain rfl := Result.returned.inj hr
      exact h₁.returned σ st w hinv hA
  ends σ st n e hinv hend := by
    obtain ⟨υ | w, hA⟩ := h₁.ends σ st n e hinv hend
    · obtain ⟨m, st₁, hinv₁, hpass₁⟩ := h₁.next σ st υ hinv hA
      obtain ⟨r, hB⟩ := h₂.ends υ st₁ _ e hinv₁ (hpass₁.rest hend).2
      exact ⟨r, .inl ⟨υ, hA, hB⟩⟩
    · exact ⟨.returned w, .inr ⟨w, hA, rfl⟩⟩

/-- Code behind other code that only goes there. -/
theorem behind (h₁ : ∀ σ st, inv σ st → ∃ n st', inv σ st' ∧ Passes F n p st q st')
    (h₂ : Does F inv q r A) : Does F inv p r A where
  next σ st τ hinv h := by
    obtain ⟨n, st₁, hinv₁, hpass₁⟩ := h₁ σ st hinv
    obtain ⟨m, st₂, hinv₂, hpass₂⟩ := h₂.next σ st₁ τ hinv₁ h
    exact ⟨m + n, st₂, hinv₂, hpass₁.trans hpass₂⟩
  returned σ st w hinv h := by
    obtain ⟨n, st₁, hinv₁, hpass₁⟩ := h₁ σ st hinv
    obtain ⟨m, mem, hend⟩ := h₂.returned σ st₁ w hinv₁ h
    exact ⟨m + n, mem, hpass₁.ends hend⟩
  ends σ st n e hinv hend := by
    obtain ⟨n, st₁, hinv₁, hpass₁⟩ := h₁ σ st hinv
    exact h₂.ends σ st₁ _ e hinv₁ (hpass₁.rest hend).2

theorem behindJump (h₁ : Goes F inv p q) (h₂ : Does F inv q r A) : Does F inv p r A :=
  behind (fun σ st hinv => ⟨1, h₁ σ st hinv⟩) h₂

/-- Code before a jump. -/
theorem jump (h₁ : Does F inv p q A) (h₂ : Goes F inv q r) : Does F inv p r A where
  next σ st τ hinv h := by
    obtain ⟨n, st₁, hinv₁, hpass₁⟩ := h₁.next σ st τ hinv h
    obtain ⟨st₂, hinv₂, hpass₂⟩ := h₂ τ st₁ hinv₁
    exact ⟨1 + n, st₂, hinv₂, hpass₁.trans hpass₂⟩
  returned := h₁.returned
  ends := h₁.ends

theorem either (ht : Tests F inv p c yes no) (hA : Does F inv yes q A) (hB : Does F inv no q B) :
    Does F inv p q (.either c A B) := by
  have hgo : ∀ σ st, inv σ st → ∃ st' C, inv σ st' ∧ (∀ r, Behaviour.either c A B σ r ↔ C σ r) ∧
      ∃ q', Passes F 1 p st q' st' ∧ Does F inv q' q C := fun σ st hinv => by
    obtain ⟨st', hinv', hpass⟩ := ht σ st hinv
    by_cases hc : c σ = 0
    · rw [if_pos hc] at hpass
      exact ⟨st', B, hinv', fun r => by rw [Behaviour.either, if_pos hc], no, hpass, hB⟩
    · rw [if_neg hc] at hpass
      exact ⟨st', A, hinv', fun r => by rw [Behaviour.either, if_neg hc], yes, hpass, hA⟩
  refine ⟨fun σ st τ hinv h => ?_, fun σ st w hinv h => ?_, fun σ st n e hinv hend => ?_⟩
  · obtain ⟨st₁, C, hinv₁, hiff, q', hpass, hC⟩ := hgo σ st hinv
    obtain ⟨n, st₂, hinv₂, hpass₂⟩ := hC.next σ st₁ τ hinv₁ ((hiff _).mp h)
    exact ⟨n + 1, st₂, hinv₂, hpass.trans hpass₂⟩
  · obtain ⟨st₁, C, hinv₁, hiff, q', hpass, hC⟩ := hgo σ st hinv
    obtain ⟨n, mem, hend⟩ := hC.returned σ st₁ w hinv₁ ((hiff _).mp h)
    exact ⟨n + 1, mem, hpass.ends hend⟩
  · obtain ⟨st₁, C, hinv₁, hiff, q', hpass, hC⟩ := hgo σ st hinv
    obtain ⟨r, hr⟩ := hC.ends σ st₁ _ e hinv₁ (hpass.rest hend).2
    exact ⟨r, (hiff r).mpr hr⟩

end Does

/-! ## Loops -/

namespace Tests

theorem holds (h : Tests F inv p c yes no) (hinv : inv σ st) (hc : c σ ≠ 0) :
    ∃ st', inv σ st' ∧ Passes F 1 p st yes st' := by
  obtain ⟨st', hinv', hpass⟩ := h σ st hinv
  rw [if_neg hc] at hpass
  exact ⟨st', hinv', hpass⟩

theorem fails (h : Tests F inv p c yes no) (hinv : inv σ st) (hc : c σ = 0) :
    ∃ st', inv σ st' ∧ Passes F 1 p st no st' := by
  obtain ⟨st', hinv', hpass⟩ := h σ st hinv
  rw [if_pos hc] at hpass
  exact ⟨st', hinv', hpass⟩

end Tests

section testsFirst

variable (hP : Does F inv p q P) (ht : Tests F inv q c yes no) (hB : Does F inv yes p B)
include hP ht

/-- From the header to the body. -/
theorem while_enter (hinv : inv σ st) (hPσ : P σ (.next τ)) (hc : c τ ≠ 0) :
    ∃ n st', inv τ st' ∧ Passes F (1 + n) p st yes st' := by
  obtain ⟨n, st₁, hinv₁, hpass₁⟩ := hP.next σ st τ hinv hPσ
  obtain ⟨st₂, hinv₂, hpass₂⟩ := ht.holds hinv₁ hc
  exact ⟨n, st₂, hinv₂, hpass₁.trans hpass₂⟩

include hB

/-- A whole round, which leaves a block. -/
theorem while_round {υ : Store} (hinv : inv σ st) (hPσ : P σ (.next τ)) (hc : c τ ≠ 0)
    (hBτ : B τ (.next υ)) : ∃ n st', inv υ st' ∧ Passes F (n + 1) p st p st' := by
  obtain ⟨n, st₁, hinv₁, hpass₁⟩ := while_enter hP ht hinv hPσ hc
  obtain ⟨m, st₂, hinv₂, hpass₂⟩ := hB.next τ st₁ υ hinv₁ hBτ
  refine ⟨m + n, st₂, hinv₂, ?_⟩
  have hpass := hpass₁.trans hpass₂
  rwa [show m + (1 + n) = m + n + 1 by omega] at hpass

theorem while_next (h : Behaviour.while P c B σ (.next τ)) (hinv : inv σ st) :
    ∃ n st', inv τ st' ∧ Passes F n p st no st' := by
  generalize hr : Result.next τ = r at h
  induction h generalizing st with
  | returnedEarly | returned => cases hr
  | stop hPσ hc =>
    obtain rfl := Result.next.inj hr
    obtain ⟨n, st₁, hinv₁, hpass₁⟩ := hP.next _ _ _ hinv hPσ
    obtain ⟨st₂, hinv₂, hpass₂⟩ := ht.fails hinv₁ hc
    exact ⟨1 + n, st₂, hinv₂, hpass₁.trans hpass₂⟩
  | again hPσ hc hBτ _ ih =>
    obtain ⟨n, st₁, hinv₁, hpass₁⟩ := while_round hP ht hB hinv hPσ hc hBτ
    obtain ⟨m, st₂, hinv₂, hpass₂⟩ := ih hinv₁ hr
    exact ⟨m + (n + 1), st₂, hinv₂, hpass₁.trans hpass₂⟩

theorem while_returned (h : Behaviour.while P c B σ (.returned w)) (hinv : inv σ st) :
    ∃ n mem, EndsFrom F n p st (.returned (datum w) mem) := by
  generalize hr : Result.returned w = r at h
  induction h generalizing st with
  | stop => cases hr
  | returnedEarly hPσ =>
    obtain rfl := Result.returned.inj hr
    exact hP.returned _ _ _ hinv hPσ
  | returned hPσ hc hBτ =>
    obtain rfl := Result.returned.inj hr
    obtain ⟨n, st₁, hinv₁, hpass₁⟩ := while_enter hP ht hinv hPσ hc
    obtain ⟨m, mem, hend⟩ := hB.returned _ _ _ hinv₁ hBτ
    exact ⟨m + (1 + n), mem, hpass₁.ends hend⟩
  | again hPσ hc hBτ _ ih =>
    obtain ⟨n, st₁, hinv₁, hpass₁⟩ := while_round hP ht hB hinv hPσ hc hBτ
    obtain ⟨m, mem, hend⟩ := ih hinv₁ hr
    exact ⟨m + (n + 1), mem, hpass₁.ends hend⟩

/-- By induction on the number of blocks that are left: a round leaves at least one. -/
theorem while_ends (hend : EndsFrom F n p st e) (hinv : inv σ st) :
    ∃ r, Behaviour.while P c B σ r := by
  induction n using Nat.strong_induction_on generalizing σ st with
  | _ n ih =>
    obtain ⟨τ | w, hPσ⟩ := hP.ends σ st n e hinv hend
    · by_cases hc : c τ = 0
      · exact ⟨.next τ, .stop hPσ hc⟩
      obtain ⟨m, st₁, hinv₁, hpass₁⟩ := while_enter hP ht hinv hPσ hc
      obtain ⟨υ | w, hBτ⟩ := hB.ends τ st₁ _ e hinv₁ (hpass₁.rest hend).2
      · obtain ⟨m, st₂, hinv₂, hpass₂⟩ := while_round hP ht hB hinv hPσ hc hBτ
        obtain ⟨hlt, hrest⟩ := hpass₂.rest hend
        obtain ⟨r, hr⟩ := ih (n - (m + 1)) (by omega) hrest hinv₂
        exact ⟨r, .again hPσ hc hBτ hr⟩
      · exact ⟨.returned w, .returned hPσ hc hBτ⟩
    · exact ⟨.returned w, .returnedEarly hPσ⟩

/-- A loop that tests first: from its header behind it. -/
theorem Does.while : Does F inv p no (.while P c B) where
  next _ _ _ hinv h := while_next hP ht hB h hinv
  returned _ _ _ hinv h := while_returned hP ht hB h hinv
  ends _ _ _ _ hinv hend := while_ends hP ht hB hend hinv

end testsFirst

section testsLast

variable (hB : Does F inv p q B) (ht : Tests F inv q c yes p)
include hB ht

theorem until_round (hinv : inv σ st) (hBσ : B σ (.next τ)) (hc : c τ = 0) :
    ∃ n st', inv τ st' ∧ Passes F (1 + n) p st p st' := by
  obtain ⟨n, st₁, hinv₁, hpass₁⟩ := hB.next σ st τ hinv hBσ
  obtain ⟨st₂, hinv₂, hpass₂⟩ := ht.fails hinv₁ hc
  exact ⟨n, st₂, hinv₂, hpass₁.trans hpass₂⟩

theorem until_next (h : Behaviour.until B c σ (.next τ)) (hinv : inv σ st) :
    ∃ n st', inv τ st' ∧ Passes F n p st yes st' := by
  generalize hr : Result.next τ = r at h
  induction h generalizing st with
  | returned => cases hr
  | stop hBσ hc =>
    obtain rfl := Result.next.inj hr
    obtain ⟨n, st₁, hinv₁, hpass₁⟩ := hB.next _ _ _ hinv hBσ
    obtain ⟨st₂, hinv₂, hpass₂⟩ := ht.holds hinv₁ hc
    exact ⟨1 + n, st₂, hinv₂, hpass₁.trans hpass₂⟩
  | again hBσ hc _ ih =>
    obtain ⟨n, st₁, hinv₁, hpass₁⟩ := until_round hB ht hinv hBσ hc
    obtain ⟨m, st₂, hinv₂, hpass₂⟩ := ih hinv₁ hr
    exact ⟨m + (1 + n), st₂, hinv₂, hpass₁.trans hpass₂⟩

theorem until_returned (h : Behaviour.until B c σ (.returned w)) (hinv : inv σ st) :
    ∃ n mem, EndsFrom F n p st (.returned (datum w) mem) := by
  generalize hr : Result.returned w = r at h
  induction h generalizing st with
  | stop => cases hr
  | returned hBσ =>
    obtain rfl := Result.returned.inj hr
    exact hB.returned _ _ _ hinv hBσ
  | again hBσ hc _ ih =>
    obtain ⟨n, st₁, hinv₁, hpass₁⟩ := until_round hB ht hinv hBσ hc
    obtain ⟨m, mem, hend⟩ := ih hinv₁ hr
    exact ⟨m + (1 + n), mem, hpass₁.ends hend⟩

theorem until_ends (hend : EndsFrom F n p st e) (hinv : inv σ st) :
    ∃ r, Behaviour.until B c σ r := by
  induction n using Nat.strong_induction_on generalizing σ st with
  | _ n ih =>
    obtain ⟨τ | w, hBσ⟩ := hB.ends σ st n e hinv hend
    · by_cases hc : c τ = 0
      · obtain ⟨m, st₁, hinv₁, hpass₁⟩ := until_round hB ht hinv hBσ hc
        obtain ⟨hlt, hrest⟩ := hpass₁.rest hend
        obtain ⟨r, hr⟩ := ih (n - (1 + m)) (by omega) hrest hinv₁
        exact ⟨r, .again hBσ hc hr⟩
      · exact ⟨.next τ, .stop hBσ hc⟩
    · exact ⟨.returned w, .returned hBσ⟩

/-- A loop that tests last: from the top of its body behind it. -/
theorem Does.until : Does F inv p yes (.until B c) where
  next _ _ _ hinv h := until_next hB ht h hinv
  returned _ _ _ hinv h := until_returned hB ht h hinv
  ends _ _ _ _ hinv hend := until_ends hB ht hend hinv

end testsLast

end behaviour

/-! ## The ends of blocks -/

section ends

variable (hF : F.Draft)
include hF

theorem enter_draft {j : Nat} : F.enter d j st = st := by
  have hphi : ∀ v, ¬ (v ∈ (F.block d).values ∧ (F.value v).op = .phi) :=
    fun v h => (hF.values d v h.1).phi h.2
  simp only [Func.enter, if_neg (hphi _)]

theorem leave_edge {i : Nat} (hb : b < F.numBlocks)
    (hret : (F.block b).kind ≠ .ret) (hun : (F.block b).kind ≠ .unreachable)
    (hedge : (F.block b).edge? (regionInterp.holds (st.get (F.block b).control)) = some i)
    (hd : (F.block b).succs[i]? = some d) : F.leave b st = .ok (d, st) := by
  obtain ⟨j, hj⟩ := hF.flow.follow (hF.mem_layout.mpr hb) hd
  rw [Func.leave, if_neg hret, if_neg hun, hedge, Option.bind_some, hj]
  simp only [enter_draft hF]

/-- From the end of a block to the beginning of the next. -/
theorem passes_edge {i : Nat} (hb : b < F.numBlocks)
    (hret : (F.block b).kind ≠ .ret) (hun : (F.block b).kind ≠ .unreachable)
    (hedge : (F.block b).edge? (regionInterp.holds (st.get (F.block b).control)) = some i)
    (hd : (F.block b).succs[i]? = some d) : Passes F 1 (.last F b) st (.top d) st := by
  intro m e
  have hne : d ≠ 0 := (hF.succs b d (List.mem_of_getElem? hd)).1
  have hleave := leave_edge hF hb hret hun hedge hd
  have hstep : F.EndsIn (m + 1) b [] st e ↔ F.EndsIn m d (F.block d).values st e :=
    endsIn_leave hleave
  rw [EndsFrom, EndsFrom, Place.last, Place.top, List.drop_length, List.drop_zero, hstep,
    hF.values_eq hne]

theorem passes_jump (hb : b < F.numBlocks) (hkind : (F.block b).kind = .jump)
    (hd : (F.block b).succs = [d]) : Passes F 1 (.last F b) st (.top d) st :=
  passes_edge hF (i := 0) hb (by rw [hkind]; decide) (by rw [hkind]; decide)
    (by rw [Block.edge?, hkind]) (by rw [hd]; rfl)

theorem passes_branch {v : ValueId} {w : UInt64} {yes no : BlockId} (hb : b < F.numBlocks)
    (hkind : (F.block b).kind = .branch) (hd : (F.block b).succs = [yes, no])
    (hcontrol : (F.block b).control = .value v) (hv : st.env v = .lanes [w]) :
    Passes F 1 (.last F b) st (if w = 0 then .top no else .top yes) st := by
  have hholds : regionInterp.holds (st.get (F.block b).control) = (w != 0) := by
    rw [hcontrol, Interp.State.get, Interp.read, hv]
    rfl
  have hedge : (F.block b).edge? (regionInterp.holds (st.get (F.block b).control)) =
      some (if w = 0 then 1 else 0) := by
    rw [hholds, Block.edge?, hkind]
    by_cases hw : w = 0 <;> simp [hw]
  by_cases hw : w = 0
  · rw [if_pos hw] at hedge ⊢
    exact passes_edge hF hb (by rw [hkind]; decide) (by rw [hkind]; decide) hedge (by rw [hd]; rfl)
  · rw [if_neg hw] at hedge ⊢
    exact passes_edge hF hb (by rw [hkind]; decide) (by rw [hkind]; decide) hedge (by rw [hd]; rfl)

end ends

theorem endsFrom_ret (st : regionInterp.State) {r : Option Datum} (hkind : (F.block b).kind = .ret)
    (hr : r = if (F.block b).control = .missing then none else some (st.get (F.block b).control)) :
    EndsFrom F 1 (.last F b) st (.returned r st.mem) := by
  rw [EndsFrom, Place.last, List.drop_length]
  refine endsIn_halt ?_
  rw [Func.leave, if_pos hkind, hr]

/-- Instructions of the body that all run. -/
theorem passes_straight {i : Nat} {seg rest : List ValueId}
    (hbody : (F.body b).drop i = seg ++ rest) (h : seg.foldlM F.exec st = .ok st') :
    Passes F 0 ⟨b, i⟩ st ⟨b, i + seg.length⟩ st' := by
  intro m e
  have hrest : (F.body b).drop (i + seg.length) = rest := by
    rw [← List.drop_drop, hbody, List.drop_left]
  rw [EndsFrom, EndsFrom, hrest, hbody, Nat.add_zero, endsIn_append h]

theorem foldlM_one {v : ValueId} (h : F.exec st v = .ok st') : [v].foldlM F.exec st = .ok st' := by
  rw [List.foldlM_cons, h]
  rfl

end SsaJit.Build
