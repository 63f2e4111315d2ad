import SsaJit.Lower.Function
import SsaJit.Proofs.Ssa.Answers

/-! How code generation may end. There is a result, or the function is turned down as one that is not
supported; what is left is a value of a size that no register has. The check that comes before any code
is made ends in one of the first two ways for every function that the verifier accepts. -/

namespace SsaJit

namespace Outcome

variable {α β : Type} {x : Outcome α} {odd : Nat → Prop} {good : α → Prop} {fine : β → Prop}

/-- The function is turned down: its constructs are not supported. -/
def TurnedDown (x : Outcome α) : Prop := ∃ e, x = .error (.failure e) ∧ e.class = .unsupported

/-- The computation stops at a load or a store of an odd size. -/
def StuckAt (x : Outcome α) (n : Nat) : Prop :=
  x = .error (.refusal (.loadWidth n)) ∨ x = .error (.refusal (.storeWidth n))

/-- There is a good result, the function is turned down, or an odd size is in the way. -/
def Settles (odd : Nat → Prop) (good : α → Prop) (x : Outcome α) : Prop :=
  (∃ a, x = .ok a ∧ good a) ∨ x.TurnedDown ∨ ∃ n, odd n ∧ x.StuckAt n

theorem settles_ok {a : α} (h : good a) : Settles odd good (.ok a) := .inl ⟨a, rfl, h⟩

theorem turnedDown_fail (r : Unsupported) : (fail (.unsupported r) : Outcome α).TurnedDown :=
  ⟨_, rfl, rfl⟩

theorem settles_fail (r : Unsupported) : Settles odd good (fail (.unsupported r)) :=
  .inr (.inl (turnedDown_fail r))

theorem TurnedDown.bind (h : x.TurnedDown) (k : α → Outcome β) : (x >>= k).TurnedDown := by
  obtain ⟨e, rfl, he⟩ := h
  exact ⟨e, rfl, he⟩

theorem Settles.bind {k : α → Outcome β} (hx : x.Settles odd good)
    (hk : ∀ a, x = .ok a → good a → (k a).Settles odd fine) : (x >>= k).Settles odd fine := by
  rcases hx with ⟨a, rfl, ha⟩ | h | ⟨n, hn, rfl | rfl⟩
  · exact hk a rfl ha
  · exact .inr (.inl (h.bind k))
  · exact .inr (.inr ⟨n, hn, .inl rfl⟩)
  · exact .inr (.inr ⟨n, hn, .inr rfl⟩)

theorem Settles.mono {good' : α → Prop} (h : x.Settles odd good) (hg : ∀ a, good a → good' a) :
    x.Settles odd good' :=
  h.imp_left fun ⟨a, hx, ha⟩ => ⟨a, hx, hg a ha⟩

/-- What cannot get stuck settles whatever sizes are odd. -/
theorem Settles.of_none (h : x.Settles (fun _ => False) good) : x.Settles odd good :=
  h.imp_right fun h => h.imp_right fun ⟨_, hn, _⟩ => hn.elim

/-- A computation that comes to an answer. -/
theorem Answers.settles (h : x.Answers) : x.Settles odd fun _ => True := by
  obtain ⟨a, rfl⟩ := h
  exact settles_ok trivial

theorem settles_mapM {g : α → Outcome β} {l : List α} (h : ∀ a ∈ l, (g a).Settles odd fine) :
    (l.mapM g).Settles odd fun bs => ∀ b ∈ bs, fine b := by
  induction l with
  | nil => exact settles_ok fun _ hb => absurd hb List.not_mem_nil
  | cons a l ih =>
    rw [List.mapM_cons]
    refine (h a List.mem_cons_self).bind fun b _ hb => ?_
    refine (ih fun a' ha' => h a' (List.mem_cons_of_mem _ ha')).bind fun bs _ hbs => settles_ok ?_
    exact List.forall_mem_cons.mpr ⟨hb, hbs⟩

/-- A loop that only checks finds all that its rounds find. -/
theorem settles_forIn (good : α → Prop) {g : α → PUnit → Outcome (ForInStep PUnit)} {l : List α}
    (h : ∀ a ∈ l, (g a ⟨⟩).Settles odd fun r => r = .yield ⟨⟩ ∧ good a) :
    (forIn l PUnit.unit g).Settles odd fun _ => ∀ a ∈ l, good a := by
  induction l with
  | nil => exact settles_ok fun _ ha => absurd ha List.not_mem_nil
  | cons a l ih =>
    rw [List.forIn_cons]
    refine (h a List.mem_cons_self).bind fun r _ hr => ?_
    obtain ⟨rfl, ha⟩ := hr
    refine (ih fun a' ha' => h a' (List.mem_cons_of_mem _ ha')).mono fun _ hl => ?_
    exact List.forall_mem_cons.mpr ⟨ha, hl⟩

end Outcome

namespace Lower

open Outcome

variable {c : Context} {x : Value} {odd : Nat → Prop}

/-- The types of operands that are values. -/
theorem types_eq {f : Func} {args : List Operand} (h : ∀ o ∈ args, ∃ a, o = .value a) :
    args.mapM (fun o => do return (← f.find o).type) = (.ok (args.map f.operandType) : Outcome _) := by
  rw [mapM_eq_ok, List.forall₂_map_right_iff, List.forall₂_same]
  intro o ho
  obtain ⟨a, rfl⟩ := h o ho
  rfl

theorem settles_intrinsic (h : ∀ o ∈ x.args, ∃ a, o = .value a) :
    (c.intrinsic x).Settles odd fun _ => x.args ≠ [] := by
  unfold Context.intrinsic
  split
  · exact settles_fail _
  · next o rest hargs =>
    obtain ⟨a, rfl⟩ := h o (by rw [hargs]; exact List.mem_cons_self)
    rw [show c.func.find (.value a) = .ok (c.func.value a) from rfl, ok_bind]
    dsimp only
    split
    · exact settles_ok (by rw [hargs]; exact List.cons_ne_nil _ _)
    · exact settles_fail _

theorem callee_of_typed {ts : List Ty} {home : Prop} (h : Func.WellTyped x ts home)
    (hop : x.op = .call) : ∃ rest, ts = .ptr :: rest := by
  rw [Func.WellTyped, hop] at h
  exact h

/-- Parameters and arguments of calls find room in the registers. -/
structure Context.InRegs (c : Context) : Prop where
  params : exceedsRegs c.func.params = false
  calls : ∀ y ∈ c.func.layout.flatMap c.func.valuesOf, y.2.op = .call →
    exceedsRegs ((y.2.args.drop 1).map c.func.operandType) = false

/-- The check of a function that the verifier accepts finds room or turns the function down. -/
theorem settles_check (hf : c.func.verify = .ok []) :
    c.check.Settles (fun _ => False) fun _ => c.InRegs := by
  have hvalues : ∀ y ∈ c.func.layout.flatMap c.func.valuesOf, y.2.op ≠ .phi →
      (∀ o ∈ y.2.args, ∃ a, o = .value a) ∧ (y.2.op = .call → y.2.args ≠ []) := by
    intro y hy hphi
    obtain ⟨b, hb, hy⟩ := List.mem_flatMap.mp hy
    obtain ⟨v, hv, rfl⟩ := List.mem_map.mp hy
    refine ⟨fun o ho => ?_, fun hop hnil => ?_⟩
    · obtain ⟨a, -, ha, -⟩ := Func.args_listed hf hb hv ho
      exact ⟨a, ha⟩
    · obtain ⟨rest, hrest⟩ := callee_of_typed (Func.value_typed hf hb hv hphi) hop
      have hnil : (c.func.value v).args = [] := hnil
      simp [Func.argTypes, hnil] at hrest
  unfold Context.check
  dsimp only
  split
  · exact .inr (.inl ((turnedDown_fail _).bind _))
  next hparams =>
  refine Settles.bind (settles_forIn (fun y => y.2.op = .call →
    exceedsRegs ((y.2.args.drop 1).map c.func.operandType) = false) fun y hy => ?_)
    fun _ _ hcalls => settles_ok ⟨Bool.eq_false_iff.mpr hparams, hcalls⟩
  split
  · next hop =>
    obtain ⟨hargs, hne⟩ := hvalues y hy (by rw [hop]; decide)
    rw [if_neg (by simpa using hne hop), types_eq fun o ho => hargs o (List.mem_of_mem_drop ho), ok_bind]
    split
    · exact .inr (.inl ((turnedDown_fail _).bind _))
    · next hroom => exact settles_ok ⟨rfl, fun _ => Bool.eq_false_iff.mpr hroom⟩
  · next hop =>
    obtain ⟨hargs, -⟩ := hvalues y hy (by rw [hop]; decide)
    exact (settles_intrinsic hargs).bind fun _ _ _ =>
      settles_ok ⟨rfl, fun hcall => by rw [hop] at hcall; cases hcall⟩
  · next hcall _ => exact settles_ok ⟨rfl, fun h => absurd h hcall⟩

end Lower

end SsaJit
