import Mathlib.Data.List.Forall2
import SsaJit.Fault

/-! Steps that may fault, taken apart: when a sequence of them gives a result, and what a run over a
list keeps. -/

namespace SsaJit.Outcome

variable {α β γ : Type}

theorem bind_eq_ok {x : Outcome α} {g : α → Outcome β} {b : β} :
    (x >>= g) = .ok b ↔ ∃ a, x = .ok a ∧ g a = .ok b := by
  cases x with
  | error e => simp [bind, Except.bind]
  | ok a => simp [bind, Except.bind]

@[simp] theorem ok_bind {a : α} {g : α → Outcome β} : ((.ok a : Outcome α) >>= g) = g a := rfl

@[simp] theorem error_bind {e : Fault} {g : α → Outcome β} :
    ((.error e : Outcome α) >>= g) = .error e := rfl

@[simp] theorem pure_eq_ok {a : α} : (pure a : Outcome α) = .ok a := rfl

@[simp] theorem map_ok {a : α} {g : α → β} : g <$> (.ok a : Outcome α) = .ok (g a) := rfl

theorem map_eq_ok {x : Outcome α} {g : α → β} {b : β} :
    g <$> x = .ok b ↔ ∃ a, x = .ok a ∧ g a = b := by
  cases x with
  | error e => simp [Functor.map, Except.map]
  | ok a => simp

theorem at?_eq_ok {xs : List α} {i : Nat} {a : α} : at? xs i = .ok a ↔ xs[i]? = some a := by
  unfold at?
  cases xs[i]? with
  | none => simp [crash]
  | some x => simp

/-- What every step keeps, a run over a list keeps, and no step of it faults. -/
theorem foldlM_keeps {P : β → Prop} {g : β → α → Outcome β} {l : List α} {b : β}
    (step : ∀ b, ∀ x ∈ l, P b → ∃ b', g b x = .ok b' ∧ P b') (hb : P b) :
    ∃ b', l.foldlM g b = .ok b' ∧ P b' := by
  induction l generalizing b with
  | nil => exact ⟨b, rfl, hb⟩
  | cons x l ih =>
    obtain ⟨b₁, h₁, hP⟩ := step b x List.mem_cons_self hb
    obtain ⟨b₂, h₂, hP₂⟩ := ih (fun b y hy => step b y (List.mem_cons_of_mem _ hy)) hP
    exact ⟨b₂, by rw [List.foldlM_cons, h₁]; exact h₂, hP₂⟩

/-- As `foldlM_keeps`, for what depends on the part of the list that is done. -/
theorem foldlM_keeps_done {P : List α → β → Prop} {g : β → α → Outcome β} {l : List α} {b : β}
    (step : ∀ done x rest b, l = done ++ x :: rest → P done b →
      ∃ b', g b x = .ok b' ∧ P (done ++ [x]) b') (hb : P [] b) :
    ∃ b', l.foldlM g b = .ok b' ∧ P l b' := by
  suffices ∀ done rest b, l = done ++ rest → P done b →
      ∃ b', rest.foldlM g b = .ok b' ∧ P l b' from this [] l b rfl hb
  intro done rest
  induction rest generalizing done with
  | nil =>
    intro b hl hP
    exact ⟨b, rfl, by rw [hl, List.append_nil]; exact hP⟩
  | cons x rest ih =>
    intro b hl hP
    obtain ⟨b₁, h₁, hP₁⟩ := step done x rest b hl hP
    obtain ⟨b₂, h₂, hP₂⟩ := ih (done ++ [x]) b₁ (by rw [hl, List.append_assoc]; rfl) hP₁
    exact ⟨b₂, by rw [List.foldlM_cons, h₁]; exact h₂, hP₂⟩

/-- What relates each state of a run to the next one relates the first to the last. -/
theorem foldlM_relates {R : β → β → Prop} (hrefl : ∀ s, R s s)
    (htrans : ∀ s t u, R s t → R t u → R s u) {step : β → α → Outcome β} {l : List α} {s t : β}
    (hstep : ∀ x ∈ l, ∀ s t, step s x = .ok t → R s t) (h : l.foldlM step s = .ok t) : R s t := by
  induction l generalizing s with
  | nil =>
    obtain rfl : s = t := Except.ok.inj h
    exact hrefl s
  | cons x l ih =>
    rw [List.foldlM_cons, bind_eq_ok] at h
    obtain ⟨u, hu, h⟩ := h
    exact htrans s u t (hstep x List.mem_cons_self s u hu)
      (ih (fun y hy => hstep y (List.mem_cons_of_mem _ hy)) h)

theorem mapM_eq_ok {g : α → Outcome β} {l : List α} {ys : List β} :
    l.mapM g = .ok ys ↔ List.Forall₂ (fun x y => g x = .ok y) l ys := by
  induction l generalizing ys with
  | nil =>
    rw [List.mapM_nil, List.forall₂_nil_left_iff]
    exact ⟨fun h => (Except.ok.inj h).symm, fun h => by rw [h]; rfl⟩
  | cons x l ih =>
    simp only [List.mapM_cons, bind_eq_ok, List.forall₂_cons_left_iff, pure_eq_ok,
      Except.ok.injEq, ih]
    constructor
    · rintro ⟨y, hy, zs, hzs, rfl⟩
      exact ⟨y, zs, hy, hzs, rfl⟩
    · rintro ⟨y, zs, hy, hzs, rfl⟩
      exact ⟨y, hy, zs, hzs, rfl⟩

/-- Each result comes from an element. -/
theorem exists_of_mem {R : α → β → Prop} {l : List α} {ys : List β} {y : β} (hy : y ∈ ys)
    (h : List.Forall₂ R l ys) : ∃ a ∈ l, R a y := by
  induction h with
  | nil => cases hy
  | cons ha _ ih =>
    rcases List.mem_cons.mp hy with rfl | hy
    · exact ⟨_, List.mem_cons_self, ha⟩
    · obtain ⟨a, hmem, hr⟩ := ih hy
      exact ⟨a, List.mem_cons_of_mem _ hmem, hr⟩

/-- Nothing is found in a list if nothing is found in any of its elements. -/
theorem mapM_flatten_nil {g : α → Outcome (List β)} {l : List α} :
    (l.mapM g >>= fun ys => .ok ys.flatten) = .ok [] ↔ ∀ x ∈ l, g x = .ok [] := by
  rw [bind_eq_ok]
  constructor
  · rintro ⟨ys, hys, hflat⟩ x hx
    rw [mapM_eq_ok] at hys
    replace hflat := Except.ok.inj hflat
    induction hys with
    | nil => simp at hx
    | cons hy _ ih =>
      obtain ⟨rfl, hflat⟩ := List.append_eq_nil_iff.mp hflat
      rcases List.mem_cons.mp hx with rfl | hx
      · exact hy
      · exact ih hx hflat
  · intro h
    refine ⟨l.map fun _ => [], ?_, by simp⟩
    rw [mapM_eq_ok, List.forall₂_map_right_iff, List.forall₂_same]
    exact h

end SsaJit.Outcome
