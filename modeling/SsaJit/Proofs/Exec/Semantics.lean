import Mathlib.Logic.Function.Basic
import SsaJit.Proofs.Exec.Edges

/-! What a function does when it runs. The meaning of the instructions is a parameter: it says what
values and memory are and what an instruction makes of its operands. Where control goes, which
arguments phis take and in what order instructions run is said here, once for every meaning.

Two functions are `Alike` if they end in the same way from every start and the same can be seen of
the memory on the way, for whatever once seen stays true. -/

namespace SsaJit

/-- The instruction without what ties it to its function: its place and the names of its operands. -/
def Value.bare (v : Value) : Value := { v with args := [], block := none }

/-- The operands that an instruction reads; a parameter reads none. -/
def Value.reads (v : Value) : List Operand := if v.op = .param then [] else v.args

/-- A meaning of instructions. The memory is all of the world that instructions look at and change,
the function's arguments and whatever record is kept of its doings among it. -/
structure Interp where
  Val : Type
  Mem : Type
  /-- Why an instruction stops the program. -/
  Stop : Type
  /-- What is read where no value is named. -/
  blank : Val
  /-- What a constant is. -/
  const : Value → Val
  /-- What any other instruction does, by the types of its operands and what they are. -/
  exec : ValueId → Value → List Ty → List Val → Mem → Except Stop (Val × Mem)
  /-- Is the condition true? -/
  holds : Val → Bool
  holds_const : ∀ y : Value, y.op = .const → y.type = .i1 →
    holds (const y.bare) = decide (y.aux ≠ 0)

namespace Interp

/-- What values are while a function runs, and its memory. -/
structure State (I : Interp) where
  env : ValueId → I.Val
  mem : I.Mem

/-- How a run ends. -/
inductive Halt (I : Interp)
  | returned (result : Option I.Val) (mem : I.Mem)
  | unreachable (mem : I.Mem)
  | stopped (why : I.Stop) (mem : I.Mem)
  /-- Control has nowhere to go. -/
  | lost (mem : I.Mem)

variable {I : Interp}

/-- The memory that a run leaves. -/
def Halt.mem : I.Halt → I.Mem
  | returned _ m | unreachable m | stopped _ m | lost m => m

/-- A property of memory that no instruction takes away. -/
def Kept (I : Interp) (P : I.Mem → Prop) : Prop :=
  ∀ v y ts xs m r, I.exec v y ts xs m = .ok r → P m → P r.2

/-- What an operand is. -/
def read (env : ValueId → I.Val) : Operand → I.Val
  | .value v => env v
  | _ => I.blank

def State.get (s : I.State) (o : Operand) : I.Val := read s.env o

/-- Give a value what was computed for it; a store has no result. -/
def State.assign (s : I.State) (v : ValueId) (op : Op) (r : I.Val × I.Mem) : I.State where
  env := if op = .store then s.env else Function.update s.env v r.1
  mem := r.2

/-- Run an instruction that is no phi. -/
def perform (v : ValueId) (y : Value) (ts : List Ty) (xs : List I.Val) (s : I.State) :
    Except I.Halt I.State :=
  if y.op = .const then .ok (s.assign v y.op (I.const y, s.mem))
  else match I.exec v y ts xs s.mem with
    | .ok r => .ok (s.assign v y.op r)
    | .error why => .error (.stopped why s.mem)

end Interp

namespace Func

variable {I : Interp}

/-- Run one instruction. Phis have their values when their block begins. -/
def exec (f : Func) (s : I.State) (v : ValueId) : Except I.Halt I.State :=
  if (f.value v).op = .phi then .ok s
  else Interp.perform v (f.value v).bare ((f.value v).reads.map f.operandType)
    ((f.value v).reads.map s.get) s

/-- Begin a block by the edge at the `j`-th place among its predecessors: all its phis take their
arguments for that place at once. -/
def enter (f : Func) (c : BlockId) (j : Nat) (s : I.State) : I.State :=
  { s with env := fun v => if v ∈ (f.block c).values ∧ (f.value v).op = .phi
      then s.get ((f.value v).args.getD j .missing) else s.env v }

/-- Leave a block. -/
def leave (f : Func) (b : BlockId) (s : I.State) : Except I.Halt (BlockId × I.State) :=
  if (f.block b).kind = .ret then
    .error (.returned (if (f.block b).control = .missing then none
      else some (s.get (f.block b).control)) s.mem)
  else if (f.block b).kind = .unreachable then .error (.unreachable s.mem)
  else match ((f.block b).edge? (I.holds (s.get (f.block b).control))).bind (f.follow b) with
    | some (c, j) => .ok (c, f.enter c j s)
    | none => .error (.lost s.mem)

/-- Run a block whose phis have their values, and begin the next one. -/
def step (f : Func) (p : BlockId × I.State) : Except I.Halt (BlockId × I.State) :=
  (f.block p.1).values.foldlM f.exec p.2 >>= f.leave p.1

/-- Run a number of blocks. -/
def run (f : Func) : Nat → BlockId × I.State → Except I.Halt (BlockId × I.State)
  | 0, p => .ok p
  | n + 1, p => f.step p >>= f.run n

/-- The run from `p` ends with `e`. -/
def Ends (f : Func) (p : BlockId × I.State) (e : I.Halt) : Prop := ∃ n, f.run n p = .error e

/-- The run from `p` comes to `q`. -/
def Comes (f : Func) (p q : BlockId × I.State) : Prop := ∃ n, f.run n p = .ok q

/-- The run from `p` comes to have the property in memory. -/
def Shows (f : Func) (p : BlockId × I.State) (P : I.Mem → Prop) : Prop :=
  (∃ q, f.Comes p q ∧ P q.2.mem) ∨ ∃ e, f.Ends p e ∧ P e.mem

/-- Both functions end in the same way and show the same on the way. -/
structure Alike (I : Interp) (f g : Func) : Prop where
  ends : ∀ (s : I.State) e, f.Ends (f.start, s) e ↔ g.Ends (g.start, s) e
  shows : ∀ P, I.Kept P → ∀ s : I.State, f.Shows (f.start, s) P ↔ g.Shows (g.start, s) P

namespace Alike

variable {f g k : Func}

theorem refl (f : Func) : Alike I f f := ⟨fun _ _ => .rfl, fun _ _ _ => .rfl⟩

theorem trans (h₁ : Alike I f g) (h₂ : Alike I g k) : Alike I f k :=
  ⟨fun s e => (h₁.ends s e).trans (h₂.ends s e),
    fun P hP s => (h₁.shows P hP s).trans (h₂.shows P hP s)⟩

end Alike

/-! ## Runs -/

variable {f g : Func} {p q r : BlockId × I.State} {e e' : I.Halt} {m n : Nat}

theorem run_one : f.run 1 p = f.step p := by
  rw [run]
  cases f.step p with
  | error e => rfl
  | ok q => rfl

theorem run_add (h : f.run m p = .ok q) : f.run (m + n) p = f.run n q := by
  induction m generalizing p with
  | zero =>
    obtain rfl : p = q := Except.ok.inj h
    rw [Nat.zero_add]
  | succ m ih =>
    rw [Nat.add_right_comm, run]
    rw [run] at h
    cases hs : f.step p with
    | error e => rw [hs] at h; cases h
    | ok x =>
      rw [hs] at h
      exact ih h

/-- A run that has ended does not go on. -/
theorem run_error_add (h : f.run m p = .error e) : f.run (m + n) p = .error e := by
  induction m generalizing p with
  | zero => cases h
  | succ m ih =>
    rw [Nat.add_right_comm, run]
    rw [run] at h
    cases hs : f.step p with
    | error e' =>
      rw [hs] at h
      exact h
    | ok x =>
      rw [hs] at h
      exact ih h

theorem Comes.trans (h₁ : f.Comes p q) (h₂ : f.Comes q r) : f.Comes p r := by
  obtain ⟨m, hm⟩ := h₁
  obtain ⟨n, hn⟩ := h₂
  exact ⟨m + n, (run_add hm).trans hn⟩

theorem Comes.ends (h₁ : f.Comes p q) (h₂ : f.Ends q e) : f.Ends p e := by
  obtain ⟨m, hm⟩ := h₁
  obtain ⟨n, hn⟩ := h₂
  exact ⟨m + n, (run_add hm).trans hn⟩

theorem Ends.unique (h₁ : f.Ends p e) (h₂ : f.Ends p e') : e = e' := by
  obtain ⟨m, hm⟩ := h₁
  obtain ⟨n, hn⟩ := h₂
  have h := run_error_add (n := n) hm
  rw [Nat.add_comm, run_error_add hn] at h
  exact (Except.error.inj h).symm

/-- Whatever a run comes to, it comes to it before it ends. -/
theorem Ends.of_comes (h₁ : f.Ends p e) (h₂ : f.Comes p q) : f.Ends q e := by
  obtain ⟨m, hm⟩ := h₁
  obtain ⟨n, hn⟩ := h₂
  refine ⟨m, ?_⟩
  rw [← run_add hn, Nat.add_comm]
  exact run_error_add hm

/-! ## What stays true of the memory -/

section kept

variable {α β : Type} {P : I.Mem → Prop} {s : I.State} {v : ValueId} {b : BlockId}

/-- The memory that is left has the property, whether the run goes on or not. -/
def Leaves (P : I.Mem → Prop) (mem : α → I.Mem) : Except I.Halt α → Prop
  | .ok a => P (mem a)
  | .error e => P e.mem

theorem Leaves.bind {mem : α → I.Mem} {mem' : β → I.Mem} {x : Except I.Halt α}
    {k : α → Except I.Halt β} (h : Leaves P mem x) (hk : ∀ a, P (mem a) → Leaves P mem' (k a)) :
    Leaves P mem' (x >>= k) := by
  cases x with
  | error e => exact h
  | ok a => exact hk a h

theorem leaves_perform (hP : I.Kept P) {y : Value} {ts : List Ty} {xs : List I.Val}
    (hs : P s.mem) : Leaves P Interp.State.mem (Interp.perform v y ts xs s) := by
  unfold Interp.perform
  split
  · exact hs
  · cases hx : I.exec v y ts xs s.mem with
    | error why => exact hs
    | ok r => exact hP _ _ _ _ _ _ hx hs

theorem leaves_exec (hP : I.Kept P) (hs : P s.mem) :
    Leaves P Interp.State.mem (f.exec s v) := by
  unfold exec
  split
  · exact hs
  · exact leaves_perform hP hs

theorem leaves_body (hP : I.Kept P) {l : List ValueId} (hs : P s.mem) :
    Leaves P Interp.State.mem (l.foldlM f.exec s) := by
  induction l generalizing s with
  | nil => exact hs
  | cons v l ih =>
    rw [List.foldlM_cons]
    exact (leaves_exec hP hs).bind fun t ht => ih ht

theorem leaves_leave (hs : P s.mem) : Leaves P (·.2.mem) (f.leave b s) := by
  unfold leave
  split
  · exact hs
  split
  · exact hs
  split
  · exact hs
  · exact hs

theorem leaves_step (hP : I.Kept P) (hp : P p.2.mem) : Leaves P (·.2.mem) (f.step p) :=
  (leaves_body hP hp).bind fun _ ht => leaves_leave ht

theorem leaves_run (hP : I.Kept P) (hp : P p.2.mem) : Leaves P (·.2.mem) (f.run n p) := by
  induction n generalizing p with
  | zero => exact hp
  | succ n ih => exact (leaves_step hP hp).bind fun q hq => ih hq

theorem Comes.kept (h : f.Comes p q) (hP : I.Kept P) (hp : P p.2.mem) : P q.2.mem := by
  obtain ⟨n, hn⟩ := h
  have := leaves_run (f := f) (n := n) hP hp
  rwa [hn] at this

theorem Ends.kept (h : f.Ends p e) (hP : I.Kept P) (hp : P p.2.mem) : P e.mem := by
  obtain ⟨n, hn⟩ := h
  have := leaves_run (f := f) (n := n) hP hp
  rwa [hn] at this

end kept

end Func
end SsaJit

/-! ## Runs from inside a block

Runs that begin inside a block. Within a block a run is cut between any two instructions, and the
number of blocks that a run passes is counted, so that a run that comes back to where it was is seen to
have become shorter. -/

namespace SsaJit.Func

variable {I : Interp} {f : Func} {b c : BlockId} {rest seg : List ValueId} {s s' : I.State}
  {e e' : I.Halt} {m n : Nat}

/-- From before the values `rest` of `b`, the run ends with `e` before it leaves an `n`-th block. -/
def EndsIn (f : Func) (n : Nat) (b : BlockId) (rest : List ValueId) (s : I.State) (e : I.Halt) :
    Prop :=
  match n with
  | 0 => False
  | n + 1 => (rest.foldlM f.exec s >>= f.leave b >>= f.run n) = .error e

theorem endsIn_values : f.EndsIn n b (f.block b).values s e ↔ f.run n (b, s) = .error e := by
  cases n with
  | zero => exact ⟨False.elim, fun h => nomatch h⟩
  | succ n => exact Iff.rfl

theorem ends_iff_endsIn : f.Ends (b, s) e ↔ ∃ n, f.EndsIn n b (f.block b).values s e :=
  exists_congr fun _ => endsIn_values.symm

theorem EndsIn.mono (h : f.EndsIn m b rest s e) (hmn : m ≤ n) : f.EndsIn n b rest s e := by
  cases m with
  | zero => exact h.elim
  | succ m =>
    obtain ⟨k, rfl⟩ := Nat.exists_eq_add_of_le hmn
    rw [Nat.add_right_comm]
    unfold EndsIn at h ⊢
    cases hx : rest.foldlM f.exec s >>= f.leave b with
    | error e' => rwa [hx] at h
    | ok q =>
      rw [hx] at h
      exact run_error_add h

/-- Instructions that all run. -/
theorem endsIn_append (h : seg.foldlM f.exec s = .ok s') :
    f.EndsIn n b (seg ++ rest) s e ↔ f.EndsIn n b rest s' e := by
  cases n with
  | zero => exact Iff.rfl
  | succ n =>
    unfold EndsIn
    rw [List.foldlM_append, h]
    exact Iff.rfl

/-- The end of a block that control leaves. -/
theorem endsIn_leave (h : f.leave b s = .ok (c, s')) :
    f.EndsIn (n + 1) b [] s e ↔ f.EndsIn n c (f.block c).values s' e := by
  rw [endsIn_values]
  unfold EndsIn
  rw [List.foldlM_nil]
  change (f.leave b s >>= f.run n) = .error e ↔ _
  rw [h]
  exact Iff.rfl

/-- The end of a block that ends the run. -/
theorem endsIn_halt (h : f.leave b s = .error e) : f.EndsIn (n + 1) b [] s e := by
  unfold EndsIn
  rw [List.foldlM_nil]
  change (f.leave b s >>= f.run n) = .error e
  rw [h]
  rfl

end SsaJit.Func
