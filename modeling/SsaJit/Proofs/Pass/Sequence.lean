import SsaJit.Pass.Pipeline
import SsaJit.Proofs.Pass.Combine
import SsaJit.Proofs.Pass.CommonValue
import SsaJit.Proofs.Pass.ConstProp
import SsaJit.Proofs.Pass.ControlFlow
import SsaJit.Proofs.Pass.Dead
import SsaJit.Proofs.Pass.Hoist
import SsaJit.Proofs.Pass.Promote
import SsaJit.Proofs.Pass.Reassociate
import SsaJit.Proofs.Ssa.Form

/-! Optimisations in sequence. A function as builders leave it comes out of each of them as builders
would have left it, so any of them can follow: whatever the order and the number, no run faults and the
verifier has nothing to say in between. What builders promise beyond consistency is needed, each part
of it. -/

namespace SsaJit

variable {f g : Func}

/-- A function as builders leave it, with all that they promise of the data. -/
structure Func.Built (f : Func) : Prop where
  consistent : f.Consistent
  tidy : f.Tidy True

namespace Func

theorem Built.good (h : f.Built) : f.Good True := ⟨h.consistent.ssa, h.tidy⟩

theorem Good.built (h : f.Good True) : f.Built :=
  ⟨h.ssa.consistent (h.tidy.params trivial) h.tidy.stores, h.tidy⟩

theorem Consistent.built (h : f.Consistent) (hconsts : f.ConstsFit) (htypes : f.TypesValid)
    (hstores : f.StoresUnused) (hparams : f.ParamsBare) (hends : f.EndsBare) : f.Built :=
  ⟨h, hconsts, htypes, hstores, fun _ => hparams, fun _ => hends⟩

end Func

namespace Pass

theorem named_name (p : Pass) : named p.name = .ok p := by cases p <;> rfl

/-- One optimisation. -/
theorem run_built (p : Pass) (h : f.Built) : ∃ g ch, p.run f = .ok (g, ch) ∧ g.Built := by
  suffices ∃ g ch, p.run f = .ok (g, ch) ∧ g.Good True by
    obtain ⟨g, ch, hg, hgood⟩ := this
    exact ⟨g, ch, hg, hgood.built⟩
  cases p with
  | instcombine => exact Func.combine_good h.good
  | simplifycfg => exact Func.simplifyControlFlow_good h.good
  | licm => exact Func.hoist_good h.good
  | dce => exact Func.removeDead_good h.good
  | cse => exact Func.shareCommon_good h.good
  | reassociate => exact Func.reassociate_good h.good
  | sroa => exact Func.promote_good h.good
  | sccp => exact Func.propagateConstants_good h.good

/-- Any number of them, by name. -/
theorem runNamed_built (ps : List Pass) (h : f.Built) :
    ∃ l g, runNamed (ps.map name) f = (.ok l, g) ∧ l.length = ps.length ∧
      (∀ x ∈ l, x.2.Built) ∧ g.Built := by
  induction ps generalizing f with
  | nil => exact ⟨[], f, rfl, rfl, by simp, h⟩
  | cons p ps ih =>
    obtain ⟨k, ch, hk, hbuilt⟩ := p.run_built h
    obtain ⟨l, g, hg, hlen, hall, hlast⟩ := ih hbuilt
    refine ⟨(ch, k) :: l, g, ?_, by simp [hlen], fun x hx => ?_, hlast⟩
    · simp only [List.map_cons, runNamed, named_name, Outcome.ok_bind, hk, hg]
      rfl
    · rcases List.mem_cons.mp hx with rfl | hx
      · exact hbuilt
      · exact hall x hx

end Pass

namespace Pipeline

theorem run_built (p : Pipeline) (h : f.Built) (t : Tally) :
    ∃ g t' ch, p.run f t = .ok (g, t', ch) ∧ g.Built := by
  have hrun := Outcome.foldlM_keeps (l := p.passes) (b := (f, t, false))
    (P := fun s : Func × Tally × Bool => s.1.Built)
    (g := fun s q => q.run s.1 >>= fun x => .ok (x.1, s.2.1.add q x.2, s.2.2 || x.2)) ?_ h
  · obtain ⟨⟨g, t', ch⟩, hg, hbuilt⟩ := hrun
    exact ⟨g, t', ch, hg, hbuilt⟩
  · rintro ⟨k, t, ch⟩ q _ hk
    obtain ⟨g, more, hg, hbuilt⟩ := q.run_built hk
    exact ⟨(g, t.add q more, ch || more), by simp only [hg, Outcome.ok_bind], hbuilt⟩

theorem runUntilFixed_built (p : Pipeline) (n : Nat) (h : f.Built) (t : Tally) :
    ∃ g t', p.runUntilFixed n f t = .ok (g, t') ∧ g.Built := by
  induction n generalizing f t with
  | zero => exact ⟨f, t, rfl, h⟩
  | succ n ih =>
    obtain ⟨k, t', ch, hk, hbuilt⟩ := p.run_built h t
    rw [runUntilFixed, hk]
    cases ch with
    | false => exact ⟨k, t', rfl, hbuilt⟩
    | true => exact ih hbuilt t'

end Pipeline

namespace Pass

/-- A consistent function whose data is as builders make it stays so after each of any number of
optimisations in any order, by themselves and in a pipeline that is run until nothing changes. -/
theorem sequence_stays_consistent (ps : List Pass) (h : f.Consistent) (hconsts : f.ConstsFit)
    (htypes : f.TypesValid) (hstores : f.StoresUnused) (hparams : f.ParamsBare) (hends : f.EndsBare) :
    (∃ l g, runNamed (ps.map name) f = (.ok l, g) ∧ l.length = ps.length ∧
      (∀ x ∈ l, x.2.Consistent ∧ x.2.Tidy True) ∧ g.Consistent) ∧
    ∀ n t, ∃ g t', Pipeline.runUntilFixed ⟨ps⟩ n f t = .ok (g, t') ∧ g.Consistent := by
  have hbuilt := h.built hconsts htypes hstores hparams hends
  obtain ⟨l, g, hg, hlen, hall, hlast⟩ := runNamed_built ps hbuilt
  refine ⟨⟨l, g, hg, hlen, fun x hx => ⟨(hall x hx).consistent, (hall x hx).tidy⟩, hlast.consistent⟩,
    fun n t => ?_⟩
  obtain ⟨k, t', hk, hkbuilt⟩ := Pipeline.runUntilFixed_built ⟨ps⟩ n hbuilt t
  exact ⟨k, t', hk, hkbuilt.consistent⟩

/-- A slot that one branch writes, read where both meet. -/
def kept : Func where
  name := "kept"
  ret := .i32
  params := [.i1, .i32]
  values := #[
    { op := .param, type := .i1, block := some 0 },
    { op := .param, type := .i32, block := some 0, aux := 1 },
    { op := .alloca, type := .ptr, block := some 0, aux := 4 },
    { op := .store, type := .void, block := some 1, args := [.value 1, .value 2] },
    { op := .load, type := .i32, block := some 2, args := [.value 2] },
    { op := .add, type := .i32, block := some 2, args := [.value 4, .value 4] }]
  blocks := #[
    { values := [0, 1, 2], kind := .branch, control := .value 0, succs := [1, 2] },
    { values := [3], kind := .jump, succs := [2], preds := [0] },
    { values := [4, 5], kind := .ret, control := .value 5, preds := [0, 1] }]
  layout := [0, 1, 2]
  paramValues := [0, 1]

/-- The slot becomes a phi, which a round of all optimisations leaves. -/
theorem sequence_stays_consistent_kept : kept.Consistent ∧ kept.ConstsFit ∧ kept.TypesValid ∧
    kept.StoresUnused ∧ kept.ParamsBare ∧ kept.EndsBare ∧
    ∃ l g, runNamed ["sroa", "sccp", "cse"] kept = (.ok l, g) ∧ l.length = 3 ∧
      (∀ x ∈ l, x.2.Consistent ∧ x.2.Tidy True) ∧ g.Consistent ∧
      (g.block 2).values = [7, 5] ∧ (g.value 7).op = .phi ∧ (g.value 7).args = [.value 6, .value 1] := by
  have hcons : kept.Consistent := by decide +kernel
  have hconsts : kept.ConstsFit := by decide +kernel
  have htypes : kept.TypesValid := by decide +kernel
  have hstores : kept.StoresUnused := by decide +kernel
  have hparams : kept.ParamsBare := by decide +kernel
  have hends : kept.EndsBare := by decide +kernel
  obtain ⟨⟨l, g, hg, hlen, hall, hlast⟩, -⟩ := sequence_stays_consistent [.sroa, .sccp, .cse] hcons
    hconsts htypes hstores hparams hends
  have hrun : (fun k : Func => ((k.block 2).values, (k.value 7).op, (k.value 7).args))
      (runNamed ["sroa", "sccp", "cse"] kept).2 = ([7, 5], .phi, [.value 6, .value 1]) := by
    decide +kernel
  have hg' : (runNamed ["sroa", "sccp", "cse"] kept).2 = g := congrArg Prod.snd hg
  rw [hg'] at hrun
  obtain ⟨hvals, hphi⟩ := Prod.mk.inj hrun
  obtain ⟨hop, hargs⟩ := Prod.mk.inj hphi
  exact ⟨hcons, hconsts, htypes, hstores, hparams, hends, l, g, hg, hlen, hall, hlast, hvals, hop, hargs⟩

/-- A division by a constant that has no bits in its type. -/
def divided : Func where
  name := "divided"
  ret := .i8
  params := []
  values := #[
    { op := .const, type := .i8, block := some 0, aux := 1 },
    { op := .const, type := .i8, block := some 0, aux := 0x100 },
    { op := .sdiv, type := .i8, block := some 0, args := [.value 0, .value 1] }]
  blocks := #[{ values := [0, 1, 2], kind := .ret, control := .value 2 }]
  layout := [0]

/-- A lane taken out of a vector of vectors. -/
def layered : Func where
  name := "layered"
  ret := .void
  params := []
  values := #[
    { op := .const, type := .vec .vector 2, block := some 0, lanes := some [0, 0] },
    { op := .extract, type := .vec .void 0, block := some 0, args := [.value 0] }]
  blocks := #[{ values := [0, 1], kind := .ret }]
  layout := [0]

/-- A copy of a store. -/
def echoed : Func where
  name := "echoed"
  ret := .void
  params := []
  values := #[
    { op := .alloca, type := .ptr, block := some 0, aux := 4 },
    { op := .const, type := .i32, block := some 0, aux := 1 },
    { op := .store, type := .void, block := some 0, args := [.value 1, .value 0] },
    { op := .copy, type := .void, block := some 0, args := [.value 2] }]
  blocks := #[{ values := [0, 1, 2, 3], kind := .ret }]
  layout := [0]

/-- A parameter that names a phi. -/
def handed : Func where
  name := "handed"
  ret := .i32
  params := [.i32]
  values := #[
    { op := .const, type := .i32, block := some 0, aux := 5 },
    { op := .phi, type := .i32, block := some 1, args := [.value 0] },
    { op := .param, type := .i32, block := some 1, args := [.value 1] }]
  blocks := #[
    { values := [0], kind := .jump, succs := [1] },
    { values := [1, 2], kind := .ret, control := .value 2, preds := [0] }]
  layout := [0, 1]

/-- Consistency alone is not enough. Each of these functions breaks one of the other promises, and there
is an optimisation that faults on it or leaves what the verifier finds fault with. -/
theorem consistent_not_enough :
    (divided.Consistent ∧ Pass.instcombine.run divided = Outcome.crash .divideByZero) ∧
    (layered.Consistent ∧ Pass.sccp.run layered = Outcome.crash .outOfRange) ∧
    (echoed.Consistent ∧ ∃ g ch, Pass.sroa.run echoed = .ok (g, ch) ∧ ¬ g.Consistent) ∧
    (handed.Consistent ∧ ∃ g ch, Pass.sccp.run handed = .ok (g, ch) ∧ ¬ g.Consistent) ∧
    (aside.Consistent ∧ Pass.dce.run aside = Outcome.crash .outOfRange) := by
  refine ⟨⟨by decide +kernel, rfl⟩, ⟨by decide +kernel, rfl⟩,
    ⟨by decide +kernel, _, _, rfl, by decide +kernel⟩,
    ⟨by decide +kernel, _, _, rfl, by decide +kernel⟩, ⟨by decide +kernel, rfl⟩⟩

end Pass

end SsaJit
