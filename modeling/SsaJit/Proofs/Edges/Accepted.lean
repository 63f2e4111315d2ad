import SsaJit.Proofs.Edges.Fold
import SsaJit.Proofs.Ssa.Form

/-! What a function that the verifier accepts promises of its edges. Each edge is entered at both ends,
but nobody counts how often: a branch may have two edges to a block that has one entry for it. That is
the only way in which a predecessor can be missed. -/

namespace SsaJit.Func

variable {f g k m : Func} {b c p s : BlockId} {v : ValueId} {i n : Nat}

/-! ## What the verifier looks at -/

/-- Edges entered at both ends, phis in step with predecessors and values where they say. -/
structure Accepted (f : Func) : Prop where
  lt : ∀ b ∈ f.layout, b < f.numBlocks
  home : ∀ b ∈ f.layout, ∀ v ∈ (f.block b).values, (f.value v).block = some b
  succs : ∀ b ∈ f.layout, ∀ s ∈ (f.block b).succs, b ∈ (f.block s).preds
  preds : ∀ b ∈ f.layout, ∀ p ∈ (f.block b).preds, b ∈ (f.block p).succs
  inStep : f.InStep
  branch : ∀ b ∈ f.layout, (f.block b).kind = .branch → (f.block b).succs.length = 2

theorem edges_entered {c : Checker} (h : c.edges b = []) :
    (∀ s ∈ (c.func.block b).succs, b ∈ (c.func.block s).preds) ∧
      ∀ p ∈ (c.func.block b).preds, b ∈ (c.func.block p).succs := by
  unfold Checker.edges at h
  obtain ⟨hs, hp⟩ := List.append_eq_nil_iff.mp h
  rw [List.flatMap_eq_nil_iff] at hs hp
  exact ⟨fun s hin => by simpa [orReport_nil] using hs s hin,
    fun p hin => by simpa [orReport_nil] using hp p hin⟩

theorem value_home {c : Checker} {late : Bool} {pos : Nat} (h : c.value b late pos v = .ok []) :
    (c.func.value v).block = some b := by
  unfold Checker.value at h
  dsimp only at h
  split at h
  · obtain ⟨l, -, h⟩ := Outcome.bind_eq_ok.mp h
    obtain ⟨h', -⟩ := List.append_eq_nil_iff.mp (Except.ok.inj h)
    simpa [orReport_nil] using (List.append_eq_nil_iff.mp h').1
  · obtain ⟨us, -, h⟩ := Outcome.bind_eq_ok.mp h
    obtain ⟨l, -, h⟩ := Outcome.bind_eq_ok.mp h
    obtain ⟨h', -⟩ := List.append_eq_nil_iff.mp (Except.ok.inj h)
    simpa [orReport_nil] using (List.append_eq_nil_iff.mp h').1

theorem terminator_branch {c : Checker} (h : c.terminator b = .ok [])
    (hk : (c.func.block b).kind = .branch) : (c.func.block b).succs.length = 2 := by
  unfold Checker.terminator at h
  simp only [hk] at h
  by_cases hc : (c.func.block b).control = .missing
  · simp [hc] at h
  · rw [if_neg hc] at h
    obtain ⟨x, -, h⟩ := Outcome.bind_eq_ok.mp h
    split at h
    · simp at h
    · obtain ⟨l, -, h⟩ := Outcome.bind_eq_ok.mp h
      simpa [orReport_nil] using (List.append_eq_nil_iff.mp (Except.ok.inj h)).1

theorem verify_accepted (h : f.verify = .ok []) : f.Accepted := by
  obtain ⟨t, -, hall⟩ := verify_nil.mp h
  have hvalue : ∀ b ∈ f.layout, ∀ v ∈ (f.block b).values, ∃ late pos,
      (f.checker t).value b late pos v = .ok [] := by
    intro b hb v hv
    obtain ⟨i, hi⟩ := List.getElem?_of_mem hv
    exact ⟨_, i, values_nil.mp (block_nil.mp (hall b hb)).2.2.2 i v hi⟩
  refine ⟨fun b hb => not_pending_lt (terminator_ne_pending (block_nil.mp (hall b hb)).2.2.1),
    fun b hb v hv => ?_, fun b hb => (edges_entered (block_nil.mp (hall b hb)).2.1).1,
    fun b hb => (edges_entered (block_nil.mp (hall b hb)).2.1).2, fun b hb v hv hphi => ?_,
    fun b hb => terminator_branch (block_nil.mp (hall b hb)).2.2.1⟩
  · obtain ⟨late, pos, hok⟩ := hvalue b hb v hv
    exact value_home hok
  · obtain ⟨late, pos, hok⟩ := hvalue b hb v hv
    exact (phi_uses (value_phi hok hphi).2).1

theorem Accepted.tabled (h : f.Accepted) (hnd : ∀ b ∈ f.layout, (f.block b).values.Nodup) :
    f.Tabled := by
  refine ⟨fun b hb => ⟨h.lt b hb, fun v hv => ?_⟩, hnd, fun b hb c hc v hvb hvc => ?_⟩
  · by_contra hge
    have hblock := h.home b hb v hv
    rw [value_of_le (Nat.le_of_not_lt hge)] at hblock
    cases hblock
  · exact Option.some.inj ((h.home b hb v hvb).symm.trans (h.home c hc v hvc))

/-! ## Predecessors that can be taken away -/

/-- Only phis can keep a predecessor where it is, and those in step do not. -/
theorem Tabled.removePred_answers (hf : f.Tabled) (hstep : f.InStep) (hb : b ∈ f.layout) {i : Int} :
    (f.removePred b i).Answers ↔ 0 ≤ i ∧ i < (f.block b).preds.length := by
  constructor
  · rintro ⟨g, hg⟩
    unfold Func.removePred at hg
    split at hg
    · cases hg
    · next hneg =>
      obtain ⟨l, hl, -⟩ := Outcome.bind_eq_ok.mp hg
      have hlt : i.toNat < (f.block b).preds.length := by
        by_contra hge
        simp [dropAt, hge, Outcome.crash] at hl
      omega
  · rintro ⟨hpos, hlt⟩
    obtain ⟨n, rfl⟩ := Int.eq_ofNat_of_zero_le hpos
    have hn : n < (f.block b).preds.length := by omega
    obtain ⟨g, hg, -⟩ := removePred_spec (hf.inTables b hb).1 (hf.nodup b hb) (hf.inTables b hb).2 hn
      fun v hv hphi => (hstep b hb v hv hphi).symm ▸ hn
    exact ⟨g, hg⟩

/-- A branch can be folded unless both its edges lead to a block that has fewer than two entries for it
and the first of them is to stay. -/
theorem Accepted.foldBranch_answers (h : f.Accepted) (hf : f.Tabled)
    (hin : ∀ s ∈ (f.block b).succs, s ∈ f.layout) (hb : b ∈ f.layout)
    (hk : (f.block b).kind = .branch) (hn : n < 2) : (f.foldBranch b n).Answers ↔
      (n = 0 → ∀ s, (f.block b).succs = [s, s] → 2 ≤ (f.block s).preds.count b) := by
  have hlen := h.branch b hb hk
  obtain ⟨keep, hkeep⟩ : ∃ keep, (f.block b).succs[n]? = some keep :=
    ⟨_, List.getElem?_eq_getElem (by omega)⟩
  obtain ⟨drop, hdrop⟩ : ∃ drop, (f.block b).succs[1 - n]? = some drop :=
    ⟨_, List.getElem?_eq_getElem (by omega)⟩
  have hmem : drop ∈ (f.block b).succs := List.mem_of_getElem? hdrop
  have hone : 0 < (f.predPlaces drop b).length := by
    rw [length_predPlaces]
    exact List.count_pos_iff.mpr (h.succs b hb drop hmem)
  have hanswers : (f.foldBranch b n).Answers ↔
      (if drop = keep ∧ n = 0 then 1 else 0) < (f.predPlaces drop b).length := by
    constructor
    · rintro ⟨g, hg⟩
      by_contra hge
      simp only [foldBranch, Outcome.at?, hkeep, hdrop, Outcome.ok_bind,
        List.getElem?_eq_none (Nat.le_of_not_lt hge)] at hg
      cases hg
    · intro hlt
      have hplace := List.getElem?_eq_getElem hlt
      have hpred := (getElem?_predPlaces.mp hplace).1
      obtain ⟨m, hm⟩ := (hf.removePred_answers h.inStep (hin drop hmem)).mpr
        ⟨Int.natCast_nonneg _, by exact_mod_cast (List.getElem?_eq_some_iff.mp hpred).1⟩
      refine ⟨m.modifyBlock b fun blk =>
        { blk with kind := .jump, control := .missing, succs := [keep] }, ?_⟩
      simp only [foldBranch, Outcome.at?, hkeep, hdrop, hplace, Outcome.ok_bind, hm]
      rfl
  rw [hanswers, length_predPlaces]
  rw [length_predPlaces] at hone
  constructor
  · rintro hlt rfl s hs
    obtain rfl : s = keep := by simpa [hs] using hkeep
    obtain rfl : s = drop := by simpa [hs] using hdrop
    rw [if_pos ⟨rfl, rfl⟩] at hlt
    exact hlt
  · intro hall
    by_cases hboth : drop = keep ∧ n = 0
    · obtain ⟨rfl, rfl⟩ := hboth
      rw [if_pos ⟨rfl, rfl⟩]
      obtain ⟨yes, no, hs⟩ := List.length_eq_two.mp hlen
      obtain rfl : yes = drop := by simpa [hs] using hkeep
      obtain rfl : no = yes := by simpa [hs] using hdrop
      exact hall rfl no hs
    · rw [if_neg hboth]
      exact hone

/-! ## Blocks that are given up -/

theorem cutEdge_inStep (hf : k.Tabled) (hstep : k.InStep) (hs : s ∈ k.layout) :
    ∃ m, cutEdge p k s = .ok m ∧ PhisOnly k m ∧ m.InStep ∧
      ∀ c, (m.block c).succs = (k.block c).succs := by
  by_cases hp : p ∈ (k.block s).preds
  · obtain ⟨m, i, hm, -, hdrop⟩ := hf.cutEdge hstep hs hp
    refine ⟨m, hm, hdrop.phisOnly, fun c hc => ?_, fun c => (hdrop.ends c).2.2⟩
    rw [hdrop.layout] at hc
    exact hdrop.phisInStep (hf.listApart hc hs) (hstep c hc)
  · exact ⟨k, cutEdge_absent hp, .refl k, hstep, fun _ => rfl⟩

/-- Giving up the edges of a block leaves tables, phis and the other blocks' edges in order. -/
theorem clearTerminator_inStep (hf : k.Tabled) (hstep : k.InStep)
    (hin : ∀ b ∈ k.layout, ∀ s ∈ (k.block b).succs, s ∈ k.layout) (hp : p ∈ k.layout) :
    ∃ m, k.clearTerminator p = .ok m ∧ m.layout = k.layout ∧ m.Tabled ∧ m.InStep ∧
      ∀ b ∈ m.layout, ∀ s ∈ (m.block b).succs, s ∈ m.layout := by
  obtain ⟨d, hd, hsame, hdstep, hsuccs⟩ := Outcome.foldlM_keeps (g := cutEdge p) (b := k)
    (l := (k.block p).succs)
    (P := fun m => PhisOnly k m ∧ m.InStep ∧ ∀ c, (m.block c).succs = (k.block c).succs)
    (fun m s hs h => by
      obtain ⟨hsame, hmstep, hsuccs⟩ := h
      obtain ⟨m', hm', hsame', hstep', hsuccs'⟩ := cutEdge_inStep (hsame.tabled hf) hmstep
        (hsame.layout ▸ hin p hp s hs)
      exact ⟨m', hm', hsame.trans hsame', hstep', fun c => (hsuccs' c).trans (hsuccs c)⟩)
    ⟨.refl k, hstep, fun _ => rfl⟩
  have hpd : p < d.numBlocks := hsame.numBlocks ▸ (hf.inTables p hp).1
  have hended : PhisOnly k (d.modifyBlock p unended) := hsame.trans (phisOnly_unended hpd)
  refine ⟨d.modifyBlock p unended, by rw [clearTerminator_eq, hd]; rfl, hended.layout,
    hended.tabled hf, fun c hc => PhisInStep.unended (hdstep c hc) hpd, fun c hc s hs => ?_⟩
  rw [hended.layout] at hc ⊢
  rw [block_modifyBlock hpd] at hs
  split at hs
  · cases hs
  · exact hin c hc s (hsuccs c ▸ hs)

theorem Accepted.removeUnreachable_answers (h : f.Accepted) (hf : f.Tabled) (hne : f.layout ≠ [])
    (hin : ∀ b ∈ f.layout, ∀ s ∈ (f.block b).succs, s ∈ f.layout) :
    f.removeUnreachable.Answers := by
  obtain ⟨e, rest, hlay⟩ := List.exists_cons_of_ne_nil hne
  have hrpo : f.reversePostOrder = .ok (f.reversePostOrderFrom e) := by
    rw [reversePostOrder, entry, hlay]
    rfl
  obtain ⟨m, hm, -⟩ := Outcome.foldlM_keeps (g := fun f b => f.clearTerminator b) (b := f)
    (l := f.layout.filter fun b => !(f.reversePostOrderFrom e).contains b)
    (P := fun m => m.layout = f.layout ∧ m.Tabled ∧ m.InStep ∧
      ∀ b ∈ m.layout, ∀ s ∈ (m.block b).succs, s ∈ m.layout)
    (fun m p hp hkeep => by
      obtain ⟨hlay, htab, hstep, hsuccs⟩ := hkeep
      obtain ⟨m', hm', hlay', hrest⟩ := clearTerminator_inStep htab hstep hsuccs
        (hlay ▸ List.mem_of_mem_filter hp)
      exact ⟨m', hm', hlay'.trans hlay, hrest⟩)
    ⟨rfl, hf, h.inStep, hin⟩
  exact ⟨_, by rw [removeUnreachable_eq, hrpo, Outcome.ok_bind, hm]; rfl⟩

/-- What the verifier says of edges: successors and predecessors are the same blocks, whatever their
multiplicities. So any predecessor that is there can be taken away and unreachable blocks can be
dropped, and a branch can be folded unless its edges are doubled at the one end only and it is folded
along edge 0. -/
theorem accepted_edges (hv : f.verify = .ok []) (hnd : ∀ b ∈ f.layout, (f.block b).values.Nodup)
    (hin : ∀ b ∈ f.layout, ∀ s ∈ (f.block b).succs, s ∈ f.layout) :
    (∀ b ∈ f.layout, ∀ s ∈ f.layout, s ∈ (f.block b).succs ↔ b ∈ (f.block s).preds) ∧
    (∀ b ∈ f.layout, ∀ i : Int,
      (f.removePred b i).Answers ↔ 0 ≤ i ∧ i < (f.block b).preds.length) ∧
    (∀ b ∈ f.layout, (f.block b).kind = .branch → ∀ n, n < 2 → ((f.foldBranch b n).Answers ↔
      (n = 0 → ∀ s, (f.block b).succs = [s, s] → 2 ≤ (f.block s).preds.count b))) ∧
    f.removeUnreachable.Answers := by
  have h := verify_accepted hv
  have htab := h.tabled hnd
  have hne : f.layout ≠ [] := by
    intro hnil
    obtain ⟨t, ht, -⟩ := verify_nil.mp hv
    simp [Func.domTree, entry, hnil, Outcome.crash] at ht
  exact ⟨fun b hb s hs => ⟨h.succs b hb s, h.preds s hs b⟩,
    fun b hb i => htab.removePred_answers h.inStep hb,
    fun b hb hk n hn => h.foldBranch_answers htab (hin b hb) hb hk hn,
    h.removeUnreachable_answers htab hne hin⟩

/-- A branch with two edges to a block that has one entry for it. -/
def halved : Func where
  name := "halved"
  ret := .void
  params := []
  values := #[{ op := .const, type := .i1, aux := 1, block := some 0 }]
  blocks := #[{ values := [0], kind := .branch, control := .value 0, succs := [1, 1] },
    { kind := .ret, preds := [0] }]
  layout := [0, 1]

/-- The verifier accepts it, and folding it along edge 0 looks for an entry that is not there. -/
theorem accepted_edges_halved : halved.verify = .ok [] ∧
    (halved.block 0).succs.count 1 = 2 ∧ (halved.block 1).preds.count 0 = 1 ∧
    halved.foldBranch 0 0 = .crash .outOfRange ∧ (halved.foldBranch 0 1).Answers ∧
    halved.removeUnreachable.Answers := by
  have hv : halved.verify = .ok [] := isVerified_iff.mp (by decide)
  obtain ⟨-, -, hfold, hremove⟩ := accepted_edges hv (by decide) (by decide)
  exact ⟨hv, by decide, by decide, rfl, (hfold 0 (by decide) rfl 1 (by decide)).mpr nofun, hremove⟩

end SsaJit.Func
