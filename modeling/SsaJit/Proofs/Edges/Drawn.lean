import SsaJit.Proofs.Build.Finish
import SsaJit.Proofs.Edges.Redirect

/-! Functions drawn by hand: from a new function, blocks, values and ends in any order. However a
function has been drawn, each edge is entered as often at its one end as at its other; and where a
block loses edges, its phis stay in step and keep what they have for the predecessors that are left. -/

namespace SsaJit.Func

variable {f g : Func} {b c d s old repl : BlockId} {v w : ValueId} {x : Value} {i : Nat}

/-! ## Edits of values -/

theorem Homed.newBlock (h : f.Homed) : f.newBlock.1.Homed :=
  ⟨fun b v hv => h.home b v (by simpa using hv), fun b => by simpa using h.nodup b⟩

theorem Homed.fresh (h : f.Homed) : f.numValues ∉ (f.block b).values :=
  fun hv => Nat.lt_irrefl _ (h.lt hv)

/-- A new value in one block, wherever it stands there. -/
theorem Homed.grown (h : f.Homed) (hb : (g.block b).values.Perm (f.numValues :: (f.block b).values))
    (hc : ∀ c, c ≠ b → (g.block c).values = (f.block c).values)
    (hvalue : ∀ w, g.value w = if w = f.numValues then { x with block := some b } else f.value w) :
    g.Homed := by
  have hold : ∀ c, ∀ v ∈ (f.block c).values, (g.value v).block = some c := by
    intro c v hv
    rw [hvalue, if_neg (h.lt hv).ne]
    exact h.home c v hv
  refine ⟨fun c v hv => ?_, fun c => ?_⟩
  · by_cases hcb : c = b
    · subst hcb
      rcases List.mem_cons.mp (hb.subset hv) with rfl | hv
      · rw [hvalue, if_pos rfl]
      · exact hold c v hv
    · exact hold c v (hc c hcb ▸ hv)
  · by_cases hcb : c = b
    · subst hcb
      exact hb.nodup_iff.mpr (List.nodup_cons.mpr ⟨h.fresh, h.nodup c⟩)
    · exact hc c hcb ▸ h.nodup c

theorem Homed.inserted (h : f.Homed) (hb : b < f.numBlocks) (hi : i ≤ (f.block b).values.length) :
    (f.inserted b i x).Homed := by
  refine h.grown ?_ (fun c hcb => ?_) fun w => value_inserted
  · rw [block_inserted hb, if_pos rfl]
    exact List.perm_insertIdx _ _ hi
  · rw [block_inserted hb, if_neg hcb]

theorem Homed.appended (h : f.Homed) (hb : b < f.numBlocks) : (f.appended b x).Homed := by
  refine h.grown ?_ (fun c hcb => ?_) fun w => value_appended
  · rw [block_appended hb, if_pos rfl]
    exact List.perm_append_singleton _ _
  · rw [block_appended hb, if_neg hcb]

theorem Homed.removeValue (h : f.Homed) : (f.removeValue b v).Homed := by
  by_cases hin : v ∈ (f.block b).values
  · have hb : b < f.numBlocks := by
      by_contra hge
      rw [block_of_le (Nat.le_of_not_lt hge)] at hin
      cases hin
    refine ⟨fun c w hw => ?_, fun c => ?_⟩
    · rw [block_removeValue hb hin] at hw
      rw [value_removeValue (h.lt hin) hin]
      split at hw
      · next hc =>
        subst hc
        obtain ⟨hne, hw⟩ := (h.nodup c).mem_erase_iff.mp hw
        rw [if_neg hne]
        exact h.home c w hw
      · next hc =>
        have hne : w ≠ v := fun heq => hc (h.unique hw (heq.symm ▸ hin))
        rw [if_neg hne]
        exact h.home c w hw
    · rw [block_removeValue hb hin]
      split
      · exact (h.nodup b).erase v
      · exact h.nodup c
  · rwa [Func.removeValue, if_neg (by simpa using hin)]

theorem Homed.setArgs (h : f.Homed) {args : List Operand} :
    (f.modifyValue v fun x => { x with args }).Homed := by
  refine ⟨fun c w hw => ?_, h.nodup⟩
  by_cases hv : v < f.numValues
  · rw [value_modifyValue hv]
    split
    · next heq => exact heq ▸ h.home c w hw
    · exact h.home c w hw
  · have hne : w ≠ v := fun heq => hv (heq ▸ h.lt hw)
    rw [value_modifyValue_ne hne]
    exact h.home c w hw

/-! ## Ends of blocks -/

theorem EdgesMeet.newBlock (h : f.EdgesMeet) : f.newBlock.1.EdgesMeet := by
  intro b c
  simpa using h b c

/-- What leaves successors and predecessors alone. -/
theorem EdgesMeet.of_ends (h : f.EdgesMeet) (hends : ∀ c, (g.block c).succs = (f.block c).succs ∧
    (g.block c).preds = (f.block c).preds) : g.EdgesMeet := by
  intro b c
  rw [(hends b).1, (hends c).2]
  exact h b c

theorem EdgesMeet.addEdge (h : f.EdgesMeet) (hb : b < f.numBlocks) (hc : c < f.numBlocks) :
    (f.addEdge b c).EdgesMeet := by
  intro x y
  have hxy := h x y
  rw [block_addEdge hb hc, block_addEdge hb hc]
  have hsuccs : (if x = b then (f.block x).succs ++ [c] else (f.block x).succs).count y =
      (f.block x).succs.count y + if x = b ∧ y = c then 1 else 0 := by
    by_cases hx : x = b
    · simp [hx, List.count_singleton, eq_comm (a := c)]
    · simp [hx]
  have hpreds : (if y = c then (f.block y).preds ++ [b] else (f.block y).preds).count x =
      (f.block y).preds.count x + if x = b ∧ y = c then 1 else 0 := by
    by_cases hy : y = c
    · simp [hy, List.count_singleton, eq_comm (a := b)]
    · simp [hy]
  exact hsuccs.trans (by rw [hxy, ← hpreds])

/-- Edges are joined at both ends, and values are where they say. -/
structure Joined (f : Func) : Prop where
  homed : f.Homed
  edges : f.EdgesMeet

namespace Joined

theorem addEdge (h : f.Joined) (hb : b < f.numBlocks) (hc : c < f.numBlocks) :
    (f.addEdge b c).Joined := by
  have hvals : ∀ d, ((f.addEdge b c).block d).values = (f.block d).values :=
    fun d => by rw [block_addEdge hb hc]
  exact ⟨⟨fun d v hv => h.homed.home d v (hvals d ▸ hv), fun d => hvals d ▸ h.homed.nodup d⟩,
    h.edges.addEdge hb hc⟩

theorem linked {l : List BlockId} (h : f.Joined) (hb : b < f.numBlocks)
    (hl : ∀ c ∈ l, c < f.numBlocks) : (f.linked b l).Joined := by
  induction l generalizing f with
  | nil => exact h
  | cons t l ih =>
    have hnum : (f.addEdge b t).numBlocks = f.numBlocks := by simp [Func.addEdge]
    refine ih (h.addEdge hb (hl t List.mem_cons_self)) (by rwa [hnum]) fun c hc => ?_
    rw [hnum]
    exact hl c (List.mem_cons_of_mem _ hc)

/-- A block may end as it will, as long as it leads where it did. -/
theorem modifyBlock {k : Block → Block} (h : f.Joined) (hb : b < f.numBlocks)
    (hk : ∀ blk, (k blk).values = blk.values ∧ (k blk).succs = blk.succs ∧
      (k blk).preds = blk.preds) : (f.modifyBlock b k).Joined := by
  have hframe : ∀ c, ((f.modifyBlock b k).block c).values = (f.block c).values ∧
      ((f.modifyBlock b k).block c).succs = (f.block c).succs ∧
      ((f.modifyBlock b k).block c).preds = (f.block c).preds := by
    intro c
    rw [block_modifyBlock hb]
    split
    · next heq => rw [heq]; exact hk _
    · exact ⟨rfl, rfl, rfl⟩
  exact ⟨⟨fun c v hv => h.homed.home c v ((hframe c).1 ▸ hv), fun c => (hframe c).1 ▸ h.homed.nodup c⟩,
    h.edges.of_ends fun c => (hframe c).2⟩

theorem clearTerminator (h : f.Joined) (hb : b < f.numBlocks) (hg : f.clearTerminator b = .ok g) :
    g.Joined ∧ g.numBlocks = f.numBlocks ∧ ∀ c, g.phiIds c = f.phiIds c := by
  have hclear := clearTerminator_cleared h.homed h.edges hb hg
  exact ⟨⟨hclear.same.homed h.homed, hclear.edgesMeet h.edges⟩, hclear.same.numBlocks,
    fun _ => hclear.same.phiIds⟩

/-- A block is given another end. -/
theorem reended {k : Block → Block} {l : List BlockId} (h : f.Joined)
    (hk : ∀ blk, (k blk).values = blk.values ∧ (k blk).succs = blk.succs ∧ (k blk).preds = blk.preds)
    (hb : ∀ c ∈ b :: l, c < f.numBlocks)
    (hg : (f.clearTerminator b >>= fun m => .ok ((m.modifyBlock b k).linked b l)) = .ok g) :
    g.Joined ∧ g.numBlocks = f.numBlocks ∧ ∀ c, g.phiIds c = f.phiIds c := by
  obtain ⟨m, hm, hg⟩ := Outcome.bind_eq_ok.mp hg
  obtain rfl := Except.ok.inj hg
  obtain ⟨hj, hn, hphis⟩ := h.clearTerminator (hb b List.mem_cons_self) hm
  have hbm : b < m.numBlocks := hn ▸ hb b List.mem_cons_self
  have hl : ∀ c ∈ l, c < m.numBlocks := fun c hc => hn ▸ hb c (List.mem_cons_of_mem _ hc)
  refine ⟨(hj.modifyBlock hbm hk).linked (by simpa using hbm) (by simpa using hl),
    by rw [linked_frame.2.2.2.2, numBlocks_modifyBlock, hn], fun c => ?_⟩
  rw [← hphis c]
  refine phiIds_congr ?_ fun v => ?_
  · rw [block_linked (by simpa using hbm) (by simpa using hl), block_modifyBlock hbm]
    split
    · next heq => exact heq ▸ (hk _).1
    · rfl
  · rw [value, linked_frame.2.2.1]
    rfl

theorem replaceSucc (h : f.Joined) (hr : repl < f.numBlocks) (hg : f.replaceSucc b old repl = .ok g) :
    g.Joined ∧ g.numBlocks = f.numBlocks ∧ ∀ c, g.phiIds c = f.phiIds c := by
  by_cases hs : old ∈ (f.block b).succs
  · obtain ⟨i, j, incoming, hred⟩ := replaceSucc_redirected h.homed h.edges hr hs hg
    exact ⟨⟨hred.same.homed h.homed, hred.edgesMeet h.edges⟩, hred.same.numBlocks,
      fun _ => hred.same.phiIds⟩
  · obtain rfl : f = g := Except.ok.inj ((replaceSucc_absent hs).symm.trans hg)
    exact ⟨h, rfl, fun _ => rfl⟩

theorem newBlock (h : f.Joined) : f.newBlock.1.Joined :=
  ⟨h.homed.newBlock, h.edges.newBlock⟩

theorem appended (h : f.Joined) (hb : b < f.numBlocks) : (f.appended b x).Joined := by
  refine ⟨h.homed.appended hb, h.edges.of_ends fun c => ?_⟩
  rw [block_appended hb]
  split
  · next heq => rw [heq]; exact ⟨rfl, rfl⟩
  · exact ⟨rfl, rfl⟩

theorem inserted (h : f.Joined) (hb : b < f.numBlocks) (hi : i ≤ (f.block b).values.length) :
    (f.inserted b i x).Joined := by
  refine ⟨h.homed.inserted hb hi, h.edges.of_ends fun c => ?_⟩
  rw [block_inserted hb]
  split
  · next heq => rw [heq]; exact ⟨rfl, rfl⟩
  · exact ⟨rfl, rfl⟩

theorem removeValue (h : f.Joined) (hb : b < f.numBlocks) : (f.removeValue b v).Joined := by
  refine ⟨h.homed.removeValue, h.edges.of_ends fun c => ?_⟩
  by_cases hin : v ∈ (f.block b).values
  · rw [block_removeValue hb hin]
    split
    · next heq => rw [heq]; exact ⟨rfl, rfl⟩
    · exact ⟨rfl, rfl⟩
  · rw [Func.removeValue, if_neg (by simpa using hin)]
    exact ⟨rfl, rfl⟩

theorem empty (name : String) (ret : Ty) (params : List Ty) : (Func.empty name ret params).Joined := by
  have hdraft := (Build.begun_empty name ret params).draft
  exact ⟨⟨fun b v hv => (hdraft.listed v b).mpr hv, hdraft.nodup⟩, hdraft.edges⟩

end Joined

/-! ## Edits in sequence -/

/-- One edit: of the graph, or of the values that it is drawn around. -/
inductive Edit
  | newBlock
  | jump (b target : BlockId)
  | branch (b : BlockId) (cond : Operand) (yes no : BlockId)
  | ret (b : BlockId) (result : Operand)
  | unreachable (b : BlockId)
  | clear (b : BlockId)
  | redirect (b old repl : BlockId)
  | append (b : BlockId) (x : Value)
  | insert (b : BlockId) (i : Int) (x : Value)
  | remove (b : BlockId) (v : ValueId)
  | setArgs (v : ValueId) (args : List Operand)

namespace Edit

/-- The blocks that an edit is about. -/
def blocks : Edit → List BlockId
  | newBlock | setArgs _ _ => []
  | jump b c => [b, c]
  | branch b _ yes no => [b, yes, no]
  | ret b _ | unreachable b | clear b | append b _ | insert b _ _ | remove b _ => [b]
  | redirect b old repl => [b, old, repl]

/-- Does the edit leave values alone? -/
def ofGraph : Edit → Bool
  | append _ _ | insert _ _ _ | remove _ _ | setArgs _ _ => false
  | _ => true

def apply (f : Func) : Edit → Outcome Func
  | newBlock => .ok f.newBlock.1
  | jump b c => f.setJump b c
  | branch b cond yes no => f.setBranch b cond yes no
  | ret b result => f.setRet b result
  | unreachable b => f.setUnreachable b
  | clear b => f.clearTerminator b
  | redirect b old repl => f.replaceSucc b old repl
  | append b x => .ok (f.appendValue b x).1
  | insert b i x => (·.1) <$> f.insertValue b i x
  | remove b v => .ok (f.removeValue b v)
  | setArgs v args => .ok (f.modifyValue v fun x => { x with args })

/-- How many blocks the edit adds. -/
def numNew : Edit → Nat
  | newBlock => 1
  | _ => 0

/-- An edit keeps edges joined and values in their places; one of the graph leaves the phis where they
are. -/
theorem keeps {e : Edit} (h : f.Joined) (hb : ∀ b ∈ e.blocks, b < f.numBlocks)
    (hg : e.apply f = .ok g) : g.Joined ∧ g.numBlocks = f.numBlocks + e.numNew ∧
      (e.ofGraph = true → ∀ c, g.phiIds c = f.phiIds c) := by
  -- the edits that end a block, which add none
  have hend : g.Joined ∧ g.numBlocks = f.numBlocks ∧ (∀ c, g.phiIds c = f.phiIds c) →
      g.Joined ∧ g.numBlocks = f.numBlocks + 0 ∧ (true = true → ∀ c, g.phiIds c = f.phiIds c) :=
    fun h => ⟨h.1, h.2.1, fun _ => h.2.2⟩
  cases e with
  | newBlock =>
    obtain rfl : f.newBlock.1 = g := Except.ok.inj hg
    exact ⟨h.newBlock, numBlocks_newBlock, fun _ c => phiIds_congr (by rw [block_newBlock]) fun _ => rfl⟩
  | jump b c =>
    exact hend (h.reended (k := fun blk => { blk with kind := .jump }) (l := [c])
      (fun _ => ⟨rfl, rfl, rfl⟩) hb hg)
  | branch b cond yes no =>
    exact hend (h.reended (k := fun blk => { blk with kind := .branch, control := cond })
      (l := [yes, no]) (fun _ => ⟨rfl, rfl, rfl⟩) hb hg)
  | ret b result =>
    exact hend (h.reended (k := fun blk => { blk with kind := .ret, control := result }) (l := [])
      (fun _ => ⟨rfl, rfl, rfl⟩) hb hg)
  | unreachable b =>
    exact hend (h.reended (k := fun blk => { blk with kind := .unreachable }) (l := [])
      (fun _ => ⟨rfl, rfl, rfl⟩) hb hg)
  | clear b => exact hend (h.clearTerminator (hb b (by simp [blocks])) hg)
  | redirect b old repl => exact hend (h.replaceSucc (hb repl (by simp [blocks])) hg)
  | append b x =>
    obtain rfl : f.appended b x = g := Except.ok.inj hg
    exact ⟨h.appended (hb b (by simp [blocks])), numBlocks_appended, fun hgraph => by cases hgraph⟩
  | insert b i x =>
    obtain ⟨k, hk, rfl⟩ := Outcome.map_eq_ok.mp (show (·.1) <$> f.insertValue b i x = .ok g from hg)
    unfold insertValue at hk
    split at hk
    · cases hk
    · next hin =>
      obtain rfl := Except.ok.inj hk
      exact ⟨h.inserted (hb b (by simp [blocks])) (by omega), numBlocks_inserted,
        fun hgraph => by cases hgraph⟩
  | remove b v =>
    obtain rfl : f.removeValue b v = g := Except.ok.inj hg
    exact ⟨h.removeValue (hb b (by simp [blocks])), numBlocks_removeValue,
      fun hgraph => by cases hgraph⟩
  | setArgs v args =>
    obtain rfl := Except.ok.inj hg
    exact ⟨⟨h.homed.setArgs, h.edges⟩, by simp [numNew], fun hgraph => by cases hgraph⟩

/-- Without phis, nothing keeps an edit of the graph from being made. -/
theorem answers {e : Edit} (h : f.Joined) (he : e.ofGraph = true) (hphis : ∀ c, f.phiIds c = []) :
    (e.apply f).Answers := by
  have hstep : ∀ c, f.PhisInStep c := by
    intro c v hv hphi
    have hin : v ∈ f.phiIds c := mem_phiIds.mpr ⟨hv, hphi⟩
    rw [hphis c] at hin
    cases hin
  have hclear : ∀ b, (f.clearTerminator b).Answers :=
    fun b => clearTerminator_answers h.homed h.edges fun s _ => hstep s
  cases e with
  | newBlock => exact ⟨_, rfl⟩
  | jump b c => exact Outcome.answers_bind_pure.mpr (hclear b)
  | branch b cond yes no => exact Outcome.answers_bind_pure.mpr (hclear b)
  | ret b result => exact Outcome.answers_bind_pure.mpr (hclear b)
  | unreachable b => exact Outcome.answers_bind_pure.mpr (hclear b)
  | clear b => exact hclear b
  | redirect b old repl => exact replaceSucc_answers h.homed h.edges (hstep old) b repl
  | append b x => cases he
  | insert b i x => cases he
  | remove b v => cases he
  | setArgs v args => cases he

/-- Edits made one after the other. -/
def run (es : List Edit) (f : Func) : Outcome Func := es.foldlM apply f

/-- Each edit is about blocks that are there when it is made; there are `n` at first. -/
def Grounded : Nat → List Edit → Prop
  | _, [] => True
  | n, e :: es => (∀ b ∈ e.blocks, b < n) ∧ Grounded (n + e.numNew) es

theorem run_joined {es : List Edit} (h : f.Joined) (hes : Grounded f.numBlocks es)
    (hg : run es f = .ok g) : g.Joined := by
  induction es generalizing f with
  | nil =>
    obtain rfl : f = g := Except.ok.inj hg
    exact h
  | cons e es ih =>
    obtain ⟨k, hk, hg⟩ := Outcome.bind_eq_ok.mp ((List.foldlM_cons ..).symm.trans hg)
    obtain ⟨hj, hn, -⟩ := keeps h hes.1 hk
    exact ih hj (hn ▸ hes.2) hg

theorem run_answers {es : List Edit} (h : f.Joined) (hes : Grounded f.numBlocks es)
    (hgraph : ∀ e ∈ es, e.ofGraph = true) (hphis : ∀ c, f.phiIds c = []) : (run es f).Answers := by
  induction es generalizing f with
  | nil => exact ⟨f, rfl⟩
  | cons e es ih =>
    have he := hgraph e List.mem_cons_self
    obtain ⟨k, hk⟩ := answers h he hphis
    obtain ⟨hj, hn, hsame⟩ := keeps h hes.1 hk
    obtain ⟨g, hg⟩ := ih hj (hn ▸ hes.2) (fun e he => hgraph e (List.mem_cons_of_mem _ he))
      fun c => (hsame he c).trans (hphis c)
    exact ⟨g, (List.foldlM_cons ..).trans (by rw [hk]; exact hg)⟩

end Edit

/-- Functions that edits make of a new one. -/
def Drawn (f : Func) : Prop := ∃ name ret params es,
  Edit.Grounded 1 es ∧ Edit.run es (Func.empty name ret params) = .ok f

theorem numBlocks_empty (name : String) (ret : Ty) (params : List Ty) :
    (Func.empty name ret params).numBlocks = 1 :=
  (Build.begun_empty name ret params).numBlocks

theorem phiIds_empty (name : String) (ret : Ty) (params : List Ty) :
    (Func.empty name ret params).phiIds c = [] := by
  rw [phiIds, List.filter_eq_nil_iff]
  intro v hv
  obtain ⟨-, t, -, hval⟩ := (Build.begun_empty name ret params).value_of_mem hv
  rw [hval]
  simp [Build.parameter]

theorem Drawn.joined (h : f.Drawn) : f.Joined := by
  obtain ⟨name, ret, params, es, hes, hf⟩ := h
  exact Edit.run_joined (.empty name ret params) (numBlocks_empty name ret params ▸ hes) hf

/-- Edits of the graph alone can be made in any order. However a function has been drawn, edges have
the same multiplicity at both ends, a block whose end is cleared is gone from among the predecessors of
the blocks it led to, and a redirected edge has left its first place there; their phis lose just what
they had for it. -/
theorem drawn_in_step :
    (∀ name ret params es, Edit.Grounded 1 es → (∀ e ∈ es, e.ofGraph = true) →
      ∃ f, Edit.run es (Func.empty name ret params) = .ok f ∧ f.Drawn) ∧
    ∀ f : Func, f.Drawn →
      (∀ b s, (f.block b).succs.count s = (f.block s).preds.count b) ∧
      (∀ b, b < f.numBlocks → (∀ s ∈ (f.block b).succs, f.PhisInStep s) →
        (f.clearTerminator b).Answers) ∧
      (∀ b g, b < f.numBlocks → f.clearTerminator b = .ok g → ∀ s, f.PhisInStep s →
        g.PhisInStep s ∧ (g.block s).preds = (f.block s).preds.filter (· != b) ∧
        ∀ v ∈ f.phiIds s, (g.value v).args.zip (g.block s).preds =
          ((f.value v).args.zip (f.block s).preds).filter fun x => x.2 != b) ∧
      ∀ b old repl, repl < f.numBlocks → repl ≠ old → f.PhisInStep old →
        ∃ g, f.replaceSucc b old repl = .ok g ∧ (old ∈ (f.block b).succs →
          ∃ j, (f.block old).predIndex? b = some j ∧ g.PhisInStep old ∧
            (g.block old).preds = (f.block old).preds.eraseIdx j ∧
            ∀ v ∈ f.phiIds old, (g.value v).args.zip (g.block old).preds =
              ((f.value v).args.zip (f.block old).preds).eraseIdx j) := by
  refine ⟨fun name ret params es hes hgraph => ?_, fun f hf => ?_⟩
  · obtain ⟨f, hf⟩ := Edit.run_answers (.empty name ret params)
      (numBlocks_empty name ret params ▸ hes) hgraph fun c => phiIds_empty name ret params
    exact ⟨f, hf, name, ret, params, es, hes, hf⟩
  obtain ⟨hhomed, hedges⟩ := hf.joined
  refine ⟨hedges, fun b _ hstep => clearTerminator_answers hhomed hedges hstep,
    fun b g hb hg s hs => ?_, fun b old repl hr hne hstep => ?_⟩
  · have hclear := clearTerminator_cleared hhomed hedges hb hg
    refine ⟨hclear.inStep s hs, hclear.preds s, fun v hv => ?_⟩
    exact hclear.phis s hs v (mem_phiIds.mp hv).1 (mem_phiIds.mp hv).2
  · obtain ⟨g, hg⟩ := replaceSucc_answers hhomed hedges hstep b repl
    refine ⟨g, hg, fun hs => ?_⟩
    obtain ⟨i, j, incoming, hred⟩ := replaceSucc_redirected hhomed hedges hr hs hg
    obtain ⟨hin, hzip⟩ := hred.keeps hne.symm hstep
    refine ⟨j, hred.pred, hin, ?_, fun v hv => ?_⟩
    · rw [hred.preds, if_pos rfl, if_neg hne.symm, List.append_nil]
    · rw [hzip v hv, if_pos rfl]

/-- A branch whose edges both lead to a loop, drawn around a phi. -/
def knotEdits : List Edit :=
  [.newBlock, .newBlock, .append 0 { op := .const, type := .i32, aux := 10 },
    .append 0 { op := .const, type := .i32, aux := 20 }, .append 0 { op := .const, type := .i1, aux := 1 },
    .branch 0 (.value 2) 1 1, .jump 1 1,
    .append 1 { op := .phi, type := .i32, args := [.value 0, .value 1, .value 3] }]

def knot : Func where
  name := "knot"
  ret := .void
  params := []
  values := #[{ op := .const, type := .i32, aux := 10, block := some 0 },
    { op := .const, type := .i32, aux := 20, block := some 0 },
    { op := .const, type := .i1, aux := 1, block := some 0 },
    { op := .phi, type := .i32, args := [.value 0, .value 1, .value 3], block := some 1 }]
  blocks := #[{ values := [0, 1, 2], kind := .branch, control := .value 2, succs := [1, 1] },
    { values := [3], kind := .jump, succs := [1], preds := [0, 0, 1] }, {}]
  layout := [0, 1, 2]

theorem knot_drawn : knot.Drawn := by
  refine ⟨"knot", .void, [], knotEdits, ?_, ?_⟩
  · simp [knotEdits, Edit.Grounded, Edit.blocks, Edit.numNew]
  · rfl

theorem drawn_in_step_knot : knot.Drawn ∧ knot.PhisInStep 1 ∧
    (∃ f, Edit.run [.newBlock, .branch 0 .missing 1 1, .redirect 0 1 1, .clear 0]
      (Func.empty "knot" .void []) = .ok f ∧ f.Drawn) ∧
    (∃ g, knot.clearTerminator 0 = .ok g ∧ g.PhisInStep 1 ∧
      (g.value 3).args.zip (g.block 1).preds = [(.value 3, 1)]) ∧
    ∃ g, knot.replaceSucc 0 1 2 = .ok g ∧ g.PhisInStep 1 ∧
      (g.value 3).args.zip (g.block 1).preds = [(.value 1, 0), (.value 3, 1)] := by
  have hstep : knot.PhisInStep 1 := by unfold PhisInStep; decide
  obtain ⟨-, hclears, hcleared, hredirects⟩ := drawn_in_step.2 knot knot_drawn
  refine ⟨knot_drawn, hstep, drawn_in_step.1 _ _ _ _ ?_ ?_, ?_, ?_⟩
  · simp [Edit.Grounded, Edit.blocks, Edit.numNew]
  · decide
  · obtain ⟨g, hg⟩ := hclears 0 (by decide) (by unfold PhisInStep; decide)
    obtain ⟨hin, -, hzip⟩ := hcleared 0 g (by decide) hg 1 hstep
    exact ⟨g, hg, hin, (hzip 3 (by decide)).trans (by decide)⟩
  · obtain ⟨g, hg, hkeep⟩ := hredirects 0 1 2 (by decide) (by decide) hstep
    obtain ⟨j, hj, hin, -, hzip⟩ := hkeep (by decide)
    obtain rfl : 0 = j := Option.some.inj ((by decide : (knot.block 1).predIndex? 0 = some 0).symm.trans hj)
    exact ⟨g, hg, hin, (hzip 3 (by decide)).trans (by decide)⟩

end SsaJit.Func
