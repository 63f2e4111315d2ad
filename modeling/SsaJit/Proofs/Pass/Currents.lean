import SsaJit.Proofs.Graph.Tree
import SsaJit.Proofs.Pass.Rename

/-! The whole walk down the dominator tree. When it is done, each read of the slot has been renamed to
the value current there, each placed phi takes from a predecessor the value current at its end, and the
accesses of the slot have been collected, each once. -/

namespace SsaJit.Func

variable {f k : Func} {b c d p q s : BlockId} {slot u v w x blank : ValueId} {o : Operand} {t : Ty}
variable {phis : PlacedPhis} {σ σ' : ValueId → ValueId} {args args' : BlockId → BlockId → Operand}
variable {dom : DomTree} {out : BlockId → ValueId} {done : BlockId → Prop}

/-- A function in which a slot is about to be promoted. The value that stands for what was not yet
written comes before all instructions. -/
structure Promoting (f : Func) (slot : ValueId) (t : Ty) (dom : DomTree) (blank : ValueId) :
    Prop where
  ssa : f.Ssa
  promotable : f.Slot slot t
  alloca : (f.value slot).op = .alloca
  home : slot ∈ (f.block f.start).values
  tree : dom.Of f f.start
  reached : ∀ b ∈ f.layout, f.Reached b
  listed : blank ∈ (f.block f.start).values
  const : (f.value blank).op = .const
  type : (f.value blank).type = t
  first : ∀ v ∈ (f.block f.start).values, (f.value v).op ≠ .phi → (f.value v).op ≠ .param →
    v ≠ blank → [blank, v].Sublist (f.block f.start).values

namespace Promoting

variable (h : Promoting f slot t dom blank)
include h

theorem not_reads : ¬ f.Reads slot slot := fun hr => by
  have := h.alloca.symm.trans hr.1
  cases this

theorem blank_clean : f.Clean slot blank := by
  refine ⟨fun hr => ?_, ?_⟩
  · have := h.const.symm.trans hr.1
    cases this
  · rintro rfl
    have := h.const.symm.trans h.alloca
    cases this

theorem slot_lt : slot < f.numValues := h.ssa.listing.lt h.ssa.flow.start_mem h.home

/-- What is read is listed unless it is a store. -/
theorem listed_arg (hb : b ∈ f.layout) (hv : v ∈ (f.block b).values) (hop : (f.value v).op ≠ .param)
    (ho : .value x ∈ (f.value v).args) : (f.value x).op = .store ∨ f.IsListed x := by
  by_cases hphi : (f.value v).op = .phi
  · obtain ⟨-, p, -, hend⟩ := h.ssa.arg_pred hb hv hphi ho
    exact hend.listed h.ssa.listing
  · exact (h.ssa.before hb hv hphi hop ho).listed h.ssa.listing

/-- The immediate dominator is one of the blocks above. -/
theorem idom_done (hr : f.Reached b) (habove : ∀ d, f.Dominates d b → d ≠ b → done d) :
    ∀ d, dom.idom? b = some d → done d := by
  intro d hd
  have hbe : b ≠ f.start := by
    rintro rfl
    rw [h.tree.idom?_eq, if_pos rfl] at hd
    cases hd
  obtain ⟨d', hd', -, hne, hdom, -⟩ := h.tree.idom?_spec hr hbe
  obtain rfl : d = d' := Option.some.inj (hd.symm.trans hd')
  exact habove d hdom hne

/-- A value that is not in the table reads nothing. -/
theorem clean_of_le (hx : f.numValues ≤ x) : f.Clean slot x := by
  refine ⟨fun hr => ?_, fun heq => Nat.not_lt_of_le hx (heq ▸ h.slot_lt)⟩
  have hop := hr.1
  rw [value_of_le hx] at hop
  cases hop

end Promoting

/-- The value current where a block begins: its phi if one has been placed there, and else what is
current at the end of the immediate dominator. -/
def startValue (dom : DomTree) (phis : PlacedPhis) (blank : ValueId) (out : BlockId → ValueId)
    (b : BlockId) : ValueId :=
  match phis.lookup b with
  | some phi => phi
  | none => match dom.idom? b with
    | some d => out d
    | none => blank

/-- How far the walk is: the blocks that it is done with are renamed, and the others are as they were. -/
structure Walked (f : Func) (slot : ValueId) (t : Ty) (dom : DomTree) (phis : PlacedPhis)
    (blank : ValueId) (done : BlockId → Prop) (k : Func) (σ : ValueId → ValueId)
    (args : BlockId → BlockId → Operand) (out : BlockId → ValueId) : Prop where
  renamed : Renaming f k t phis σ args
  resolves : Resolves f slot σ
  noReads : NoReads f slot args
  up : ∀ b, done b → ∀ d, dom.idom? b = some d → done d
  fresh : ∀ b ∈ f.layout, ¬ done b → ∀ v ∈ (f.block b).values, σ v = v
  clean : ∀ b, done b → f.Clean slot (out b)
  threads : ∀ b, done b →
    Threads f slot σ (startValue dom phis blank out b) (f.block b).values (out b)
  read : ∀ b, done b → ∀ v ∈ (f.block b).values, f.Reads slot v → σ v ≠ v
  args : ∀ s q, done q → s ∈ f.next q → args s q = .value (out q)

/-! ## Arguments of the placed phis -/

/-- Give the placed phis of the blocks listed an argument from `b`. -/
def setArgsOf (phis : PlacedPhis) (b : BlockId) (o : Operand) (f : Func) (s : BlockId) : Func :=
  match phis.lookup s with
  | some phi => f.setPhiArgs s phi b o
  | none => f

theorem Renaming.inj (h : Renaming f k t phis σ args) (hb : phis.lookup b = some x)
    (hc : phis.lookup c = some x) : b = c := by
  have := (h.new b x hb).2.2.symm.trans (h.new c x hc).2.2
  simpa using congrArg Value.block this

theorem Renaming.setArgsOf_foldl (hl : f.Listing) (l : List BlockId) : ∀ {k args},
    Renaming f k t phis σ args → Renaming f (l.foldl (setArgsOf phis b o) k) t phis σ
      fun s q => if s ∈ l ∧ q = b then o else args s q := by
  induction l with
  | nil => exact fun h => h.congr fun _ _ _ _ _ => by simp
  | cons s l ih =>
    intro k args h
    have hone : Renaming f (setArgsOf phis b o k s) t phis σ
        fun s' q => if s' = s ∧ q = b then o else args s' q := by
      unfold setArgsOf
      cases hs : phis.lookup s with
      | some x => exact h.setPhiArgs hs hl fun c hc => h.inj hc hs
      | none =>
        refine h.congr fun c x hc q _ => if_neg ?_
        rintro ⟨rfl, -⟩
        simp [hs] at hc
    refine (ih hone).congr fun c x _ q _ => ?_
    by_cases hcl : c ∈ l <;> by_cases hcs : c = s <;> by_cases hqb : q = b <;>
      simp [hcl, hcs, hqb]

theorem renameTree_succ {fuel : Nat} {cur : Operand} :
    renameTree slot dom phis (fuel + 1) k cur b =
      renameBlock slot k (match phis.lookup b with
        | some phi => .value phi
        | none => cur) b >>= fun r =>
      (dom.childrenOf b).foldlM (fun (s : Func × List ValueId) c =>
        renameTree slot dom phis fuel s.1 r.2.1 c >>= fun x => .ok (x.1, s.2 ++ x.2))
        ((r.1.block b).succs.foldl (setArgsOf phis b r.2.1) r.1, r.2.2) := rfl

/-! ## The walk -/

namespace Walked

/-- What is current where a block begins comes from blocks walked before. -/
theorem startValue_clean (h : Walked f slot t dom phis blank done k σ args out)
    (hp : Promoting f slot t dom blank) (hup : ∀ d, dom.idom? b = some d → done d) :
    f.Clean slot (startValue dom phis blank out b) := by
  unfold startValue
  split
  · next phi hphi => exact hp.clean_of_le (h.renamed.new b phi hphi).1
  · split
    · next d hd => exact h.clean d (hup d hd)
    · exact hp.blank_clean

theorem startValue_update (hup : ∀ d, dom.idom? b = some d → done d) (hc : ¬ done c) :
    startValue dom phis blank (Function.update out c x) b = startValue dom phis blank out b := by
  unfold startValue
  split
  · rfl
  · split
    · next d hd =>
      refine Function.update_of_ne ?_ _ _
      rintro rfl
      exact hc (hup d hd)
    · rfl

/-- A read whose result is stored has been renamed, or comes before in the same block. -/
theorem read_above (h : Walked f slot t dom phis blank done k σ args out)
    (hp : Promoting f slot t dom blank) (hr : f.Reached b)
    (habove : ∀ d, f.Dominates d b → d ≠ b → done d) (hv : v ∈ (f.block b).values)
    (hwrite : f.Writes slot v w) (hread : f.Reads slot w) :
    σ w ≠ w ∨ [w, v].Sublist (f.block b).values := by
  have hb := hp.ssa.flow.reached_mem hr
  obtain ⟨w', hw', hor⟩ := hp.ssa.before hb hv (by simp [hwrite.1]) (by simp [hwrite.1])
    (show .value w ∈ (f.value v).args by simp [hwrite.2])
  obtain rfl : w = w' := by simpa using hw'
  obtain ⟨d, hd, hor⟩ := (hor.resolve_left (by simp [hread.1])).2 hr
  rcases hor with ⟨-, hsub⟩ | ⟨hne, hdom⟩
  · exact .inr hsub
  · exact .inl (h.read d (habove d hdom hne) w ((hp.ssa.listing.listed w d).mp hd).2 hread)

/-- A block that has been renamed is one more that the walk is done with. -/
theorem extend {e : ValueId} {dead : List ValueId} {k' : Func}
    (h : Walked f slot t dom phis blank done k σ args out) (hl : f.Listing) (hb : b ∈ f.layout)
    (hnot : ¬ done b) (hup : ∀ d, dom.idom? b = some d → done d)
    (hblock : BlockRenamed f slot t phis args σ (startValue dom phis blank out b) (f.block b).values
      k' σ' e dead) :
    Walked f slot t dom phis blank (fun x => done x ∨ x = b)
      ((k'.block b).succs.foldl (setArgsOf phis b (.value e)) k') σ'
      (fun s q => if s ∈ (k'.block b).succs ∧ q = b then .value e else args s q)
      (Function.update out b e) := by
  have hnext : ∀ s, s ∈ (k'.block b).succs ↔ s ∈ f.next b := by
    intro s
    rw [hblock.renamed.graph.succs]
    rfl
  have hstart : ∀ x, done x ∨ x = b →
      startValue dom phis blank (Function.update out b e) x = startValue dom phis blank out x := by
    rintro x (hx | rfl)
    · exact startValue_update (h.up x hx) hnot
    · exact startValue_update hup hnot
  have hout : ∀ x, done x → Function.update out b e x = out x := by
    intro x hx
    refine Function.update_of_ne ?_ _ _
    rintro rfl
    exact hnot hx
  refine ⟨hblock.renamed.setArgsOf_foldl hl _, hblock.resolves, fun s q v hv => ?_, ?_,
    fun x hxl hx v hv => ?_, ?_, ?_, ?_, fun s q hq hs => ?_⟩
  · split
    · intro heq
      obtain rfl : e = v := by simpa using heq
      exact hblock.clean.1 hv
    · exact h.noReads s q v hv
  · rintro x (hx | rfl) d hd
    · exact .inl (h.up x hx d hd)
    · exact .inl (hup d hd)
  · rw [not_or] at hx
    rw [hblock.kept v fun hvb => hx.2 (hl.unique hxl hb hv hvb)]
    exact h.fresh x hxl hx.1 v hv
  · rintro x (hx | rfl)
    · rw [hout x hx]
      exact h.clean x hx
    · rw [Function.update_self]
      exact hblock.clean
  · rintro x (hx | rfl)
    · rw [hstart x (.inl hx), hout x hx]
      exact (h.threads x hx).mono h.resolves hblock.resolves hblock.extended
    · rw [hstart x (.inr rfl), Function.update_self]
      exact hblock.threads
  · rintro x (hx | rfl) v hv hread
    · have hne := h.read x hx v hv hread
      rwa [hblock.extended v hne]
    · exact hblock.read v hv hread
  · by_cases hqb : q = b
    · subst hqb
      rw [if_pos ⟨(hnext s).mpr hs, rfl⟩, Function.update_self]
    · have hq := hq.resolve_right hqb
      rw [if_neg fun hn => hqb hn.2, hout q hq]
      exact h.args s q hq hs

/-- One more block. -/
theorem block (h : Walked f slot t dom phis blank done k σ args out)
    (hp : Promoting f slot t dom blank) (hr : f.Reached b) (hnot : ¬ done b)
    (habove : ∀ d, f.Dominates d b → d ≠ b → done d) :
    ∃ k' e dead σ' args',
      renameBlock slot k (.value (startValue dom phis blank out b)) b = .ok (k', .value e, dead) ∧
      Walked f slot t dom phis blank (fun x => done x ∨ x = b)
        ((k'.block b).succs.foldl (setArgsOf phis b (.value e)) k') σ' args'
        (Function.update out b e) ∧
      dead.Nodup ∧ ∀ v, v ∈ dead ↔ v ∈ (f.block b).values ∧ f.Accesses slot v := by
  have hb := hp.ssa.flow.reached_mem hr
  have hl := hp.ssa.listing
  have hup := hp.idom_done hr habove
  obtain ⟨k', e, dead, σ', hrun, hblock⟩ := renameBlock_spec hp.ssa hp.promotable hp.not_reads
    h.renamed h.resolves (h.startValue_clean hp hup) h.noReads hb (h.fresh b hb hnot)
    fun v hv w => h.read_above hp hr habove hv
  exact ⟨k', e, dead, σ', _, hrun, h.extend hl hb hnot hup hblock, hblock.sub.nodup (hl.nodup b hb),
    hblock.dead⟩

end Walked

/-! ## Down the tree -/

/-- A block, and what lies below those of its children that have been visited. -/
def Visited (f : Func) (b : BlockId) (l : List BlockId) (x : BlockId) : Prop :=
  x = b ∨ ∃ c ∈ l, f.Reached x ∧ f.Dominates c x

theorem visited_nil : f.Visited b [] x ↔ x = b := by simp [Visited]

theorem visited_snoc {l : List BlockId} : f.Visited b (l ++ [c]) x ↔
    f.Visited b l x ∨ f.Reached x ∧ f.Dominates c x := by
  simp [Visited, or_and_right, exists_or, or_assoc]

theorem Visited.reached {l : List BlockId} (h : f.Visited b l x) (hr : f.Reached b) :
    f.Reached x := by
  rcases h with rfl | ⟨c, -, hrx, -⟩
  · exact hr
  · exact hrx

theorem visited_children (ht : dom.Of f f.start) (hr : f.Reached b) :
    f.Visited b (dom.childrenOf b) x ↔ f.Reached x ∧ f.Dominates b x := by
  constructor
  · rintro (rfl | ⟨c, hc, hrx, hcx⟩)
    · exact ⟨hr, .refl _ _ _⟩
    · exact ⟨hrx, (ht.child_spec hr hc).2.1.trans hcx⟩
  · rintro ⟨hrx, hbx⟩
    by_cases hne : b = x
    · exact .inl hne.symm
    · obtain ⟨c, hc, hcx⟩ := ht.exists_child hrx hbx hne
      exact .inr ⟨c, hc, hrx, hcx⟩

/-- What lies below one child has not been visited with the children before. -/
theorem not_visited {l rest : List BlockId} (ht : dom.Of f f.start) (hr : f.Reached b)
    (hsplit : dom.childrenOf b = l ++ c :: rest) (hrx : f.Reached x) (hcx : f.Dominates c x) :
    ¬ f.Visited b l x := by
  have hc : c ∈ dom.childrenOf b := by simp [hsplit]
  obtain ⟨hrc, hbc, hne⟩ := ht.child_spec hr hc
  rintro (rfl | ⟨c', hc', -, hcx'⟩)
  · exact hne (hbc.antisymm hrc hcx)
  · obtain rfl := ht.child_unique hr hc (by simp [hsplit, hc']) hrx hcx hcx'
    have hnd := ht.nodup_childrenOf hr
    rw [hsplit, List.nodup_append] at hnd
    exact hnd.2.2 c hc' c List.mem_cons_self rfl

/-- What lies above a child is its parent, or lies above that. -/
theorem above_child (ht : dom.Of f f.start) (hr : f.Reached b) (hc : c ∈ dom.childrenOf b)
    (hdc : f.Dominates d c) (hne : d ≠ c) : d = b ∨ f.Dominates d b ∧ d ≠ b := by
  obtain ⟨-, hstart, hidom⟩ := ht.mem_childrenOf hr hc
  obtain ⟨b', hb', -, -, -, himm⟩ := ht.idom?_spec (ht.child_spec hr hc).1 hstart
  obtain rfl : b = b' := Option.some.inj (hidom.symm.trans hb')
  by_cases hdb : d = b
  · exact .inl hdb
  · exact .inr ⟨himm d hdc hne, hdb⟩

/-- The walk has been to the blocks in `now`, where it had not been before, and has collected the
accesses of the slot there. -/
structure Toured (f : Func) (slot : ValueId) (t : Ty) (dom : DomTree) (phis : PlacedPhis)
    (blank : ValueId) (done now : BlockId → Prop) (out : BlockId → ValueId)
    (s : Func × List ValueId) (σ' : ValueId → ValueId) (args' : BlockId → BlockId → Operand)
    (out' : BlockId → ValueId) : Prop where
  walked : Walked f slot t dom phis blank (fun x => done x ∨ now x) s.1 σ' args' out'
  keeps : ∀ x, done x → out' x = out x
  nodup : s.2.Nodup
  dead : ∀ v, v ∈ s.2 ↔ ∃ x, now x ∧ v ∈ (f.block x).values ∧ f.Accesses slot v

namespace Toured

variable {now now' : BlockId → Prop} {out' : BlockId → ValueId} {r r' : Func × List ValueId}

theorem congr (h : Toured f slot t dom phis blank done now out r σ args out')
    (hiff : ∀ x, now x ↔ now' x) :
    Toured f slot t dom phis blank done now' out r σ args out' := by
  obtain rfl : now = now' := funext fun x => propext (hiff x)
  exact h

theorem append {out₁ : BlockId → ValueId}
    (h : Toured f slot t dom phis blank done now out r σ args out₁)
    (h' : Toured f slot t dom phis blank (fun x => done x ∨ now x) now' out₁ r' σ' args' out')
    (hl : f.Listing) (hnow : ∀ x, now x → x ∈ f.layout) (hnow' : ∀ x, now' x → x ∈ f.layout)
    (hapart : ∀ x, now x → ¬ now' x) :
    Toured f slot t dom phis blank done (fun x => now x ∨ now' x) out (r'.1, r.2 ++ r'.2) σ' args'
      out' := by
  refine ⟨?_, fun x hx => (h'.keeps x (.inl hx)).trans (h.keeps x hx), ?_, fun v => ?_⟩
  · have hsame : (fun x => done x ∨ now x ∨ now' x) = fun x => (done x ∨ now x) ∨ now' x := by
      funext x
      rw [or_assoc]
    exact hsame ▸ h'.walked
  · refine List.nodup_append.mpr ⟨h.nodup, h'.nodup, ?_⟩
    rintro v hv v' hv' rfl
    obtain ⟨x, hx, hvx, -⟩ := (h.dead v).mp hv
    obtain ⟨y, hy, hvy, -⟩ := (h'.dead v).mp hv'
    obtain rfl := hl.unique (hnow x hx) (hnow' y hy) hvx hvy
    exact hapart x hx hy
  · rw [List.mem_append, h.dead, h'.dead, ← exists_or]
    simp only [or_and_right]

end Toured

/-- From a block where nothing above is left to do and nothing below is done, the walk goes to all blocks
that it dominates. -/
theorem renameTree_spec (hp : Promoting f slot t dom blank) (fuel : Nat) :
    ∀ k σ args out (done : BlockId → Prop) b cur,
      Walked f slot t dom phis blank done k σ args out → f.Reached b →
      (∀ x, f.Reached x → f.Dominates b x → ¬ done x) →
      (∀ d, f.Dominates d b → d ≠ b → done d) →
      (phis.lookup b = none → cur = startValue dom phis blank out b) →
      f.numBlocks < fuel + dom.rpo.idxOf b →
      ∃ r σ' args' out', renameTree slot dom phis fuel k (.value cur) b = .ok r ∧
        Toured f slot t dom phis blank done (fun x => f.Reached x ∧ f.Dominates b x) out r σ' args'
          out' := by
  induction fuel with
  | zero =>
    intro k σ args out done b cur _ hr _ _ _ hfuel
    have := hp.tree.idxOf_lt hr
    omega
  | succ fuel ih =>
    intro k σ args out done b cur h hr hbelow habove hcur hfuel
    have hstart : (match phis.lookup b with
        | some phi => .value phi
        | none => .value cur : Operand) = .value (startValue dom phis blank out b) := by
      cases hphi : phis.lookup b with
      | some phi => simp [startValue, hphi]
      | none => simp [hcur hphi]
    have hnot := hbelow b hr (.refl _ _ _)
    obtain ⟨k₁, e, dead₁, σ₁, args₁, hrun₁, h₁, hnd₁, hdead₁⟩ := h.block hp hr hnot habove
    have hself : Toured f slot t dom phis blank done (· = b) out
        ((k₁.block b).succs.foldl (setArgsOf phis b (.value e)) k₁, dead₁) σ₁ args₁
        (Function.update out b e) := by
      refine ⟨h₁, fun x hx => Function.update_of_ne ?_ _ _, hnd₁, fun v => ?_⟩
      · rintro rfl
        exact hnot hx
      · simp [hdead₁]
    rw [renameTree_succ, hstart, hrun₁, Outcome.ok_bind]
    -- child by child: what has been visited grows, and at the end of `b` it is still `e`
    have hrun := Outcome.foldlM_keeps_done (l := dom.childrenOf b)
      (b := ((k₁.block b).succs.foldl (setArgsOf phis b (.value e)) k₁, dead₁))
      (g := fun (s : Func × List ValueId) c => renameTree slot dom phis fuel s.1 (.value e) c >>=
        fun x => .ok (x.1, s.2 ++ x.2))
      (P := fun l r => ∃ σ' args' out',
        Toured f slot t dom phis blank done (f.Visited b l) out r σ' args' out' ∧ out' b = e)
      ?_ ⟨σ₁, args₁, _, hself.congr fun x => visited_nil.symm, Function.update_self ..⟩
    · obtain ⟨r, hrun, σ', args', out', hall, -⟩ := hrun
      exact ⟨r, σ', args', out', hrun, hall.congr fun x => visited_children hp.tree hr⟩
    intro l c rest r hsplit hP
    obtain ⟨σ₂, args₂, out₂, h₂, hout₂⟩ := hP
    have hc : c ∈ dom.childrenOf b := by simp [hsplit]
    have hidom := (hp.tree.mem_childrenOf hr hc).2.2
    obtain ⟨hrc, hbc, -⟩ := hp.tree.child_spec hr hc
    have hfar : ∀ x, f.Reached x → f.Dominates c x → ¬ f.Visited b l x :=
      fun x => not_visited hp.tree hr hsplit
    obtain ⟨r₃, σ₃, args₃, out₃, hrun₃, h₃⟩ := ih r.1 σ₂ args₂ out₂ _ c e h₂.walked hrc
      (fun x hrx hcx => not_or.mpr ⟨hbelow x hrx (hbc.trans hcx), hfar x hrx hcx⟩)
      (fun d hdc hne => (above_child hp.tree hr hc hdc hne).elim (fun heq => .inr (.inl heq))
        fun hd => .inl (habove d hd.1 hd.2))
      (fun hphi => by simp only [startValue, hphi, hidom, hout₂])
      (by have := hp.tree.idxOf_idom hidom; omega)
    refine ⟨(r₃.1, r.2 ++ r₃.2), by simp [hrun₃], σ₃, args₃, out₃, ?_, ?_⟩
    · exact (h₂.append h₃ hp.ssa.listing (fun x hx => hp.ssa.flow.reached_mem (hx.reached hr))
        (fun x hx => hp.ssa.flow.reached_mem hx.1) fun x hx hx' => hfar x hx'.1 hx'.2 hx).congr
        fun x => visited_snoc.symm
    · exact (h₃.keeps b (.inr (.inl rfl))).trans hout₂

/-- The walk from the entry comes to all blocks. -/
theorem renameTree_all (hp : Promoting f slot t dom blank) (h : Renaming f k t phis id args)
    (hargs : f.NoReads slot args) :
    ∃ k' dead σ args' out, renameTree slot dom phis (f.numBlocks + 1) k (.value blank) f.start =
        .ok (k', dead) ∧
      Walked f slot t dom phis blank f.Reached k' σ args' out ∧ dead.Nodup ∧
      ∀ v, v ∈ dead ↔ ∃ b ∈ f.layout, v ∈ (f.block b).values ∧ f.Accesses slot v := by
  obtain ⟨⟨k', dead⟩, σ, args', out, hrun, ⟨hwalked, -, hnd, hdead⟩⟩ :=
    renameTree_spec hp (f.numBlocks + 1) k id args (fun _ => blank) (fun _ => False) f.start blank
      { renamed := h, noReads := hargs,
        resolves := ⟨fun _ _ => rfl, fun _ => .inl rfl, fun _ h => absurd rfl h⟩,
        up := fun _ h => h.elim, fresh := fun _ _ _ _ _ => rfl, clean := fun _ h => h.elim,
        threads := fun _ h => h.elim, read := fun _ h => h.elim, args := fun _ _ h => h.elim }
      (.refl _ _) (fun _ _ _ h => h) (fun d hd hne => hne hd.eq_start)
      (fun hphi => by simp [startValue, hphi, hp.tree.idom?_eq]) (by omega)
  have hall : (fun x => False ∨ f.Reached x ∧ f.Dominates f.start x) = f.Reached := by
    funext x
    simp [Dominates, Dom.start]
  refine ⟨k', dead, σ, args', out, hrun, hall ▸ hwalked, hnd, fun v => (hdead v).trans ?_⟩
  constructor
  · rintro ⟨x, ⟨hrx, -⟩, hv⟩
    exact ⟨x, hp.ssa.flow.reached_mem hrx, hv⟩
  · rintro ⟨x, hx, hv⟩
    exact ⟨x, ⟨hp.reached x hx, Dom.start _ _ _⟩, hv⟩

end SsaJit.Func
