import SsaJit.Proofs.Exec.Invariant
import SsaJit.Proofs.Exec.Track
import SsaJit.Proofs.Pass.Basic
import SsaJit.Proofs.Ssa.Merge

/-! Edits inside blocks that leave a function running as before: a value that is replaced by one equal to
it, a constant that is put in, and an instruction that is changed for one that does the same. -/

namespace SsaJit.Func

variable {I : Interp} {f g : Func} {b c d : BlockId} {u v w x : ValueId} {o : Operand}
  {s t : I.State} {i j : Nat} {pre post : List ValueId} {K : ValueId → Prop}
  {live : BlockId → Prop} {Φ : ValueId → (ValueId → I.Val) → Prop}

/-! ## One instruction in two functions -/

theorem agree_perform {y : Value} {ts : List Ty} {xs : List I.Val} (h : Same K s t) :
    Agree (Same K) (Interp.perform v y ts xs s) (Interp.perform v y ts xs t) := by
  unfold Interp.perform
  rw [h.mem]
  split
  · exact .go (h.assign _)
  · cases I.exec v y ts xs t.mem with
    | error why => exact .stop _
    | ok r => exact .go (h.assign _)

/-- One instruction in two functions, up to the names of its operands. -/
theorem agree_exec (h : Same K s t) (hbare : (g.value u).bare = (f.value u).bare)
    (htypes : (g.value u).reads.map g.operandType = (f.value u).reads.map f.operandType)
    (hgets : (f.value u).op ≠ .phi →
      (g.value u).reads.map t.get = (f.value u).reads.map s.get) :
    Agree (Same K) (f.exec s u) (g.exec t u) := by
  have hop : (g.value u).op = (f.value u).op := by
    change (g.value u).bare.op = (f.value u).bare.op
    rw [hbare]
  unfold exec
  rw [hop]
  split
  · exact .go h
  · next hphi =>
    rw [hbare, htypes, hgets hphi]
    exact agree_perform h

theorem Agree.refl {ε α : Type} {R : α → α → Prop} (hR : ∀ a, R a a) (x : Except ε α) :
    Agree R x x := by
  cases x with
  | error e => exact .stop e
  | ok a => exact .go (hR a)

theorem agree_single {Q : I.State → I.State → Prop} (h : Agree Q (f.exec s u) (g.exec t u)) :
    Agree Q (f.exec s u) ([u].foldlM g.exec t) := by
  rw [List.foldlM_cons]
  cases hg : g.exec t u with
  | error e => rwa [hg] at h
  | ok t' => rwa [hg] at h

theorem predPlaces_congr (hp : (g.block c).preds = (f.block c).preds) :
    g.predPlaces c b = f.predPlaces c b := by
  rw [predPlaces, predPlaces, hp]

theorem SameGraph.follow (h : SameGraph f g) : g.follow b i = f.follow b i := by
  simp only [Func.follow, h.succs, predPlaces_congr (h.preds _)]

/-- Leaving a block in two functions with one graph. -/
theorem agree_leave (hg : SameGraph f g) (h : Same K s t)
    (hkind : (g.block b).kind = (f.block b).kind)
    (hget : (f.block b).kind = .branch ∨ (f.block b).kind = .ret →
      t.get (g.block b).control = s.get (f.block b).control)
    (hmissing : (f.block b).kind = .ret →
      ((g.block b).control = .missing ↔ (f.block b).control = .missing))
    (henter : ∀ i c j, f.follow b i = some (c, j) → Same K (f.enter c j s) (g.enter c j t)) :
    Agree (SamePoint K) (f.leave b s) (g.leave b t) := by
  unfold leave
  rw [hkind]
  split
  · next hret =>
    rw [hget (.inr hret), h.mem]
    simp only [hmissing hret]
    exact .stop _
  split
  · rw [h.mem]
    exact .stop _
  · have hedge : (g.block b).edge? (I.holds (t.get (g.block b).control)) =
        (f.block b).edge? (I.holds (s.get (f.block b).control)) := by
      unfold Block.edge?
      rw [hkind]
      cases hk : (f.block b).kind with
      | branch => simp only [hget (.inl hk)]
      | _ => rfl
    have hfollow : g.follow b = f.follow b := funext fun _ => hg.follow
    rw [hedge, hfollow]
    split
    · next c j heq =>
      obtain ⟨i, _, hi⟩ := Option.bind_eq_some_iff.mp heq
      exact .go ⟨rfl, henter i c j hi⟩
    · rw [h.mem]
      exact .stop _

/-! ## Running alike, block by block -/

theorem Invariant.holding_start (hs : f.Ssa) (s : I.State) : f.Holding Φ f.start [] s := by
  intro v hv
  obtain ⟨_, d, hd, hor⟩ := hv
  rcases hor with ⟨rfl, hphi⟩ | ⟨hne, hdom⟩
  · exact absurd (hphi.resolve_right List.not_mem_nil)
      (hs.entry_phis v ((hs.listing.listed v _).mp hd).2)
  · exact absurd hdom.eq_start hne

/-- The function with nothing said about its values. -/
theorem Invariant.trivial (f : Func) : Invariant I f f.Reached fun _ _ => True where
  reached _ h := h
  start := .refl _ _
  frame _ _ _ _ _ _ _ _ h := h
  value _ _ _ _ _ _ _ _ _ _ _ _ := True.intro
  edge b s p hb _ hp := by
    obtain ⟨i, j, _, hf, _⟩ := leave_eq_ok hp
    exact hb.step (follow_next hf)
  phi _ _ _ _ _ _ _ _ _ := True.intro

/-- What an invariant says at the beginning of a block it says, with what has been computed, at all
places of the block. -/
theorem Invariant.body (hinv : Invariant I f live Φ) (hs : f.Ssa) (hb : live b)
    (hvals : (f.block b).values = pre ++ post) (hH : f.Holding Φ b [] s)
    (hx : pre.foldlM f.exec s = .ok t) : f.Holding Φ b pre t := by
  have hagree := agree_body (f := f) (g := f) (h := fun u => [u]) (l := pre) (s := s) (t := s)
    (Q := fun pre s t => s = t ∧ f.Holding Φ b pre s)
    (fun pre₁ u post₁ s t hpre ⟨hst, hH⟩ => by
      subst hst
      rw [hpre, List.append_assoc, List.cons_append] at hvals
      exact agree_single ((Agree.refl (fun _ => rfl) _).with_left fun s' hx =>
        hinv.exec hs hb hvals hH hx)) ⟨rfl, hH⟩
  obtain ⟨_, -, -, hH⟩ := hagree.of_left hx
  exact hH

/-- An invariant holds at all points of a run. -/
theorem Invariant.sees (hinv : Invariant I f live Φ) (hs : f.Ssa) {s₀ : I.State} {n : Nat}
    (h : f.Sees s₀ n b pre s) : live b ∧ f.Holding Φ b pre s := by
  have hrun : ∀ n p q, live p.1 ∧ f.Holding Φ p.1 [] p.2 → f.run n p = .ok q →
      live q.1 ∧ f.Holding Φ q.1 [] q.2 := by
    intro n
    induction n with
    | zero =>
      intro p q hp hq
      obtain rfl := Except.ok.inj hq
      exact hp
    | succ n ih =>
      intro p q hp hq
      obtain ⟨r, hstep, hq⟩ := bind_eq_ok.mp hq
      obtain ⟨s', hx, hl⟩ := bind_eq_ok.mp hstep
      exact ih r q (hinv.leave hs hp.1
        (hinv.body hs hp.1 (List.append_nil _).symm hp.2 hx) hl) hq
  obtain ⟨t, post, hn, hvals, hpre⟩ := h
  obtain ⟨hb, hH⟩ := hrun n (f.start, s₀) (b, t) ⟨hinv.start, holding_start hs s₀⟩ hn
  exact ⟨hb, hinv.body hs hb hvals hH hpre⟩

/-- Two functions run in step if their blocks do, as long as an invariant of the first one holds. -/
theorem Invariant.lockstep (hinv : Invariant I f live Φ) (hs : f.Ssa) (hstart : g.start = f.start)
    (hbody : ∀ b pre post (s t : I.State), live b → f.Holding Φ b [] s → Same K s t →
      (f.block b).values = pre ++ post → ∃ pre' post', (g.block b).values = pre' ++ post' ∧
        (post = [] → post' = []) ∧ (∀ v, K v → (v ∈ pre' ↔ v ∈ pre)) ∧
        Agree (fun s t => Same K s t ∧ f.Holding Φ b pre s)
          (pre.foldlM f.exec s) (pre'.foldlM g.exec t))
    (hleave : ∀ b (s t : I.State), live b → f.Holding Φ b (f.block b).values s → Same K s t →
      Agree (SamePoint K) (f.leave b s) (g.leave b t)) : Lockstep I K f g := by
  refine .of_blocks (R := fun b s t => (Same K s t ∧ f.Holding Φ b [] s) ∧ live b)
    (Q := fun b pre s t => (Same K s t ∧ f.Holding Φ b pre s) ∧ live b)
    (fun b s t h => h.1.1) (fun b pre s t h => h.1.1) hstart
    (fun s => ⟨⟨.refl K s, holding_start hs s⟩, hinv.start⟩)
    (fun b pre post s t h hvals => ?_) fun b s t h => ?_
  · obtain ⟨⟨hst, hH⟩, hb⟩ := h
    obtain ⟨pre', post', hvals', hnil, hmem, hagree⟩ := hbody b pre post s t hb hH hst hvals
    exact ⟨pre', post', hvals', hnil, hmem, hagree.imp fun _ _ h => ⟨h, hb⟩⟩
  · obtain ⟨⟨hst, hH⟩, hb⟩ := h
    refine ((hleave b s t hb hH hst).with_left fun p hp => hinv.leave hs hb hH hp).imp ?_
    exact fun p q h => ⟨h.1.1, ⟨h.1.2, h.2.2⟩, h.2.1⟩

/-- As `Invariant.lockstep`, with some instructions of the second function for each of the first. -/
theorem Invariant.lockstep_of_instrs (hinv : Invariant I f live Φ) (hs : f.Ssa)
    (hstart : g.start = f.start) (h : ValueId → List ValueId)
    (hvals : ∀ b, live b → (g.block b).values = (f.block b).values.flatMap h)
    (hown : ∀ v, K v → ∀ u, v ∈ h u ↔ v = u)
    (hstep : ∀ b pre u post (s t : I.State), live b → (f.block b).values = pre ++ u :: post →
      f.Holding Φ b pre s → Same K s t → Agree (Same K) (f.exec s u) ((h u).foldlM g.exec t))
    (hleave : ∀ b (s t : I.State), live b → f.Holding Φ b (f.block b).values s → Same K s t →
      Agree (SamePoint K) (f.leave b s) (g.leave b t)) : Lockstep I K f g := by
  refine hinv.lockstep hs hstart (fun b pre post s t hb hH hst hsplit => ?_) hleave
  refine ⟨pre.flatMap h, post.flatMap h, by rw [hvals b hb, hsplit, List.flatMap_append],
    fun hnil => by rw [hnil, List.flatMap_nil], fun v hv => ?_, ?_⟩
  · simp only [List.mem_flatMap, hown v hv, exists_eq_right']
  · refine agree_body (Q := fun pre s t => Same K s t ∧ f.Holding Φ b pre s)
      (fun pre₁ u post₁ s t hpre hQ => ?_) ⟨hst, hH⟩
    have hsplit₁ : (f.block b).values = pre₁ ++ u :: (post₁ ++ post) := by
      rw [hsplit, hpre, List.append_assoc, List.cons_append]
    exact (hstep b pre₁ u _ s t hb hsplit₁ hQ.2 hQ.1).with_left fun s' hx =>
      hinv.exec hs hb hsplit₁ hQ.2 hx

/-- What a phi takes along an edge. -/
theorem Ssa.phi_arg (hs : f.Ssa) (hc : c ∈ f.layout) (hv : v ∈ (f.block c).values)
    (hphi : (f.value v).op = .phi) (hf : f.follow b i = some (c, j)) :
    ∃ a, (f.value v).args[j]? = some (.value a) ∧ (f.value a).type = (f.value v).type ∧
      f.AtEnd (.value a) b := by
  obtain ⟨hlen, hall⟩ := hs.phis c hc v hv hphi
  obtain ⟨_, hpred, _⟩ := follow_eq_some.mp hf
  have hlt : j < (f.value v).args.length := hlen ▸ (List.getElem?_eq_some_iff.mp hpred).1
  obtain ⟨o, ho⟩ : ∃ o, (f.value v).args[j]? = some o := ⟨_, List.getElem?_eq_getElem hlt⟩
  have hz : (o, b) ∈ (f.value v).args.zip (f.block c).preds :=
    List.mem_of_getElem? (i := j) (List.getElem?_zip_eq_some.mpr ⟨ho, hpred⟩)
  obtain ⟨hty, hend⟩ := hall _ hz
  obtain ⟨a, rfl⟩ := hend.isValue
  exact ⟨a, ho, hty, hend⟩

/-- What the end of a block reads. -/
theorem Ssa.control_value (hs : f.Ssa) (hb : b ∈ f.layout)
    (hk : (f.block b).kind = .branch ∨ (f.block b).kind = .ret ∧ (f.block b).control ≠ .missing) :
    ∃ a, (f.block b).control = .value a ∧ f.AtEnd (.value a) b := by
  have hends := hs.ends b hb
  rcases hk with hk | ⟨hk, hm⟩
  · simp only [EndsWell, hk] at hends
    obtain ⟨a, ha⟩ := hends.2.2.isValue
    exact ⟨a, ha, ha ▸ hends.2.2⟩
  · simp only [EndsWell, hk, if_neg hm] at hends
    obtain ⟨a, ha⟩ := hends.2.2.isValue
    exact ⟨a, ha, ha ▸ hends.2.2⟩

theorem mem_reads {y : Value} (ho : o ∈ y.reads) : y.op ≠ .param ∧ o ∈ y.args := by
  unfold Value.reads at ho
  split at ho
  · simp at ho
  · next hparam => exact ⟨hparam, ho⟩

/-- What an instruction reads. -/
theorem Ssa.reads_value (hs : f.Ssa) (hb : b ∈ f.layout) (hv : v ∈ (f.block b).values)
    (hphi : (f.value v).op ≠ .phi) (ho : o ∈ (f.value v).reads) :
    ∃ a, o = .value a ∧ f.Before (.value a) v b := by
  obtain ⟨hparam, ho⟩ := mem_reads ho
  have h := hs.before hb hv hphi hparam ho
  obtain ⟨a, rfl⟩ := h.isValue
  exact ⟨a, rfl, h⟩

/-! ## A value for one that is equal to it -/

section replaceValue

theorem get_swap (hst : Same (· ≠ v) s t) (hne : w ≠ v)
    (ho : o = .value v → s.env v = s.env w) :
    t.get (swap (.value v) (.value w) o) = s.get o := by
  unfold swap
  split
  · next heq =>
    rw [heq]
    exact (hst.env w hne).symm.trans (ho heq).symm
  · next hov =>
    cases o with
    | value x => exact (hst.env x fun heq => hov (by rw [heq])).symm
    | missing => rfl
    | foreign k => rfl

theorem reads_args {y : Value} {a : List Operand} {e : Option BlockId} {r : Operand → Operand}
    (ha : a = y.args.map r) : ({ y with args := a, block := e } : Value).reads = y.reads.map r := by
  by_cases hp : y.op = .param
  · simp [Value.reads, hp]
  · simp [Value.reads, hp, ha]

/-- The instructions but one. -/
theorem flatMap_without (l : List ValueId) :
    (l.flatMap fun u => if u = v then [] else [u]) = l.filter (· != v) := by
  induction l with
  | nil => rfl
  | cons u l ih =>
    rw [List.flatMap_cons, ih, List.filter_cons]
    by_cases huv : u = v
    · simp [huv]
    · simp [huv]

section covers

variable (hs : f.Ssa) (hb : b ∈ f.layout) (hv : v ∈ (f.block b).values) (hne : w ≠ v)
  (hc : f.Covers w v)
include hs hb hv

omit hne hc in
/-- A block keeps its instructions but for the one replaced. -/
theorem instrs_replaceValue (hd : d ∈ f.layout) : ((f.replaceValue v (.value w)).block d).values =
    (f.block d).values.flatMap fun u => if u = v then [] else [u] := by
  rw [flatMap_without, values_replaceValue hs hb hv]
  split
  · next heq =>
    subst heq
    exact (hs.listing.nodup d hd).erase_eq_filter v
  · next hdb =>
    refine (List.filter_eq_self.mpr fun u hu => ?_).symm
    simpa using fun heq : u = v => hdb (hs.listing.unique hd hb (heq ▸ hu) hv)

include hne hc

/-- An instruction does as before if what it reads for the value is the same. -/
theorem exec_replaceValue (hd : d ∈ f.layout) (hu : u ∈ (f.block d).values)
    (hst : Same (· ≠ v) s t) (hread : (f.value u).op ≠ .phi → .value v ∈ (f.value u).reads →
      s.env v = s.env w) :
    Agree (Same (· ≠ v)) (f.exec s u) ((f.replaceValue v (.value w)).exec t u) := by
  have hval := value_replaceValue_of_mem (w := w) hs hb hv hd hu
  have hreads : ((f.replaceValue v (.value w)).value u).reads =
      (f.value u).reads.map (swap (.value v) (.value w)) := by
    rw [hval]
    exact reads_args rfl
  refine agree_exec hst (by rw [hval]; rfl) ?_ fun hphi => ?_
  · rw [hreads, List.map_map]
    refine List.map_congr_left fun o _ => ?_
    rw [Function.comp, operandType_replaceValue hs hb hv, hc.operandType_swap]
  · rw [hreads, List.map_map]
    exact List.map_congr_left fun o ho => get_swap hst hne fun heq => hread hphi (heq ▸ ho)

omit hc in
/-- A block is left as before if the value is the same where it can be read at the end. -/
theorem leave_replaceValue (hd : d ∈ f.layout) (hst : Same (· ≠ v) s t)
    (hread : f.AtEnd (.value v) d → s.env v = s.env w)
    (hgraph : SameGraph f (f.replaceValue v (.value w))) :
    Agree (SamePoint (· ≠ v)) (f.leave d s) ((f.replaceValue v (.value w)).leave d t) := by
  obtain ⟨hctl, hkind⟩ := control_replaceValue (w := w) hs hb hv hd
  have hget : ∀ o, (∃ a, o = .value a ∧ f.AtEnd (.value a) d) →
      t.get (swap (.value v) (.value w) o) = s.get o := by
    intro o ho
    obtain ⟨a, ha, hend⟩ := ho
    refine get_swap hst hne fun heq => hread ?_
    obtain rfl : v = a := by simpa [heq] using ha
    exact hend
  refine agree_leave hgraph hst hkind (fun hk => ?_) (fun _ => by rw [hctl]; exact swap_ne_missing)
    fun i e j hfollow => ⟨hst.mem, fun x hx => ?_⟩
  · rw [hctl]
    by_cases hm : (f.block d).control = .missing
    · rw [hm, swap_ne_missing.mpr rfl]
      rfl
    · exact hget _ (hs.control_value hd (hk.imp_right fun hk => ⟨hk, hm⟩))
  · have hel := hs.flow.succs_mem d hd e (follow_next hfollow)
    have hin : x ∈ ((f.replaceValue v (.value w)).block e).values ↔ x ∈ (f.block e).values := by
      rw [instrs_replaceValue hs hb hv hel, flatMap_without, List.mem_filter]
      simp [hx]
    by_cases hphi : x ∈ (f.block e).values ∧ (f.value x).op = .phi
    · have hval := value_replaceValue_of_mem (w := w) hs hb hv hel hphi.1
      obtain ⟨a, harg, -, hend⟩ := hs.phi_arg hel hphi.1 hphi.2 hfollow
      rw [enter_phi hphi.1 hphi.2, enter_phi (hin.mpr hphi.1) (by rw [hval]; exact hphi.2), hval]
      simp only [List.getD_eq_getElem?_getD, List.getElem?_map, harg, Option.map_some,
        Option.getD_some]
      exact (hget _ ⟨a, rfl, hend⟩).symm
    · rw [enter_env hphi, enter_env]
      · exact hst.env x hx
      · obtain ⟨a, ha⟩ := replaceValue_head (w := w) hs hb hv x
        rw [hin, ha]
        exact hphi

end covers

/-- A function runs as before when a value is replaced by another that equals it wherever it can be
read, and computing it changed nothing. -/
theorem Invariant.lockstep_replaceValue (hinv : Invariant I f live Φ) (hs : f.Ssa)
    (hb : b ∈ f.layout) (hv : v ∈ (f.block b).values) (hne : w ≠ v) (hc : f.Covers w v)
    (hstore : (f.value v).op ≠ .store)
    (hsame : ∀ b pre (s : I.State), live b → f.Holding Φ b pre s → f.Known b pre v →
      ((f.value w).op ≠ .store → f.Known b pre w) → s.env v = s.env w)
    (hsilent : ∀ pre post (s : I.State), live b → (f.block b).values = pre ++ v :: post →
      f.Holding Φ b pre s → ∃ t, f.exec s v = .ok t ∧ t.mem = s.mem) :
    Lockstep I (· ≠ v) f (f.replaceValue v (.value w)) := by
  have hgraph := (Keeps.replaceValue hs hb hv hc).graph
  refine hinv.lockstep_of_instrs hs hgraph.start (fun u => if u = v then [] else [u])
    (fun d hlive => instrs_replaceValue hs hb hv (hinv.mem_layout hs hlive)) (fun x hx u => ?_)
    (fun d pre u post s t hlive hsplit hH hst => ?_) fun d s t hlive hH hst => ?_
  · by_cases huv : u = v
    · rw [if_pos huv]
      exact ⟨fun h => absurd h List.not_mem_nil, fun h => absurd (h.trans huv) hx⟩
    · rw [if_neg huv, List.mem_singleton]
  · have hd := hinv.mem_layout hs hlive
    have hr := hinv.reached d hlive
    have hu : u ∈ (f.block d).values := by rw [hsplit]; simp
    by_cases huv : u = v
    · -- nothing runs in place of the value
      subst huv
      obtain rfl := hs.listing.unique hd hb hu hv
      obtain ⟨t', ht', hmem⟩ := hsilent pre post s hlive hsplit hH
      rw [if_pos rfl, ht']
      exact .go ⟨hmem.trans hst.mem, fun x hx => (exec_env ht' hx).trans (hst.env x hx)⟩
    · rw [if_neg huv]
      refine agree_single (exec_replaceValue hs hb hv hne hc hd hu hst fun hphi hread => ?_)
      obtain ⟨a, ha, hbefore⟩ := hs.reads_value hd hu hphi hread
      obtain rfl : v = a := by simpa using ha
      obtain ⟨hparam, hmem⟩ := mem_reads hread
      have hcover := hc.before d u hd hu hphi hparam hmem hbefore
      exact hsame d pre s hlive hH (hbefore.known hs.listing hd hr hsplit hstore)
        (hcover.known hs.listing hd hr hsplit)
  · have hr := hinv.reached d hlive
    refine leave_replaceValue hs hb hv hne (hinv.mem_layout hs hlive) hst (fun hend => ?_) hgraph
    exact hsame d _ s hlive hH (hend.known hs.listing hr hstore)
      ((hc.atEnd d hend).known hs.listing hr)

end replaceValue

/-! ## A constant that is put in -/

section inserted

variable {y : Value}

/-- A list with one element put in, cut at any place. -/
theorem insertIdx_append {l l' : List ValueId} (hi : i ≤ (l ++ l').length) :
    ∃ m m', (l ++ l').insertIdx i x = m ++ m' ∧ (l' = [] → m' = []) ∧
      (m = l ∨ i ≤ l.length ∧ m = l.take i ++ x :: l.drop i) := by
  rw [insertIdx_split hi]
  by_cases hil : i ≤ l.length
  · refine ⟨l.take i ++ x :: l.drop i, l', ?_, id, .inr ⟨hil, rfl⟩⟩
    rw [List.take_append_of_le_length hil, List.drop_append_of_le_length hil, List.append_assoc,
      List.cons_append]
  · refine ⟨l, l'.take (i - l.length) ++ x :: l'.drop (i - l.length), ?_, fun hnil => ?_, .inl rfl⟩
    · rw [List.take_append, List.drop_append, List.take_of_length_le (by omega),
        List.drop_eq_nil_of_le (by omega : l.length ≤ i), List.nil_append, List.append_assoc]
    · subst hnil
      rw [List.append_nil] at hi
      exact absurd hi hil

/-- Instructions that were there before do the same. -/
theorem agree_inserted (hs : f.Ssa) (hc : c ∈ f.layout) {l : List ValueId}
    (hl : l.Sublist (f.block c).values) (hst : Same (· ≠ f.numValues) s t) :
    Agree (Same (· ≠ f.numValues)) (l.foldlM f.exec s) (l.foldlM (f.inserted b i y).exec t) := by
  have hflat : l = l.flatMap fun u => [u] := by simp
  nth_rewrite 2 [hflat]
  refine agree_body (Q := fun _ => Same (· ≠ f.numValues)) (fun pre u post s t hsplit hst => ?_) hst
  have hu : u ∈ (f.block c).values := hl.subset (by rw [hsplit]; simp)
  have hval : (f.inserted b i y).value u = f.value u := hs.listing.value_inserted hc hu
  refine agree_single (agree_exec hst (by rw [hval]) ?_ fun hphi => ?_)
  · rw [hval]
    refine List.map_congr_left fun o ho => operandType_inserted fun a ha => ?_
    by_cases hphi : (f.value u).op = .phi
    · have ho : o ∈ (f.value u).args := by simpa [Value.reads, hphi] using ho
      obtain ⟨-, p, -, hend⟩ := hs.arg_pred hc hu hphi (ha ▸ ho)
      exact hend.ne_numValues
    · obtain ⟨a', ha', hbefore⟩ := hs.reads_value hc hu hphi ho
      obtain rfl : a = a' := by simpa [ha] using ha'
      exact hbefore.ne_numValues
  · rw [hval]
    refine List.map_congr_left fun o ho => ?_
    obtain ⟨a, rfl, hbefore⟩ := hs.reads_value hc hu hphi ho
    exact (hst.get hbefore.ne_numValues).symm

/-- The new constant runs by itself. -/
theorem exec_inserted (hconst : y.op = .const) (t : I.State) :
    (f.inserted b i y).exec t f.numValues =
      .ok (t.assign f.numValues .const (I.const y.bare, t.mem)) := by
  have hv : (f.inserted b i y).value f.numValues = { y with block := some b } := by
    rw [value_inserted, if_pos rfl]
  simp [exec, hv, hconst, Interp.perform, Value.bare]

theorem leave_inserted (hs : f.Ssa) (hb : b ∈ f.layout) (hi : i ≤ (f.block b).values.length)
    (hc : c ∈ f.layout) (hst : Same (· ≠ f.numValues) s t) :
    Agree (SamePoint (· ≠ f.numValues)) (f.leave c s) ((f.inserted b i y).leave c t) := by
  have hblt := hs.flow.lt b hb
  obtain ⟨hkind, hctl⟩ := @end_inserted f b c i y hblt
  refine agree_leave (sameGraph_inserted hblt) hst hkind (fun hk => ?_) (fun _ => by rw [hctl])
    fun k e j hfollow => ⟨hst.mem, fun x hx => ?_⟩
  · rw [hctl]
    by_cases hm : (f.block c).control = .missing
    · rw [hm]
      rfl
    · obtain ⟨a, ha, hend⟩ := hs.control_value hc (hk.imp_right fun hk => ⟨hk, hm⟩)
      rw [ha]
      exact (hst.get hend.ne_numValues).symm
  · have hel := hs.flow.succs_mem c hc e (follow_next hfollow)
    have hold : (f.inserted b i y).value x = f.value x := by rw [value_inserted, if_neg hx]
    have hin : x ∈ ((f.inserted b i y).block e).values ↔ x ∈ (f.block e).values := by
      rw [mem_values_inserted hblt hi]
      simp [hx]
    by_cases hphi : x ∈ (f.block e).values ∧ (f.value x).op = .phi
    · obtain ⟨a, harg, -, hend⟩ := hs.phi_arg hel hphi.1 hphi.2 hfollow
      rw [enter_phi hphi.1 hphi.2, enter_phi (hin.mpr hphi.1) (by rw [hold]; exact hphi.2), hold]
      simp only [List.getD_eq_getElem?_getD, harg, Option.getD_some]
      exact hst.get hend.ne_numValues
    · rw [enter_env hphi, enter_env (by rw [hin, hold]; exact hphi)]
      exact hst.env x hx

/-- A new constant changes nothing but its own value. -/
theorem lockstep_inserted (hs : f.Ssa) (hb : b ∈ f.layout) (hi : i ≤ (f.block b).values.length)
    (hconst : y.op = .const) : Lockstep I (· ≠ f.numValues) f (f.inserted b i y) := by
  have hblt := hs.flow.lt b hb
  refine (Invariant.trivial f).lockstep hs (sameGraph_inserted hblt).start
    (fun c pre post s t hr _ hst hsplit => ?_) fun c s t hr _ hst =>
      leave_inserted hs hb hi (hs.flow.reached_mem hr) hst
  have hstep : ∀ l : List ValueId, l.Sublist (f.block c).values → ∀ s t : I.State,
      Same (· ≠ f.numValues) s t → Agree (Same (· ≠ f.numValues)) (l.foldlM f.exec s)
        (l.foldlM (f.inserted b i y).exec t) :=
    fun l hl s t => agree_inserted hs (hs.flow.reached_mem hr) hl
  have hpre : pre.Sublist (f.block c).values := hsplit ▸ List.sublist_append_left pre post
  have hholding : ∀ {s t : I.State}, Same (· ≠ f.numValues) s t →
      Same (· ≠ f.numValues) s t ∧ f.Holding (fun _ _ => True) c pre s :=
    fun h => ⟨h, fun _ _ => True.intro⟩
  rw [block_inserted hblt]
  split
  · next heq =>
    subst heq
    obtain ⟨m, m', hm, hnil, hor⟩ := insertIdx_append (x := f.numValues) (hsplit ▸ hi)
    refine ⟨m, m', by simp only [hsplit, hm], hnil, fun x hx => ?_, ?_⟩
    · rcases hor with rfl | ⟨-, rfl⟩
      · rfl
      · have hcut : x ∈ pre ↔ x ∈ pre.take i ∨ x ∈ pre.drop i := by
          rw [← List.mem_append, List.take_append_drop]
        simp [hcut, hx]
    rcases hor with rfl | ⟨-, rfl⟩
    · exact (hstep _ hpre s t hst).imp fun _ _ => hholding
    · -- up to the constant, the constant, and the rest
      nth_rewrite 2 [← List.take_append_drop i pre]
      rw [List.foldlM_append, List.foldlM_append]
      refine (hstep _ ((List.take_sublist i pre).trans hpre) s t hst).bind
        fun s' t' _ _ hst' => ?_
      rw [List.foldlM_cons, exec_inserted hconst]
      refine (hstep _ ((List.drop_sublist i pre).trans hpre) s'
        (t'.assign f.numValues .const (I.const y.bare, t'.mem)) ⟨hst'.mem, fun x hx => ?_⟩).imp
        fun _ _ => hholding
      simp only [Interp.State.assign, reduceCtorEq, if_false, Function.update_of_ne hx]
      exact hst'.env x hx
  · exact ⟨pre, post, hsplit, id, fun _ _ => .rfl,
      (hstep _ hpre s t hst).imp fun _ _ => hholding⟩

end inserted

/-! ## An instruction for one that does the same -/

theorem Same.eq (h : Same (fun _ => True) s t) : s = t := by
  obtain ⟨hmem, henv⟩ := h
  cases s
  cases t
  simp only at hmem henv
  rw [hmem, show _ = _ from funext fun v => henv v True.intro]

/-- A function runs as before when an instruction is changed for one that does the same whenever it
runs. -/
theorem Invariant.lockstep_modifyValue (hinv : Invariant I f live Φ) (hs : f.Ssa)
    (hb : b ∈ f.layout) (hv : v ∈ (f.block b).values) {k : Value → Value}
    (htype : (k (f.value v)).type = (f.value v).type) (hphi : (f.value v).op ≠ .phi)
    (hphi' : (k (f.value v)).op ≠ .phi)
    (hsame : ∀ pre post (s : I.State), live b → (f.block b).values = pre ++ v :: post →
      f.Holding Φ b pre s → (f.modifyValue v k).exec s v = f.exec s v) :
    Lockstep I (fun _ => True) f (f.modifyValue v k) := by
  have hlt := hs.listing.lt hb hv
  have hother : ∀ {x}, x ≠ v → (f.modifyValue v k).value x = f.value x := fun hx => by
    rw [value_modifyValue hlt, if_neg hx]
  have htypes : ∀ o, (f.modifyValue v k).operandType o = f.operandType o := by
    intro o
    cases o with
    | value x =>
      change ((f.modifyValue v k).value x).type = (f.value x).type
      rw [value_modifyValue hlt]
      split
      · next heq => rw [heq]; exact htype
      · rfl
    | missing => rfl
    | foreign n => rfl
  refine hinv.lockstep_of_instrs hs rfl (fun u => [u]) (fun c _ => by simp) (fun _ _ _ => by simp)
    (fun c pre u post s t hlive hsplit hH hst => ?_) fun c s t _ _ hst => ?_
  · obtain rfl := hst.eq
    refine agree_single ?_
    by_cases huv : u = v
    · subst huv
      obtain rfl := hs.listing.unique (hinv.mem_layout hs hlive) hb (by rw [hsplit]; simp) hv
      rw [hsame pre post s hlive hsplit hH]
      exact .refl (Same.refl _) _
    · refine agree_exec hst (by rw [hother huv]) ?_ fun _ => by rw [hother huv]
      rw [hother huv]
      exact List.map_congr_left fun o _ => htypes o
  · obtain rfl := hst.eq
    refine agree_leave sameGraph_modifyValue hst rfl (fun _ => rfl) (fun _ => .rfl)
      fun i e j _ => ⟨rfl, fun x _ => ?_⟩
    by_cases hxv : x = v
    · subst hxv
      have hnew : ((f.modifyValue x k).value x).op ≠ .phi := by
        rw [value_modifyValue hlt, if_pos rfl]
        exact hphi'
      rw [enter_env fun hin => hphi hin.2, enter_env fun hin => hnew hin.2]
    · simp only [enter, hother hxv]
      rfl

end SsaJit.Func
