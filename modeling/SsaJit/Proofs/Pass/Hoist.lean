import SsaJit.Pass.Hoist
import SsaJit.Proofs.Graph.Loops
import SsaJit.Proofs.Pass.Basic

/-! Moving invariants out of loops keeps functions good. A value moves to a block that dominates the
one it leaves, so its readers still find it; and what it reads comes from blocks outside the loop
that dominate a block inside, so it can be read at the end of the block it moves to. -/

namespace SsaJit.Func

variable {f g : Func} {b c d pre : BlockId} {u v w x : ValueId} {o : Operand}

/-! ## Moving one value -/

/-- Only slots care whether they stand in the entry. -/
theorem WellTyped.anywhere {y : Value} {ts : List Ty} {home home' : Prop}
    (h : WellTyped y ts home) (hop : y.op ≠ .alloca) : WellTyped y ts home' := by
  unfold WellTyped at h ⊢
  cases hy : y.op
  case alloca => exact absurd hy hop
  all_goals
    rw [hy] at h
    exact h

section moveValue

variable (h : f.Ssa) (hb : b ∈ f.layout) (hv : v ∈ (f.block b).values) (hp : pre ∈ f.layout)

include h hb hv

theorem value_moveValue : (f.moveValue b pre v).value x =
    if x = v then { f.value v with block := some pre } else f.value x := by
  have hlt := h.listing.lt hb hv
  unfold moveValue
  rw [value_modifyBlock, value_modifyValue (by simpa using hlt), value_removeValue hlt hv,
    value_removeValue hlt hv]
  split <;> simp_all

include hp in
theorem block_moveValue (hne : pre ≠ b) : (f.moveValue b pre v).block c =
    if c = b then { f.block b with values := (f.block b).values.erase v }
    else if c = pre then { f.block pre with values := (f.block pre).values ++ [v] }
    else f.block c := by
  have hblt := h.flow.lt b hb
  unfold moveValue
  rw [block_modifyBlock (by simpa using h.flow.lt pre hp), block_modifyValue,
    block_modifyValue, block_removeValue hblt hv, block_removeValue hblt hv]
  by_cases hcb : c = b
  · simp [hcb, hne.symm]
  · by_cases hcp : c = pre <;> simp [hcb, hcp, hne]

include hp in
theorem sameGraph_moveValue (hne : pre ≠ b) : SameGraph f (f.moveValue b pre v) := by
  have hblock := fun c => block_moveValue (c := c) h hb hv hp hne
  have hrest : ∀ c, ((f.moveValue b pre v).block c).succs = (f.block c).succs ∧
      ((f.moveValue b pre v).block c).preds = (f.block c).preds ∧
      ((f.moveValue b pre v).block c).isForeign = (f.block c).isForeign := by
    intro c
    rw [hblock]
    split
    · next heq => simp [heq]
    · split
      · next heq => simp [heq]
      · simp
  exact ⟨by simp [moveValue], by simp [moveValue], fun c => (hrest c).1, fun c => (hrest c).2.1,
    fun c => (hrest c).2.2⟩

end moveValue

/-- The last element of a list is before none. -/
theorem sublist_of_append_last {l : List ValueId} (hs : [x, u].Sublist (l ++ [v])) (hu : u ≠ v) :
    [x, u].Sublist l := by
  obtain ⟨l₁, l₂, heq, h₁, h₂⟩ := List.sublist_append_iff.mp hs
  rcases List.sublist_singleton.mp h₂ with rfl | rfl
  · rw [List.append_nil] at heq
    exact heq ▸ h₁
  · have hlast := congrArg List.getLast? heq
    simp at hlast
    exact absurd hlast hu

/-- `g` is `f` with `v` moved from `b` to the end of `pre`. -/
structure Moved (f g : Func) (b pre : BlockId) (v : ValueId) : Prop where
  graph : SameGraph f g
  ret : g.ret = f.ret
  source : b ∈ f.layout
  target : pre ∈ f.layout
  ne : pre ≠ b
  mem : v ∈ (f.block b).values
  value : ∀ x, g.value x = if x = v then { f.value v with block := some pre } else f.value x
  block : ∀ c, g.block c = if c = b then { f.block b with values := (f.block b).values.erase v }
    else if c = pre then { f.block pre with values := (f.block pre).values ++ [v] }
    else f.block c

theorem moved (h : f.Ssa) (hb : b ∈ f.layout) (hv : v ∈ (f.block b).values) (hp : pre ∈ f.layout)
    (hne : pre ≠ b) : Moved f (f.moveValue b pre v) b pre v :=
  ⟨sameGraph_moveValue h hb hv hp hne, by simp [moveValue], hb, hp, hne, hv,
    fun _ => value_moveValue h hb hv, fun _ => block_moveValue h hb hv hp hne⟩

namespace Moved

variable (h : Moved f g b pre v)
include h

/-- Values change only where they are. -/
theorem head (x : ValueId) : ∃ d, g.value x = { f.value x with block := d } := by
  rw [h.value]
  split
  · next heq => exact ⟨some pre, by rw [heq]⟩
  · exact ⟨(f.value x).block, rfl⟩

theorem op (x : ValueId) : (g.value x).op = (f.value x).op := by
  obtain ⟨d, hd⟩ := h.head x
  rw [hd]

theorem operandType (o : Operand) : g.operandType o = f.operandType o := by
  cases o with
  | value x =>
    change (g.value x).type = (f.value x).type
    obtain ⟨d, hd⟩ := h.head x
    rw [hd]
  | missing => rfl
  | foreign k => rfl

theorem argTypes (y : Value) : g.argTypes y = f.argTypes y :=
  List.map_congr_left fun o _ => h.operandType o

theorem kind_control (c : BlockId) : (g.block c).kind = (f.block c).kind ∧
    (g.block c).control = (f.block c).control := by
  rw [h.block]
  split
  · next heq => simp [heq]
  · split
    · next heq => simp [heq]
    · simp

theorem block_new : (g.value v).block = some pre := by rw [h.value, if_pos rfl]

theorem block_old (hx : x ≠ v) : (g.value x).block = (f.value x).block := by
  rw [h.value, if_neg hx]

variable (hl : f.Listing)

section listing

include hl

theorem block_eq : (f.value v).block = some b := (hl.listed v b).mpr ⟨h.source, h.mem⟩

theorem mem_values (hc : c ∈ f.layout) : x ∈ (g.block c).values ↔
    (x ∈ (f.block c).values ∧ x ≠ v) ∨ (x = v ∧ c = pre) := by
  rw [h.block]
  split
  · next heq =>
    subst heq
    rw [(hl.nodup c hc).mem_erase_iff]
    constructor
    · rintro ⟨hx, hm⟩
      exact .inl ⟨hm, hx⟩
    · rintro (⟨hm, hx⟩ | ⟨-, heq⟩)
      · exact ⟨hx, hm⟩
      · exact absurd heq.symm h.ne
  · next hcb =>
    have hvc : v ∉ (f.block c).values := fun hm => hcb (hl.unique hc h.source hm h.mem)
    have hkept : x ∈ (f.block c).values ↔ x ∈ (f.block c).values ∧ x ≠ v :=
      ⟨fun hm => ⟨hm, fun heq => hvc (heq ▸ hm)⟩, fun hm => hm.1⟩
    split
    · next heq =>
      subst heq
      simp only [List.mem_append, List.mem_singleton, and_true]
      exact or_congr_left hkept
    · next hcp =>
      simp only [hcp, and_false, or_false]
      exact hkept

theorem listing : g.Listing := by
  refine ⟨fun x c => ?_, fun c hc => ?_⟩
  · rw [h.graph.layout]
    by_cases hxv : x = v
    · subst hxv
      rw [h.block_new]
      constructor
      · intro heq
        obtain rfl : pre = c := Option.some.inj heq
        exact ⟨h.target, (h.mem_values hl h.target).mpr (.inr ⟨rfl, rfl⟩)⟩
      · rintro ⟨hc, hm⟩
        rcases (h.mem_values hl hc).mp hm with ⟨-, hx⟩ | ⟨-, rfl⟩
        · exact absurd rfl hx
        · rfl
    · rw [h.block_old hxv, hl.listed x c]
      refine and_congr_right fun hc => ?_
      rw [h.mem_values hl hc]
      simp [hxv]
  · rw [h.graph.layout] at hc
    rw [h.block]
    split
    · exact (hl.nodup b h.source).erase v
    · split
      · refine List.nodup_append.mpr ⟨hl.nodup pre h.target, by simp, fun x hx y hy => ?_⟩
        obtain rfl : y = v := by simpa using hy
        exact fun heq => h.ne (hl.unique h.target h.source (heq ▸ hx) h.mem)
      · exact hl.nodup c hc

end listing

/-- Values other than the one moved stay in order. -/
theorem sublist (hx : x ≠ v) (hu : u ≠ v) (hs : [x, u].Sublist (f.block c).values) :
    [x, u].Sublist (g.block c).values := by
  rw [h.block]
  split
  · next heq =>
    subst heq
    have := hs.erase v
    simpa [List.erase_cons, hx, hu] using this
  · split
    · next heq => subst heq; exact hs.trans (List.sublist_append_left _ _)
    · exact hs

/-- In front of other values stands nothing new. -/
theorem sublist_back (hu : u ≠ v) (hs : [x, u].Sublist (g.block c).values) :
    [x, u].Sublist (f.block c).values := by
  rw [h.block] at hs
  split at hs
  · next heq => subst heq; exact hs.trans List.erase_sublist
  · split at hs
    · next heq => subst heq; exact sublist_of_append_last hs hu
    · exact hs

section dominated

variable (hdom : f.Dominates pre b)
include hl hdom

/-- What can be read at the end of a block still can: the new place is above the old one. -/
theorem atEnd (ho : f.AtEnd o c) : g.AtEnd o c := by
  obtain ⟨x, hx, hor⟩ := ho
  refine ⟨x, hx, ?_⟩
  rw [h.op]
  refine hor.imp_right fun ⟨d, hd, hdc⟩ => ?_
  by_cases hxv : x = v
  · subst hxv
    obtain rfl : b = d := Option.some.inj ((h.block_eq hl).symm.trans hd)
    exact ⟨pre, h.block_new, fun hrc =>
      h.graph.dominates.mpr (hdom.trans (hdc (h.graph.reached.mp hrc)))⟩
  · exact ⟨d, (h.block_old hxv).trans hd, fun hrc =>
      h.graph.dominates.mpr (hdc (h.graph.reached.mp hrc))⟩

/-- What another value reads can be read there still. -/
theorem before (hr : f.Reached b) (hu : u ≠ v) (ho : f.Before o u c) : g.Before o u c := by
  obtain ⟨y, hy, hor⟩ := ho
  refine ⟨y, hy, ?_⟩
  rw [h.op]
  refine hor.imp_right fun ⟨hsome, hearly⟩ => ?_
  by_cases hyv : y = v
  · -- a reader of the moved value: its new block is above that of the reader
    subst hyv
    refine ⟨by rw [h.block_new]; rfl, fun hrc => ⟨pre, h.block_new, .inr ?_⟩⟩
    obtain ⟨d, hd, hor⟩ := hearly (h.graph.reached.mp hrc)
    obtain rfl : b = d := Option.some.inj ((h.block_eq hl).symm.trans hd)
    have hbc : f.Dominates b c := by
      rcases hor with ⟨rfl, -⟩ | ⟨-, hbc⟩
      · exact .refl _ _ _
      · exact hbc
    refine ⟨?_, h.graph.dominates.mpr (hdom.trans hbc)⟩
    rintro rfl
    exact h.ne (hdom.antisymm hr hbc)
  · refine ⟨h.block_old hyv ▸ hsome, fun hrc => ?_⟩
    exact (hearly (h.graph.reached.mp hrc)).stays h.graph.narrows (h.block_old hyv)
      (h.sublist hyv hu)

/-- What the moved value reads can be read in its new place. -/
theorem before_new (hr : f.Reached b) (ho : f.AtEnd o pre) : g.Before o v pre := by
  obtain ⟨y, hy, hor⟩ := ho
  refine ⟨y, hy, ?_⟩
  rw [h.op]
  refine hor.imp_right fun ⟨d, hd, hdp⟩ => ?_
  have hdp := hdp (hdom.reach hr)
  have hyv : y ≠ v := by
    rintro rfl
    obtain rfl : b = d := Option.some.inj ((h.block_eq hl).symm.trans hd)
    exact h.ne (hdom.antisymm hr hdp)
  have hsame : (g.value y).block = some d := (h.block_old hyv).trans hd
  refine ⟨by rw [hsame]; rfl, fun _ => ⟨d, hsame, ?_⟩⟩
  by_cases hdc : d = pre
  · subst hdc
    refine .inl ⟨rfl, ?_⟩
    rw [h.block, if_neg h.ne, if_pos rfl]
    exact (List.singleton_sublist.mpr ((hl.listed y d).mp hd).2).append (List.Sublist.refl [v])
  · exact .inr ⟨hdc, h.graph.dominates.mpr hdp⟩

end dominated

theorem ssa (hf : f.Ssa) (hr : f.Reached b) (hdom : f.Dominates pre b)
    (hpure : (f.value v).isPure = true) (hargs : ∀ o ∈ (f.value v).args, f.AtEnd o pre) : g.Ssa := by
  have hl := hf.listing
  obtain ⟨hphi, -, -, halloca, -, -⟩ := isPure_op hpure
  refine ⟨h.graph.flow hf.flow, h.listing hl, fun x hx => ?_, fun c hc => ?_,
    fun c hc x u hs hu => ?_, fun c hc x hx hpx => ?_, fun c hc x hx hpx => ?_⟩
  · rw [h.graph.start] at hx
    rw [h.op]
    rcases (h.mem_values hl hf.flow.start_mem).mp hx with ⟨hx, -⟩ | ⟨rfl, -⟩
    · exact hf.entry_phis x hx
    · exact hphi
  · rw [h.graph.layout] at hc
    obtain ⟨hkind, hctl⟩ := h.kind_control c
    refine (hf.ends c hc).transfer hkind (by rw [h.graph.succs]) h.ret (by rw [hctl]) fun ho => ?_
    rw [hctl]
    exact ⟨h.atEnd hl hdom ho, h.operandType _⟩
  · rw [h.graph.layout] at hc
    rw [h.op] at hu ⊢
    exact hf.phisFirst c hc x u (h.sublist_back (fun heq => hphi (heq ▸ hu)) hs) hu
  · rw [h.graph.layout] at hc
    rw [h.op] at hpx
    rcases (h.mem_values hl hc).mp hx with ⟨hx, hxv⟩ | ⟨rfl, -⟩
    · obtain ⟨hlen, hall⟩ := hf.phis c hc x hx hpx
      unfold PhiWell
      rw [h.value, if_neg hxv, h.graph.preds]
      exact ⟨hlen, fun z hz => ⟨(h.operandType _).trans (hall z hz).1, h.atEnd hl hdom (hall z hz).2⟩⟩
    · exact absurd hpx hphi
  · rw [h.graph.layout] at hc
    rw [h.op] at hpx
    unfold ValueWell
    rw [h.argTypes, h.graph.start]
    rcases (h.mem_values hl hc).mp hx with ⟨hx, hxv⟩ | ⟨rfl, rfl⟩
    · obtain ⟨hbefore, htyped⟩ := hf.values c hc x hx hpx
      rw [h.value, if_neg hxv]
      exact ⟨fun hpar o ho => h.before hl hdom hr hxv (hbefore hpar o ho), htyped⟩
    · rw [h.value, if_pos rfl]
      exact ⟨fun _ o ho => h.before_new hl hdom hr (hargs o ho),
        (hf.values b h.source x h.mem hphi).2.anywhere halloca⟩

theorem noStore (ho : f.NoStore o) : g.NoStore o := by
  intro x hx
  rw [h.op]
  exact ho x hx

theorem mem_layout (hl : f.Listing) (hc : c ∈ g.layout) (hx : x ∈ (g.block c).values) :
    ∃ d ∈ f.layout, x ∈ (f.block d).values := by
  rw [h.graph.layout] at hc
  rcases (h.mem_values hl hc).mp hx with ⟨hx, -⟩ | ⟨rfl, -⟩
  · exact ⟨c, hc, hx⟩
  · exact ⟨b, h.source, h.mem⟩

theorem tidy {strict : Prop} (hf : f.Tidy strict) (hl : f.Listing) : g.Tidy strict := by
  refine tidy_of (fun c hc x hx => ?_) (storesUnused_of (fun c hc x hx o ho => ?_) fun c hc => ?_)
    fun hs c hc hbr hret => ?_
  · obtain ⟨d, hd, hx⟩ := h.mem_layout hl hc hx
    obtain ⟨e, he⟩ := h.head x
    have hy := hf.value hd hx
    rw [he]
    exact ⟨hy.consts, hy.type, hy.params⟩
  · obtain ⟨d, hd, hx⟩ := h.mem_layout hl hc hx
    obtain ⟨e, he⟩ := h.head x
    rw [he] at ho
    exact h.noStore (hf.noStore_arg hd hx ho)
  · rw [(h.kind_control c).2]
    exact h.noStore (hf.stores.control (h.graph.layout ▸ hc))
  · rw [(h.kind_control c).1] at hbr hret
    rw [(h.kind_control c).2]
    exact hf.ends hs c (h.graph.layout ▸ hc) hbr hret

end Moved

/-! ## Invariants of a loop -/

/-- The value can be moved from `b` to the end of `pre`: it can be computed there, whether control
comes to `b` or not. -/
structure Movable (f : Func) (b pre : BlockId) (v : ValueId) : Prop where
  mem : v ∈ (f.block b).values
  pure : (f.value v).isPure = true
  total : (f.value v).op.isTrapping = false
  reached : f.Reached b
  ne : pre ≠ b
  dominates : f.Dominates pre b
  args : ∀ o ∈ (f.value v).args, f.AtEnd o pre

namespace Movable

variable (h : f.Movable b pre v) (hf : f.Ssa)
include h hf

theorem source : b ∈ f.layout := hf.flow.reached_mem h.reached

theorem target : pre ∈ f.layout := hf.flow.reached_mem (h.dominates.reach h.reached)

theorem moved : Moved f (f.moveValue b pre v) b pre v :=
  Func.moved hf (h.source hf) h.mem (h.target hf) h.ne

theorem ssa : (f.moveValue b pre v).Ssa :=
  (h.moved hf).ssa hf h.reached h.dominates h.pure h.args

theorem graph : SameGraph f (f.moveValue b pre v) := (h.moved hf).graph

end Movable

section invariant

variable {l : Loop}

/-- What `isInvariant` does with one operand. -/
def outsideStep (f : Func) (l : Loop) (ok : Bool) (o : Operand) : Outcome Bool := do
  if !ok then return false
  let a ← f.find o
  match o, a.block with
  | .value _, some b => return !l.contains b
  | _, _ => return true

theorem outsideStep_foldlM (f : Func) (l : Loop) (vs : List ValueId) :
    ∀ ok, ∃ r, (vs.map Operand.value).foldlM (outsideStep f l) ok = .ok r ∧
      (r = true → ok = true ∧ ∀ w ∈ vs, ∀ d, (f.value w).block = some d → d ∉ l.blocks) := by
  induction vs with
  | nil => exact fun ok => ⟨ok, rfl, fun h => ⟨h, by simp⟩⟩
  | cons w vs ih =>
    intro ok
    obtain ⟨r₁, hstep, hr₁⟩ : ∃ r₁, outsideStep f l ok (.value w) = .ok r₁ ∧ (r₁ = true →
        ok = true ∧ ∀ d, (f.value w).block = some d → d ∉ l.blocks) := by
      cases ok with
      | false => exact ⟨false, rfl, by simp⟩
      | true =>
        cases hblock : (f.value w).block with
        | none => exact ⟨true, by simp [outsideStep, find, hblock], by simp⟩
        | some d =>
          refine ⟨!l.contains d, by simp [outsideStep, find, hblock], fun hout => ⟨rfl, ?_⟩⟩
          rintro d' heq
          obtain rfl := Option.some.inj heq
          simpa [Loop.contains] using hout
    obtain ⟨r, hr, hall⟩ := ih r₁
    refine ⟨r, by rw [List.map_cons, List.foldlM_cons, hstep]; exact hr, fun htrue => ?_⟩
    obtain ⟨hr₁', hrest⟩ := hall htrue
    obtain ⟨hok, hout⟩ := hr₁ hr₁'
    refine ⟨hok, fun x hx => ?_⟩
    rcases List.mem_cons.mp hx with rfl | hx
    · exact hout
    · exact hrest x hx

theorem isInvariant_spec (h : f.Ssa) (hb : b ∈ f.layout) (hv : v ∈ (f.block b).values) :
    ∃ r, f.isInvariant l (f.value v) = .ok r ∧ (r = true → (f.value v).isPure = true ∧
      (f.value v).op.isTrapping = false ∧ ∀ w, .value w ∈ (f.value v).args →
        ∀ d, (f.value w).block = some d → d ∉ l.blocks) := by
  unfold isInvariant
  split
  · exact ⟨false, rfl, by simp⟩
  · next hpure =>
    simp only [Bool.or_eq_true, Bool.not_eq_true', not_or, Bool.not_eq_false,
      Bool.not_eq_true] at hpure
    obtain ⟨hphi, hparam, _⟩ := isPure_op hpure.1
    obtain ⟨vs, hvs⟩ := exists_values fun o ho => (h.before hb hv hphi hparam ho).isValue
    obtain ⟨r, hr, hall⟩ := outsideStep_foldlM f l vs true
    refine ⟨r, by rw [hvs]; exact hr, fun htrue => ⟨hpure.1, hpure.2, fun w hw => ?_⟩⟩
    rw [hvs] at hw
    exact (hall htrue).2 w (by simpa using hw)

/-! ## The block in front of a loop -/

/-- The block leads into the loop, and alone. -/
structure Entrance (f : Func) (l : Loop) (pre : BlockId) : Prop where
  loop : l.Of f
  outside : pre ∉ l.blocks
  edge : l.header ∈ f.next pre
  dominates : f.Dominates pre l.header

theorem preheader?_spec (hf : f.Flow) (hl : l.Of f) (hp : f.preheader? l = some pre) :
    f.Entrance l pre := by
  unfold preheader? at hp
  split at hp
  · next p heq =>
    split at hp
    · obtain rfl : p = pre := Option.some.inj hp
      have hmem : ∀ a, a ∈ (f.block l.header).preds → a ∉ l.blocks → a = p := by
        intro a ha hout
        have : a ∈ ((f.block l.header).preds.filter fun p => !l.contains p).eraseDups := by
          rw [List.mem_eraseDups, List.mem_filter]
          exact ⟨ha, by simpa [Loop.contains] using hout⟩
        rw [heq] at this
        simpa using this
      have hpre : p ∈ (f.block l.header).preds.filter fun p => !l.contains p := by
        rw [← List.mem_eraseDups, heq]
        exact List.mem_cons_self
      obtain ⟨hpred, hout⟩ := List.mem_filter.mp hpre
      have hhead := hf.reached_mem (hl.reached _ hl.header)
      have hplay := hf.preds_mem _ hhead p hpred
      have hne : l.header ≠ f.start := by
        intro heq
        rw [heq, hf.entry_preds] at hpred
        simp at hpred
      refine ⟨hl, by simpa [Loop.contains] using hout, (hf.mem_preds_iff hplay hhead).mp hpred,
        hl.only_way hne fun a ha hedge => hmem a ?_⟩
      exact (hf.mem_preds_iff (hf.reached_mem ha) hhead).mpr hedge
    · cases hp
  · cases hp

theorem InLoop.sameGraph {x : BlockId} (hx : f.InLoop b x) (hg : SameGraph f g) : g.InLoop b x := by
  refine hx.imp_right fun ⟨hr, s, p, hback, hp, hb⟩ => ?_
  have hnext := hg.next
  exact ⟨hg.reached.mpr hr, s, p,
    ⟨hg.reached.mpr hback.reached, hnext ▸ hback.edge, hg.dominates.mpr hback.dominates⟩,
    hnext ▸ hp, hb⟩

theorem Entrance.sameGraph (h : f.Entrance l pre) (hg : SameGraph f g) : g.Entrance l pre where
  loop :=
    { start := hg.reached.mpr h.loop.start
      header := h.loop.header
      inside := fun b hb => (h.loop.inside b hb).sameGraph hg
      waiting := by simp
      closed := fun b hb hne p hp hr =>
        h.loop.closed b hb hne p (hg.preds b ▸ hp) (hg.reached.mp hr) }
  outside := h.outside
  edge := by rw [hg.next]; exact h.edge
  dominates := hg.dominates.mpr h.dominates

/-- What a value of the loop reads from outside can be read in front of the loop. -/
theorem Entrance.atEnd (h : f.Entrance l pre) (hf : f.Ssa) (hb : b ∈ l.blocks)
    (hv : v ∈ (f.block b).values) (hpure : (f.value v).isPure = true)
    (ho : .value w ∈ (f.value v).args) (hout : ∀ d, (f.value w).block = some d → d ∉ l.blocks) :
    f.AtEnd (.value w) pre := by
  have hr := h.loop.reached b hb
  have hlay := hf.flow.reached_mem hr
  obtain ⟨hphi, hparam, _⟩ := isPure_op hpure
  obtain ⟨w', hw', hbefore⟩ := hf.before hlay hv hphi hparam ho
  obtain rfl : w = w' := by simpa using hw'
  refine ⟨w, rfl, hbefore.imp_right fun ⟨_, hearly⟩ => ?_⟩
  obtain ⟨d, hd, hor⟩ := hearly hr
  have hout := hout d hd
  have hdb : f.Dominates d b := by
    rcases hor with ⟨rfl, _⟩ | ⟨_, hdb⟩
    · exact absurd hb hout
    · exact hdb
  refine ⟨d, hd, fun _ => ?_⟩
  exact (h.loop.dominates_header hf.flow hb hdb hout).of_edge h.edge
    fun heq => hout (heq ▸ h.loop.header)

theorem Entrance.movable (h : f.Entrance l pre) (hf : f.Ssa) (hb : b ∈ l.blocks)
    (hv : v ∈ (f.block b).values) (hpure : (f.value v).isPure = true)
    (htotal : (f.value v).op.isTrapping = false) (hargs : ∀ w, .value w ∈ (f.value v).args →
      ∀ d, (f.value w).block = some d → d ∉ l.blocks) : f.Movable b pre v where
  mem := hv
  pure := hpure
  total := htotal
  reached := h.loop.reached b hb
  ne heq := h.outside (heq ▸ hb)
  dominates := h.dominates.trans (h.loop.dominated b hb)
  args o ho := by
    obtain ⟨hphi, hparam, _⟩ := isPure_op hpure
    have hlay := hf.flow.reached_mem (h.loop.reached b hb)
    obtain ⟨w, rfl⟩ := (hf.before hlay hv hphi hparam ho).isValue
    exact h.atEnd hf hb hv hpure ho (hargs w ho)

/-! ## Going through a loop -/

/-- What `hoistSweep` does with one value. -/
def hoistStep (l : Loop) (pre b : BlockId) (s : Func × Bool) (id : ValueId) : Optimized := do
  if ← s.1.isInvariant l (s.1.value id) then return (s.1.moveValue b pre id, true)
  return s

theorem hoistSweep_eq {rpo : List BlockId} : hoistSweep l pre rpo f =
    (rpo.filter l.contains).foldlM (fun s b =>
      (s.1.block b).values.foldlM (hoistStep l pre b) s) (f, false) := rfl

/-- What is kept when a value is moved that can be. -/
def KeptByMoves (P : Func → Prop) : Prop :=
  ∀ k b pre v, k.Ssa → P k → k.Movable b pre v → P (k.moveValue b pre v)

section

variable {P : Func → Prop} (hP : KeptByMoves P)
include hP

theorem hoistStep_spec (h : f.Entrance l pre) (hf : f.Ssa) (hPf : P f) (hb : b ∈ l.blocks)
    (hv : v ∈ (f.block b).values) (ch : Bool) :
    ∃ s, hoistStep l pre b (f, ch) v = .ok s ∧ s.1.Ssa ∧ SameGraph f s.1 ∧ P s.1 ∧
      ∀ x ∈ (f.block b).values, x ≠ v → x ∈ (s.1.block b).values := by
  have hlay := hf.flow.reached_mem (h.loop.reached b hb)
  obtain ⟨r, hr, hinv⟩ := isInvariant_spec (l := l) hf hlay hv
  cases r with
  | false =>
    exact ⟨(f, ch), by simp [hoistStep, hr], hf, .refl f, hPf, fun x hx _ => hx⟩
  | true =>
    obtain ⟨hpure, htotal, hargs⟩ := hinv rfl
    have hmove := h.movable hf hb hv hpure htotal hargs
    refine ⟨(f.moveValue b pre v, true), by simp [hoistStep, hr], hmove.ssa hf, hmove.graph hf,
      hP f b pre v hf hPf hmove, fun x hx hne => ?_⟩
    rw [block_moveValue hf hlay hv (hmove.target hf) hmove.ne, if_pos rfl]
    exact (List.mem_erase_of_ne hne).mpr hx

theorem hoistBlock_spec (h : f.Entrance l pre) (hf : f.Ssa) (hPf : P f) (hb : b ∈ l.blocks)
    (ch : Bool) : ∃ s, (f.block b).values.foldlM (hoistStep l pre b) (f, ch) = .ok s ∧ s.1.Ssa ∧
      SameGraph f s.1 ∧ P s.1 := by
  have hlay := hf.flow.reached_mem (h.loop.reached b hb)
  have hnd := hf.listing.nodup b hlay
  -- the values that the walk has still to come to have not been moved
  have hrun := Outcome.foldlM_keeps_done (b := (f, ch)) (l := (f.block b).values)
    (g := hoistStep l pre b) (P := fun done s => s.1.Ssa ∧ SameGraph f s.1 ∧ P s.1 ∧
      ∀ x ∈ (f.block b).values, x ∉ done → x ∈ (s.1.block b).values) ?_
    ⟨hf, .refl f, hPf, fun x hx _ => hx⟩
  · obtain ⟨s, hs, hgood, hgraph, hPs, _⟩ := hrun
    exact ⟨s, hs, hgood, hgraph, hPs⟩
  · rintro done x rest ⟨k, ch⟩ hsplit ⟨hk, hfk, hPk, hleft⟩
    rw [hsplit] at hnd
    have hx : x ∈ (f.block b).values := by rw [hsplit]; simp
    have hxd : x ∉ done := fun hm =>
      (List.nodup_append.mp hnd).2.2 x hm x List.mem_cons_self rfl
    obtain ⟨s, hs, hgood, hks, hPs, hstay⟩ :=
      hoistStep_spec hP (h.sameGraph hfk) hk hPk hb (hleft x hx hxd) ch
    refine ⟨s, hs, hgood, hfk.trans hks, hPs, fun y hy hyd => ?_⟩
    rw [List.mem_append, List.mem_singleton, not_or] at hyd
    exact hstay y (hleft y hy hyd.1) hyd.2

theorem hoistSweep_spec (rpo : List BlockId) (h : f.Entrance l pre) (hf : f.Ssa) (hPf : P f) :
    ∃ s, hoistSweep l pre rpo f = .ok s ∧ s.1.Ssa ∧ SameGraph f s.1 ∧ P s.1 := by
  rw [hoistSweep_eq]
  refine Outcome.foldlM_keeps (P := fun s : Func × Bool => s.1.Ssa ∧ SameGraph f s.1 ∧ P s.1) ?_
    ⟨hf, .refl f, hPf⟩
  rintro ⟨k, ch⟩ b hb ⟨hk, hfk, hPk⟩
  have hb : b ∈ l.blocks := by simpa [Loop.contains] using (List.mem_filter.mp hb).2
  obtain ⟨s, hs, hgood, hks, hPs⟩ := hoistBlock_spec hP (h.sameGraph hfk) hk hPk hb ch
  exact ⟨s, hs, hgood, hfk.trans hks, hPs⟩

theorem hoistSweeps_spec (rpo : List BlockId) (fuel : Nat) : ∀ f ch, f.Entrance l pre → f.Ssa →
    P f → ∃ s, hoistSweeps l pre rpo fuel f ch = .ok s ∧ s.1.Ssa ∧ SameGraph f s.1 ∧ P s.1 := by
  induction fuel with
  | zero => exact fun f ch _ hf hPf => ⟨(f, ch), rfl, hf, .refl f, hPf⟩
  | succ fuel ih =>
    intro f ch h hf hPf
    obtain ⟨⟨k, moved⟩, hs, hk, hfk, hPk⟩ := hoistSweep_spec hP rpo h hf hPf
    rw [hoistSweeps, hs]
    cases moved with
    | false => exact ⟨(k, ch), rfl, hk, hfk, hPk⟩
    | true =>
      obtain ⟨s, hs', hgood, hks, hPs⟩ := ih k true (h.sameGraph hfk) hk hPk
      exact ⟨s, hs', hgood, hfk.trans hks, hPs⟩

end

end invariant

/-- Moving invariants out of loops keeps what is kept when one value is moved. -/
theorem hoist_keeps {P : Func → Prop} (hP : KeptByMoves P) (h : f.Ssa) (hPf : P f) :
    ∃ g ch, f.hoist = .ok (g, ch) ∧ g.Ssa ∧ SameGraph f g ∧ P g := by
  obtain ⟨t, ht, hof⟩ := h.flow.domTree
  have hrun := Outcome.foldlM_keeps (b := (f, false)) (l := (f.loops t).reverse)
    (g := fun (s : Func × Bool) l => s.1.hoistLoop l t.rpo >>= fun r =>
      .ok (r.1, s.2 || r.2)) (P := fun s : Func × Bool => s.1.Ssa ∧ SameGraph f s.1 ∧ P s.1) ?_
    ⟨h, .refl f, hPf⟩
  · obtain ⟨⟨g, ch⟩, hg, hgood⟩ := hrun
    exact ⟨g, ch, by rw [hoist, ht]; exact hg, hgood⟩
  · rintro ⟨k, ch⟩ l hl ⟨hk, hfk, hPk⟩
    have hof := loops_spec h.flow hof l (List.mem_reverse.mp hl)
    unfold hoistLoop
    cases hpre : k.preheader? l with
    | none => exact ⟨(k, ch), by simp, hk, hfk, hPk⟩
    | some pre =>
      have hpre' : f.preheader? l = some pre := by
        unfold preheader? at hpre ⊢
        simpa only [hfk.preds, hfk.succs] using hpre
      have hent := (preheader?_spec h.flow hof hpre').sameGraph hfk
      obtain ⟨s, hs, hgood, hks, hPs⟩ :=
        hoistSweeps_spec hP t.rpo (k.numValues + 1) k false hent hk hPk
      exact ⟨(s.1, ch || s.2), by simp [hs], hgood, hfk.trans hks, hPs⟩

theorem hoist_good {strict : Prop} (h : f.Good strict) :
    ∃ g ch, f.hoist = .ok (g, ch) ∧ g.Good strict := by
  obtain ⟨g, ch, hg, hssa, -, htidy⟩ := hoist_keeps (P := fun k => k.Tidy strict)
    (fun k b pre v hk htidy hm =>
      (hm.moved hk).tidy htidy hk.listing) h.ssa h.tidy
  exact ⟨g, ch, hg, hssa, htidy⟩

end SsaJit.Func
