import Mathlib.Data.List.Perm.Subperm
import SsaJit.Graph.Dominance
import SsaJit.Proofs.Graph.Walk

/-! The iteration over immediate dominators ends with the true ones. Two facts carry the proof. Every
strict dominator of a block dominates the immediate dominator found for it so far, at all times; and
after `k + 1` rounds what was found lies on every trail with at most `k` edges against the order. A
trail without repetition has no more edges than there are blocks, so the rounds suffice. -/

namespace SsaJit

variable {next : BlockId → List BlockId} {e a b c d x y : BlockId} {p : List BlockId} {k : Nat}

/-! ## Trails with few edges against an order -/

/-- A trail with at most `k` edges that need not go forward in the order. -/
inductive Detour (next : BlockId → List BlockId) (ord : BlockId → Nat) (e : BlockId) :
    Nat → BlockId → List BlockId → Prop
  | start (k : Nat) : Detour next ord e k e [e]
  | forward {k : Nat} {b c : BlockId} {p : List BlockId} :
      Detour next ord e k b p → c ∈ next b → ord b < ord c → Detour next ord e k c (c :: p)
  | back {k : Nat} {b c : BlockId} {p : List BlockId} :
      Detour next ord e k b p → c ∈ next b → Detour next ord e (k + 1) c (c :: p)

variable {ord : BlockId → Nat}

theorem Detour.trail (h : Detour next ord e k b p) : Trail next e b p := by
  induction h with
  | start => exact .start
  | forward _ hc _ ih => exact ih.step hc
  | back _ hc ih => exact ih.step hc

theorem Detour.mono {l : Nat} (h : Detour next ord e k b p) (hkl : k ≤ l) :
    Detour next ord e l b p := by
  induction h generalizing l with
  | start => exact .start l
  | forward _ hc hlt ih => exact .forward (ih hkl) hc hlt
  | @back k b c p _ hc ih =>
    obtain ⟨l, rfl⟩ : ∃ m, l = m + 1 := ⟨l - 1, by omega⟩
    exact .back (ih (by omega)) hc

theorem Detour.cut (h : Detour next ord e k b p) (hd : d ∈ p) :
    ∃ q, Detour next ord e k d q ∧ q <:+ p := by
  induction h with
  | start k =>
    obtain rfl : d = e := by simpa using hd
    exact ⟨[d], .start k, List.suffix_refl _⟩
  | @forward k b c p h hc hlt ih =>
    rcases List.mem_cons.mp hd with rfl | hd
    · exact ⟨d :: p, .forward h hc hlt, List.suffix_refl _⟩
    · obtain ⟨q, hq, hs⟩ := ih hd
      exact ⟨q, hq, hs.trans (List.suffix_cons _ _)⟩
  | @back k b c p h hc ih =>
    rcases List.mem_cons.mp hd with rfl | hd
    · exact ⟨d :: p, .back h hc, List.suffix_refl _⟩
    · obtain ⟨q, hq, hs⟩ := ih hd
      exact ⟨q, hq.mono (Nat.le_succ _), hs.trans (List.suffix_cons _ _)⟩

theorem Trail.detour (h : Trail next e b p) : Detour next ord e p.length b p := by
  induction h with
  | start => exact .start _
  | step _ hc ih => exact .back ih hc

/-- Repetitions can be left out of a trail. -/
theorem Trail.exists_nodup (h : Trail next e b p) :
    ∃ q, Trail next e b q ∧ q.Nodup ∧ ∀ x ∈ q, x ∈ p := by
  induction h with
  | start => exact ⟨[e], .start, by simp, fun _ hx => hx⟩
  | @step b c p h hc ih =>
    obtain ⟨q, hq, hn, hs⟩ := ih
    by_cases hcq : c ∈ q
    · obtain ⟨r, hr, hrq⟩ := hq.cut hcq
      exact ⟨r, hr, hn.sublist hrq.sublist,
        fun x hx => List.mem_cons_of_mem _ (hs x (hrq.subset hx))⟩
    · refine ⟨c :: q, hq.step hc, List.nodup_cons.mpr ⟨hcq, hn⟩, fun x hx => ?_⟩
      rcases List.mem_cons.mp hx with rfl | hx
      · exact List.mem_cons_self
      · exact List.mem_cons_of_mem _ (hs x hx)

/-- Every trail to `b` with at most `k` edges against the order passes `d`. -/
def DomUpTo (next : BlockId → List BlockId) (ord : BlockId → Nat) (e : BlockId) (k : Nat)
    (d b : BlockId) : Prop :=
  ∀ p, Detour next ord e k b p → d ∈ p

theorem DomUpTo.trans {l : Nat} (hab : DomUpTo next ord e l a b) (hbc : DomUpTo next ord e k b c)
    (hkl : k ≤ l) : DomUpTo next ord e k a c := by
  intro p hp
  obtain ⟨q, hq, hs⟩ := hp.cut (hbc p hp)
  exact hs.subset (hab q (hq.mono hkl))

theorem DomUpTo.dom {n : Nat} (hin : ∀ b, Reach next e b → b < n)
    (h : DomUpTo next ord e n d b) : Dom next e d b := by
  intro p hp
  obtain ⟨q, hq, hn, hs⟩ := hp.exists_nodup
  have hlen : q.length ≤ n := by
    have hsub : q.Subperm (List.range n) :=
      List.subperm_of_subset hn fun x hx => List.mem_range.mpr (hin x (.of_mem hq hx))
    simpa using hsub.length_le
  exact hs d (h q (hq.detour.mono hlen))

/-! ## Ancestors in a forest of immediate dominators -/

/-- `a` is `b` or is met going up from `b`. -/
inductive Ancestor (I : BlockId → Option BlockId) (a : BlockId) : BlockId → Prop
  | refl : Ancestor I a a
  | up {b d : BlockId} : I b = some d → Ancestor I a d → Ancestor I a b

variable {I : BlockId → Option BlockId}

theorem Ancestor.trans (hab : Ancestor I a b) (hbc : Ancestor I b c) : Ancestor I a c := by
  induction hbc with
  | refl => exact hab
  | up hd _ ih => exact .up hd ih

/-- What holds of the forest at all times: it goes up in the order within the blocks that have a place
in it, and every strict dominator of a block dominates its parent. -/
structure Forest (next : BlockId → List BlockId) (ord : BlockId → Nat) (e : BlockId)
    (I : BlockId → Option BlockId) : Prop where
  root : I e = some e
  reach : ∀ b d, I b = some d → Reach next e b
  up : ∀ b d, I b = some d → b ≠ e → ord d < ord b ∧ (I d).isSome
  keeps : ∀ b d, I b = some d → b ≠ e → ∀ x, Dom next e x b → x ≠ b → Dom next e x d

namespace Forest

theorem parent_isSome (h : Forest next ord e I) (hb : I b = some d) : (I d).isSome := by
  by_cases hbe : b = e
  · subst hbe
    obtain rfl : b = d := by simpa [h.root] using hb
    simp [h.root]
  · exact (h.up b d hb hbe).2

theorem ord_le (h : Forest next ord e I) (ha : Ancestor I a b) : ord a ≤ ord b := by
  induction ha with
  | refl => exact Nat.le_refl _
  | @up b d hb _ ih =>
    by_cases hbe : b = e
    · subst hbe
      obtain rfl : b = d := by simpa [h.root] using hb
      exact ih
    · have := (h.up b d hb hbe).1
      omega

theorem isSome_of_ancestor (h : Forest next ord e I) (hb : (I b).isSome) (ha : Ancestor I a b) :
    (I a).isSome := by
  induction ha with
  | refl => exact hb
  | up hd _ ih => exact ih (h.parent_isSome hd)

/-- If parents lie on all trails with few detours then so do all ancestors. -/
theorem domUpTo_of_ancestor (hk : ∀ b d, I b = some d → DomUpTo next ord e k d b)
    (ha : Ancestor I a b) : DomUpTo next ord e k a b := by
  induction ha with
  | refl => exact fun p hp => hp.trail.self_mem
  | up hd _ ih => exact ih.trans (hk _ _ hd) (Nat.le_refl _)

end Forest

theorem DomUpTo.mono {l : Nat} (h : DomUpTo next ord e l d b) (hkl : k ≤ l) :
    DomUpTo next ord e k d b :=
  fun p hp => h p (hp.mono hkl)

namespace Func

variable {f : Func} {rpo : List BlockId} {order : Array (Option Nat)}
  {idom : Array (Option BlockId)}

/-- The parents that a table of immediate dominators gives. -/
def parents (idom : Array (Option BlockId)) (b : BlockId) : Option BlockId := idom.getD b none

/-- What the iteration is given: the reachable blocks in reverse postorder, their places, and
predecessors that match the successors. -/
structure Ordered (f : Func) (e : BlockId) (rpo : List BlockId) (order : Array (Option Nat)) :
    Prop where
  post : Postordered f e rpo
  lt : ∀ b, Reach f.next e b → b < f.numBlocks
  places : ∀ b, order.getD b none = if b ∈ rpo then some (rpo.idxOf b) else none
  preds : ∀ b p, Reach f.next e b → Reach f.next e p → (p ∈ (f.block b).preds ↔ b ∈ f.next p)

namespace Ordered

theorem idxOf_inj (h : Ordered f e rpo order) (ha : Reach f.next e a)
    (heq : rpo.idxOf a = rpo.idxOf b) : a = b :=
  (List.idxOf_inj ((h.post.mem_iff a).mpr ha)).mp heq

/-- Each block but the start has a predecessor in front of it. -/
theorem exists_pred_lt (h : Ordered f e rpo order) (hb : Reach f.next e b) (hne : b ≠ e) :
    ∃ p, Reach f.next e p ∧ b ∈ f.next p ∧ rpo.idxOf p < rpo.idxOf b := by
  obtain ⟨l, r, heq, hbl⟩ := List.eq_append_cons_of_mem ((h.post.mem_iff b).mpr hb)
  obtain ⟨p, hp, hedge⟩ := h.post.pred l b r heq hne
  have hplace : rpo.idxOf b = l.length := by
    rw [heq, List.idxOf_append_of_notMem hbl, List.idxOf_cons_self, Nat.add_zero]
  refine ⟨p, (h.post.mem_iff p).mp (by rw [heq]; exact List.mem_append_left _ hp), hedge, ?_⟩
  rw [hplace, heq, List.idxOf_append_of_mem hp]
  exact List.idxOf_lt_length_of_mem hp

/-- Dominators stand in front of what they dominate. -/
theorem idxOf_le_of_dom (h : Ordered f e rpo order) (hb : Reach f.next e b)
    (hx : Dom f.next e x b) : rpo.idxOf x ≤ rpo.idxOf b := by
  induction hn : rpo.idxOf b using Nat.strongRecOn generalizing b with
  | _ n ih =>
    by_cases hxb : x = b
    · subst hxb
      omega
    · by_cases hbe : b = e
      · subst hbe
        exact absurd hx.eq_start hxb
      · obtain ⟨p, hp, hedge, hlt⟩ := h.exists_pred_lt hb hbe
        have := ih (rpo.idxOf p) (by omega) hp (hx.of_edge hedge hxb) rfl
        omega

theorem idxOf_start (h : Ordered f e rpo order) : rpo.idxOf e = 0 := by
  obtain ⟨l, hl⟩ : ∃ l, rpo = e :: l := by
    cases hr : rpo with
    | nil => simpa [hr] using h.post.head?
    | cons x l =>
      have := h.post.head?
      rw [hr] at this
      exact ⟨l, by rw [Option.some.inj this]⟩
  rw [hl, List.idxOf_cons_self]

theorem idxOf_lt (h : Ordered f e rpo order) (hb : Reach f.next e b) :
    rpo.idxOf b < f.numBlocks := by
  have hlen : rpo.length ≤ f.numBlocks := by
    have hsub : rpo.Subperm (List.range f.numBlocks) :=
      List.subperm_of_subset h.post.nodup fun x hx =>
        List.mem_range.mpr (h.lt x ((h.post.mem_iff x).mp hx))
    simpa using hsub.length_le
  exact Nat.lt_of_lt_of_le (List.idxOf_lt_length_of_mem ((h.post.mem_iff b).mpr hb)) hlen

theorem place_of_reach (h : Ordered f e rpo order) (hb : Reach f.next e b) :
    order.getD b none = some (rpo.idxOf b) := by
  rw [h.places, if_pos ((h.post.mem_iff b).mpr hb)]

end Ordered

/-- The nearest common ancestor: it is one, and what dominates both blocks dominates it. -/
theorem meetUp_spec (h : Ordered f e rpo order)
    (hF : Forest f.next rpo.idxOf e (parents idom)) (fuel : Nat) :
    ∀ a b, (parents idom a).isSome → (parents idom b).isSome →
      rpo.idxOf a + rpo.idxOf b < fuel →
      ∃ m, meetUp order idom fuel a b = .ok m ∧ Ancestor (parents idom) m a ∧
        Ancestor (parents idom) m b ∧
        ∀ x, Dom f.next e x a → Dom f.next e x b → Dom f.next e x m := by
  induction fuel with
  | zero => intro a b _ _ hlt; omega
  | succ fuel ih =>
    intro a b ha hb hlt
    rw [meetUp]
    by_cases hab : a = b
    · subst hab
      exact ⟨a, by simp, .refl, .refl, fun x hx _ => hx⟩
    · obtain ⟨da, hda⟩ := Option.isSome_iff_exists.mp ha
      obtain ⟨db, hdb⟩ := Option.isSome_iff_exists.mp hb
      have hra := hF.reach a da hda
      have hrb := hF.reach b db hdb
      have hne : rpo.idxOf a ≠ rpo.idxOf b := fun heq => hab (h.idxOf_inj hra heq)
      rw [if_neg hab, h.place_of_reach hra, h.place_of_reach hrb]
      simp only
      by_cases hgt : rpo.idxOf b < rpo.idxOf a
      · have hae : a ≠ e := fun he => by rw [he, h.idxOf_start] at hgt; omega
        obtain ⟨hup, hsome⟩ := hF.up a da hda hae
        obtain ⟨m, hm, hma, hmb, hdom⟩ := ih da b hsome hb (by omega)
        refine ⟨m, ?_, .up hda hma, hmb, fun x hxa hxb => hdom x ?_ hxb⟩
        · rw [if_pos hgt, show idom.getD a none = some da from hda]
          exact hm
        · refine hF.keeps a da hda hae x hxa fun hxa' => ?_
          have := h.idxOf_le_of_dom hrb hxb
          rw [hxa'] at this
          omega
      · have hbe : b ≠ e := fun he => by rw [he, h.idxOf_start] at hgt hne; omega
        obtain ⟨hup, hsome⟩ := hF.up b db hdb hbe
        obtain ⟨m, hm, hma, hmb, hdom⟩ := ih a db ha hsome (by omega)
        refine ⟨m, ?_, hma, .up hdb hmb, fun x hxa hxb => hdom x hxa ?_⟩
        · rw [if_neg hgt, show idom.getD b none = some db from hdb]
          exact hm
        · refine hF.keeps b db hdb hbe x hxb fun hxb' => ?_
          have := h.idxOf_le_of_dom hra hxa
          rw [hxb'] at this
          omega

/-- One predecessor's part in the improved dominator. -/
def improve (f : Func) (order : Array (Option Nat)) (idom : Array (Option BlockId))
    (best : Option BlockId) (p : BlockId) : Outcome (Option BlockId) :=
  if (order.getD p none).isNone || (idom.getD p none).isNone then .ok best
  else match best with
    | none => .ok (some p)
    | some d => some <$> meetUp order idom (2 * f.numBlocks + 1) p d

theorem improvedIdom_eq (b : BlockId) :
    f.improvedIdom order idom b = (f.block b).preds.foldlM (improve f order idom) none := rfl

theorem improve_skip {best : Option BlockId} (hp : parents idom a = none) :
    improve f order idom best a = .ok best := by
  have : idom.getD a none = none := hp
  simp [improve, this]

/-- The best dominator so far only gets better: what is found is an ancestor of it and of every
predecessor that has a place in the forest. -/
theorem improve_foldlM_some (h : Ordered f e rpo order)
    (hF : Forest f.next rpo.idxOf e (parents idom)) (l : List BlockId) :
    ∀ d, (parents idom d).isSome →
      ∃ m, l.foldlM (improve f order idom) (some d) = .ok (some m) ∧
        Ancestor (parents idom) m d ∧
        (∀ p ∈ l, (parents idom p).isSome → Ancestor (parents idom) m p) ∧
        ∀ x, Dom f.next e x d → (∀ p ∈ l, (parents idom p).isSome → Dom f.next e x p) →
          Dom f.next e x m := by
  induction l with
  | nil => exact fun d hd => ⟨d, rfl, .refl, by simp, fun x hx _ => hx⟩
  | cons p l ih =>
    intro d hd
    rw [List.foldlM_cons]
    cases hp : parents idom p with
    | none =>
      obtain ⟨m, hm, hmd, hml, hdom⟩ := ih d hd
      refine ⟨m, by rw [improve_skip hp]; exact hm, hmd, ?_, fun x hx hxl => ?_⟩
      · intro q hq hqs
        rcases List.mem_cons.mp hq with rfl | hq
        · simp [hp] at hqs
        · exact hml q hq hqs
      · exact hdom x hx fun q hq => hxl q (List.mem_cons_of_mem _ hq)
    | some dp =>
      have hps : (parents idom p).isSome := by simp [hp]
      have hrp := hF.reach p dp hp
      obtain ⟨dd, hdd⟩ := Option.isSome_iff_exists.mp hd
      have hrd := hF.reach d dd hdd
      have hlp := h.idxOf_lt hrp
      have hld := h.idxOf_lt hrd
      obtain ⟨m₀, hm₀, hm₀p, hm₀d, hdom₀⟩ :=
        meetUp_spec h hF (2 * f.numBlocks + 1) p d hps hd (by omega)
      obtain ⟨m, hm, hmm₀, hml, hdom⟩ := ih m₀ (hF.isSome_of_ancestor hd hm₀d)
      have hstep : improve f order idom (some d) p = .ok (some m₀) := by
        have hi : idom.getD p none = some dp := hp
        simp [improve, h.place_of_reach hrp, hi, hm₀, Functor.map, Except.map]
      refine ⟨m, by rw [hstep]; exact hm, hmm₀.trans hm₀d, ?_, fun x hx hxl => ?_⟩
      · intro q hq hqs
        rcases List.mem_cons.mp hq with rfl | hq
        · exact hmm₀.trans hm₀p
        · exact hml q hq hqs
      · refine hdom x (hdom₀ x (hxl p List.mem_cons_self hps) hx) fun q hq =>
          hxl q (List.mem_cons_of_mem _ hq)

theorem improve_foldlM_none (h : Ordered f e rpo order)
    (hF : Forest f.next rpo.idxOf e (parents idom)) (l : List BlockId)
    (hex : ∃ p ∈ l, (parents idom p).isSome) :
    ∃ m, l.foldlM (improve f order idom) none = .ok (some m) ∧
      (∀ p ∈ l, (parents idom p).isSome → Ancestor (parents idom) m p) ∧
      ∀ x, (∀ p ∈ l, (parents idom p).isSome → Dom f.next e x p) → Dom f.next e x m := by
  induction l with
  | nil => simp at hex
  | cons p l ih =>
    rw [List.foldlM_cons]
    cases hp : parents idom p with
    | none =>
      obtain ⟨q, hq, hqs⟩ := hex
      have hql : q ∈ l := by
        rcases List.mem_cons.mp hq with rfl | hq
        · simp [hp] at hqs
        · exact hq
      obtain ⟨m, hm, hml, hdom⟩ := ih ⟨q, hql, hqs⟩
      refine ⟨m, by rw [improve_skip hp]; exact hm, ?_, fun x hxl => ?_⟩
      · intro q hq hqs
        rcases List.mem_cons.mp hq with rfl | hq
        · simp [hp] at hqs
        · exact hml q hq hqs
      · exact hdom x fun q hq => hxl q (List.mem_cons_of_mem _ hq)
    | some dp =>
      have hps : (parents idom p).isSome := by simp [hp]
      obtain ⟨m, hm, hmp, hml, hdom⟩ := improve_foldlM_some h hF l p hps
      have hstep : improve f order idom none p = .ok (some p) := by
        have hi : idom.getD p none = some dp := hp
        simp [improve, h.place_of_reach (hF.reach p dp hp), hi]
      refine ⟨m, by rw [hstep]; exact hm, ?_, fun x hxl => ?_⟩
      · intro q hq hqs
        rcases List.mem_cons.mp hq with rfl | hq
        · exact hmp
        · exact hml q hq hqs
      · exact hdom x (hxl p List.mem_cons_self hps) fun q hq =>
          hxl q (List.mem_cons_of_mem _ hq)

/-! ## Rounds -/

/-- The forest in the midst of round `k`, when the blocks of `done` have been improved: their parents
lie on the trails with at most `k` detours, those of the others on the trails with fewer. -/
structure Stage (f : Func) (e : BlockId) (rpo : List BlockId) (k : Nat) (done : List BlockId)
    (idom : Array (Option BlockId)) : Prop where
  size : idom.size = f.numBlocks
  forest : Forest f.next rpo.idxOf e (parents idom)
  placed : ∀ b ∈ done, (parents idom b).isSome
  all : k ≠ 0 → ∀ b, Reach f.next e b → (parents idom b).isSome
  improved : ∀ b d, parents idom b = some d → b ∈ done → DomUpTo f.next rpo.idxOf e k d b
  before : ∀ b d, parents idom b = some d → b ∉ done →
    ∃ j, k = j + 1 ∧ DomUpTo f.next rpo.idxOf e j d b

namespace Stage

variable {done rest : List BlockId}

/-- Ancestors of an improved block, all of them improved. -/
theorem ancestor_improved (hs : Stage f e rpo k done idom)
    (hsplit : rpo = done ++ rest) (ha : Ancestor (parents idom) a b) (hb : b ∈ done) :
    DomUpTo f.next rpo.idxOf e k a b := by
  induction ha with
  | refl => exact fun p hp => hp.trail.self_mem
  | @up b d hd _ ih =>
    have hdone : d ∈ done := by
      have hdr : Reach f.next e d := by
        obtain ⟨d', hd'⟩ := Option.isSome_iff_exists.mp (hs.forest.parent_isSome hd)
        exact hs.forest.reach d d' hd'
      have hle : rpo.idxOf d ≤ rpo.idxOf b := hs.forest.ord_le (.up hd .refl)
      have hlt : rpo.idxOf b < done.length := by
        rw [hsplit, List.idxOf_append_of_mem hb]
        exact List.idxOf_lt_length_of_mem hb
      by_cases hin : d ∈ done
      · exact hin
      · rw [hsplit, List.idxOf_append_of_notMem hin] at hle
        rw [hsplit] at hlt
        omega
    exact (ih hdone).trans (hs.improved b d hd hb) (Nat.le_refl _)

/-- Ancestors of any block, as far as the round before had come. -/
theorem ancestor_before {j : Nat} (hs : Stage f e rpo (j + 1) done idom)
    (ha : Ancestor (parents idom) a b) : DomUpTo f.next rpo.idxOf e j a b := by
  refine Forest.domUpTo_of_ancestor (fun b d hd => ?_) ha
  by_cases hb : b ∈ done
  · exact (hs.improved b d hd hb).mono (Nat.le_succ _)
  · obtain ⟨i, hi, hdom⟩ := hs.before b d hd hb
    obtain rfl : j = i := by omega
    exact hdom

/-- What the predecessors of the next block agree on lies on all trails to it with at most `k`
detours: the last edge is forward from an improved block, or uses up a detour. -/
theorem domUpTo_next {m : BlockId} (h : Ordered f e rpo order) (hs : Stage f e rpo k done idom)
    (hsplit : rpo = done ++ b :: rest) (hbe : b ≠ e)
    (hm : ∀ p ∈ (f.block b).preds, (parents idom p).isSome → Ancestor (parents idom) m p) :
    DomUpTo f.next rpo.idxOf e k m b := by
  have hb : Reach f.next e b := (h.post.mem_iff b).mp (by rw [hsplit]; simp)
  have hbd : b ∉ done := by
    have := h.post.nodup
    rw [hsplit] at this
    exact fun hin => (List.nodup_append.mp this).2.2 b hin b (by simp) rfl
  intro q hq
  cases hq with
  | start => exact absurd rfl hbe
  | @forward _ p _ q hq hedge hlt =>
    have hrp : Reach f.next e p := ⟨_, hq.trail⟩
    have hpd : p ∈ done := by
      by_cases hin : p ∈ done
      · exact hin
      · rw [hsplit, List.idxOf_append_of_notMem hin, List.idxOf_append_of_notMem hbd,
          List.idxOf_cons_self] at hlt
        omega
    have hanc := hm p ((h.preds b p hb hrp).mpr hedge) (hs.placed p hpd)
    exact List.mem_cons_of_mem _ (hs.ancestor_improved hsplit hanc hpd q hq)
  | @back j p _ q hq hedge =>
    have hrp : Reach f.next e p := ⟨_, hq.trail⟩
    have hanc := hm p ((h.preds b p hb hrp).mpr hedge) (hs.all (by simp) p hrp)
    exact List.mem_cons_of_mem _ (hs.ancestor_before hanc q hq)

theorem parents_set {m : BlockId} (hb : b < idom.size) (c : BlockId) :
    parents (idom.setIfInBounds b (some m)) c = if c = b then some m else parents idom c := by
  by_cases hcb : c = b
  · subst hcb
    simp [parents, hb]
  · simp [parents, Array.getElem?_setIfInBounds_ne (Ne.symm hcb), hcb]

theorem set_parent_self {m : BlockId} (h : parents idom b = some m) :
    idom.setIfInBounds b (some m) = idom := by
  apply Array.ext (by simp)
  intro i hi hi'
  by_cases hib : b = i
  · subst hib
    have : idom[b]? = some (some m) := by
      simpa [parents, hi'] using h
    simp only [Array.getElem_setIfInBounds_self]
    rw [Array.getElem?_eq_getElem hi'] at this
    exact (Option.some.inj this).symm
  · rw [Array.getElem_setIfInBounds_ne hi' hib]

/-- The next block has a predecessor among the blocks that are done, and comes after it. -/
theorem exists_done (h : Ordered f e rpo order) (hsplit : rpo = done ++ b :: rest) (he : e ∈ done) :
    b ≠ e ∧ ∃ p ∈ (f.block b).preds, p ∈ done ∧ rpo.idxOf p < rpo.idxOf b := by
  have hb : Reach f.next e b := (h.post.mem_iff b).mp (by rw [hsplit]; simp)
  have hbd : b ∉ done := by
    have := h.post.nodup
    rw [hsplit] at this
    exact fun hin => (List.nodup_append.mp this).2.2 b hin b (by simp) rfl
  have hbe : b ≠ e := fun heq => hbd (heq ▸ he)
  obtain ⟨p, hp, hedge, hlt⟩ := h.exists_pred_lt hb hbe
  refine ⟨hbe, p, (h.preds b p hb hp).mpr hedge, ?_, hlt⟩
  by_contra hin
  rw [hsplit, List.idxOf_append_of_notMem hin, List.idxOf_append_of_notMem hbd,
    List.idxOf_cons_self] at hlt
  omega

/-- A parent that comes before its block, and that every dominator of the block dominates, leaves a
forest. -/
theorem forest_set {I : BlockId → Option BlockId} {m : BlockId}
    (hs : Forest f.next rpo.idxOf e I) (hb : Reach f.next e b) (hbe : b ≠ e)
    (hlt : rpo.idxOf m < rpo.idxOf b) (hms : (I m).isSome)
    (hdom : ∀ x, Dom f.next e x b → x ≠ b → Dom f.next e x m) :
    Forest f.next rpo.idxOf e fun c => if c = b then some m else I c := by
  have hmb : m ≠ b := fun heq => by rw [heq] at hlt; omega
  refine ⟨by rw [if_neg (Ne.symm hbe)]; exact hs.root, fun c d hc => ?_, fun c d hc hce => ?_,
    fun c d hc hce x hx hxc => ?_⟩
  · split at hc
    · next heq => exact heq ▸ hb
    · exact hs.reach c d hc
  · split at hc
    · next heq =>
      obtain rfl := Option.some.inj hc
      subst heq
      exact ⟨hlt, by rw [if_neg hmb]; exact hms⟩
    · obtain ⟨hlt, hsome⟩ := hs.up c d hc hce
      refine ⟨hlt, ?_⟩
      split
      · rfl
      · exact hsome
  · split at hc
    · next heq =>
      obtain rfl := Option.some.inj hc
      subst heq
      exact hdom x hx hxc
    · exact hs.keeps c d hc hce x hx hxc

/-- Improving the next block. -/
theorem improveNext (h : Ordered f e rpo order) (hs : Stage f e rpo k done idom)
    (hsplit : rpo = done ++ b :: rest) (he : e ∈ done) :
    ∃ m, f.improvedIdom order idom b = .ok (some m) ∧
      Stage f e rpo k (done ++ [b]) (idom.setIfInBounds b (some m)) := by
  have hb : Reach f.next e b := (h.post.mem_iff b).mp (by rw [hsplit]; simp)
  obtain ⟨hbe, p, hpre, hpd, hlt⟩ := exists_done h hsplit he
  have hps := hs.placed p hpd
  obtain ⟨m, hm, hanc, hdom⟩ := improve_foldlM_none h hs.forest _ ⟨p, hpre, hps⟩
  have hset := parents_set (m := m) (show b < idom.size by rw [hs.size]; exact h.lt b hb)
  refine ⟨m, by rw [improvedIdom_eq]; exact hm, by simp [hs.size], ?_, ?_, ?_, ?_, ?_⟩
  · rw [funext hset]
    refine forest_set hs.forest hb hbe
      (Nat.lt_of_le_of_lt (hs.forest.ord_le (hanc p hpre hps)) hlt)
      (hs.forest.isSome_of_ancestor hps (hanc p hpre hps)) fun x hx hxb => hdom x fun q hq hqs => ?_
    obtain ⟨d, hd⟩ := Option.isSome_iff_exists.mp hqs
    exact hx.of_edge ((h.preds b q hb (hs.forest.reach q d hd)).mp hq) hxb
  · intro c hc
    rw [hset]
    split
    · rfl
    · next hne => exact hs.placed c (by simpa [hne] using hc)
  · intro hk c hc
    rw [hset]
    split
    · rfl
    · exact hs.all hk c hc
  · intro c d hc hcd
    rw [hset] at hc
    split at hc
    · next heq =>
      obtain rfl := Option.some.inj hc
      subst heq
      exact hs.domUpTo_next h hsplit hbe hanc
    · next hne => exact hs.improved c d hc (by simpa [hne] using hcd)
  · intro c d hc hcd
    have hne : c ≠ b := fun heq => hcd (by simp [heq])
    rw [hset, if_neg hne] at hc
    exact hs.before c d hc fun hin => hcd (by simp [hin])

/-- A finished round is where the next one starts. -/
theorem again (h : Ordered f e rpo order) (hs : Stage f e rpo k rpo idom) :
    Stage f e rpo (k + 1) [e] idom where
  size := hs.size
  forest := hs.forest
  placed := by
    intro b hb
    obtain rfl : b = e := by simpa using hb
    simp [hs.forest.root]
  all := fun _ b hb => hs.placed b ((h.post.mem_iff b).mpr hb)
  improved := by
    intro b d hd hb
    obtain rfl : b = e := by simpa using hb
    obtain rfl : b = d := by simpa [hs.forest.root] using hd
    exact fun p hp => hp.trail.self_mem
  before := by
    intro b d hd _
    refine ⟨k, rfl, hs.improved b d hd ?_⟩
    exact (h.post.mem_iff b).mpr (hs.forest.reach b d hd)

end Stage

/-- One block's part in a round. -/
def idomStep (f : Func) (order : Array (Option Nat))
    (acc : Array (Option BlockId) × Bool) (b : BlockId) :
    Outcome (Array (Option BlockId) × Bool) := do
  match ← f.improvedIdom order acc.1 b with
  | none => return acc
  | some d =>
    if acc.1.getD b none = some d then return acc
    else return (acc.1.setIfInBounds b (some d), true)

theorem idomRound_eq (blocks : List BlockId) :
    f.idomRound order blocks idom = blocks.foldlM (idomStep f order) (idom, false) := rfl

theorem idomStep_same {m : BlockId} {changed : Bool} (hm : f.improvedIdom order idom b = .ok (some m))
    (heq : parents idom b = some m) : idomStep f order (idom, changed) b = .ok (idom, changed) := by
  have hg : idom.getD b none = some m := heq
  simp [idomStep, hm, hg, bind, Except.bind, pure, Except.pure]

theorem idomStep_foldlM (h : Ordered f e rpo order) (rest : List BlockId) :
    ∀ done idom changed, rpo = done ++ rest → e ∈ done → Stage f e rpo k done idom →
      ∃ idom' changed', rest.foldlM (idomStep f order) (idom, changed) = .ok (idom', changed') ∧
        Stage f e rpo k rpo idom' ∧ (changed' = false → changed = false ∧ idom' = idom) := by
  induction rest with
  | nil =>
    intro done idom changed hsplit _ hs
    refine ⟨idom, changed, rfl, ?_, fun hc => ⟨hc, rfl⟩⟩
    rwa [hsplit, List.append_nil] at hs ⊢
  | cons b rest ih =>
    intro done idom changed hsplit he hs
    obtain ⟨m, hm, hs'⟩ := hs.improveNext h hsplit he
    have hsplit' : rpo = (done ++ [b]) ++ rest := by rw [hsplit, List.append_assoc]; rfl
    rw [List.foldlM_cons]
    by_cases heq : parents idom b = some m
    · rw [Stage.set_parent_self heq] at hs'
      rw [idomStep_same hm heq]
      exact ih _ idom changed hsplit' (by simp [he]) hs'
    · have hstep : idomStep f order (idom, changed) b =
          .ok (idom.setIfInBounds b (some m), true) := by
        have hg : ¬ idom.getD b none = some m := heq
        simp only [idomStep, hm, bind, Except.bind, pure, Except.pure, if_neg hg]
      obtain ⟨idom', changed', hrun, hst, hch⟩ := ih _ _ true hsplit' (by simp [he]) hs'
      refine ⟨idom', changed', by rw [hstep]; exact hrun, hst, fun hc => ?_⟩
      simp at hch
      exact absurd hc (by simp [hch])

theorem Ordered.split (h : Ordered f e rpo order) : rpo = [e] ++ rpo.tail := by
  have := h.post.head?
  cases hr : rpo with
  | nil => simp [hr] at this
  | cons x l =>
    rw [hr] at this
    simp [Option.some.inj this]

theorem idomRound_spec (h : Ordered f e rpo order) (hs : Stage f e rpo k [e] idom) :
    ∃ idom' changed, f.idomRound order rpo.tail idom = .ok (idom', changed) ∧
      Stage f e rpo k rpo idom' ∧ (changed = false → idom' = idom) := by
  obtain ⟨idom', changed, hrun, hst, hch⟩ :=
    idomStep_foldlM h rpo.tail [e] idom false h.split (by simp) hs
  exact ⟨idom', changed, by rw [idomRound_eq]; exact hrun, hst, fun hc => (hch hc).2⟩

/-- The table that the iteration arrives at. -/
structure Settled (f : Func) (e : BlockId) (rpo : List BlockId) (idom : Array (Option BlockId)) :
    Prop where
  size : idom.size = f.numBlocks
  forest : Forest f.next rpo.idxOf e (parents idom)
  all : ∀ b, Reach f.next e b → (parents idom b).isSome
  dom : ∀ b d, parents idom b = some d → Dom f.next e d b

theorem Stage.settled (h : Ordered f e rpo order) (hs : Stage f e rpo (k + 1) [e] idom)
    (hk : f.numBlocks ≤ k) : Settled f e rpo idom where
  size := hs.size
  forest := hs.forest
  all := hs.all (by simp)
  dom := by
    intro b d hd
    exact ((hs.ancestor_before (.up hd .refl)).mono hk).dom h.lt

/-- Where parents are the immediate dominators there is nothing to improve: both the old and the new
parent of a block are strict dominators of it that all others dominate. -/
theorem Settled.improve_same (h : Ordered f e rpo order) (hset : Settled f e rpo idom)
    {done rest : List BlockId} (hs : Stage f e rpo k done idom) (hk : f.numBlocks ≤ k)
    (hsplit : rpo = done ++ b :: rest) (he : e ∈ done) :
    ∃ m, f.improvedIdom order idom b = .ok (some m) ∧ parents idom b = some m ∧
      Stage f e rpo k (done ++ [b]) idom := by
  obtain ⟨m, hm, hs'⟩ := hs.improveNext h hsplit he
  have hb : Reach f.next e b := (h.post.mem_iff b).mp (by rw [hsplit]; simp)
  have hbe : b ≠ e := by
    rintro rfl
    have := h.post.nodup
    rw [hsplit, List.nodup_append] at this
    exact this.2.2 b he b (by simp) rfl
  obtain ⟨d, hd⟩ := Option.isSome_iff_exists.mp (hset.all b hb)
  have hnew : parents (idom.setIfInBounds b (some m)) b = some m := by
    rw [Stage.parents_set (by rw [hs.size]; exact h.lt b hb), if_pos rfl]
  have hmb : Dom f.next e m b := ((hs'.improved b m hnew (by simp)).mono hk).dom h.lt
  have hne : ∀ {x}, rpo.idxOf x < rpo.idxOf b → x ≠ b := fun hlt heq => by simp [heq] at hlt
  have hdm : d = m :=
    (hs'.forest.keeps b m hnew hbe d (hset.dom b d hd) (hne (hset.forest.up b d hd hbe).1)).antisymm
      (hmb.reach hb)
      (hset.forest.keeps b d hd hbe m hmb (hne (hs'.forest.up b m hnew hbe).1))
  have heq : parents idom b = some m := hdm ▸ hd
  rw [Stage.set_parent_self heq] at hs'
  exact ⟨m, hm, heq, hs'⟩

theorem Settled.round_still (h : Ordered f e rpo order) (hset : Settled f e rpo idom)
    (hs : Stage f e rpo k [e] idom) (hk : f.numBlocks ≤ k) :
    f.idomRound order rpo.tail idom = .ok (idom, false) := by
  suffices ∀ rest done, rpo = done ++ rest → e ∈ done → Stage f e rpo k done idom →
      rest.foldlM (idomStep f order) (idom, false) = .ok (idom, false) by
    rw [idomRound_eq]
    exact this rpo.tail [e] h.split (by simp) hs
  intro rest
  induction rest with
  | nil => exact fun _ _ _ _ => rfl
  | cons b rest ih =>
    intro done hsplit he hs
    obtain ⟨m, hm, heq, hs'⟩ := hset.improve_same h hs hk hsplit he
    rw [List.foldlM_cons, idomStep_same hm heq]
    exact ih (done ++ [b]) (by rw [hsplit, List.append_assoc]; rfl) (by simp [he]) hs'

/-- The rounds come to the true table, and to rest: one more round would change nothing. -/
theorem idomFix_spec (h : Ordered f e rpo order) (fuel : Nat) :
    ∀ k idom, Stage f e rpo k [e] idom → f.numBlocks + 1 ≤ k + fuel →
      ∃ idom', f.idomFix order rpo.tail fuel idom = .ok idom' ∧ Settled f e rpo idom' ∧
        f.idomRound order rpo.tail idom' = .ok (idom', false) := by
  induction fuel with
  | zero =>
    intro k idom hs hk
    obtain ⟨k, rfl⟩ : ∃ j, k = j + 1 := ⟨k - 1, by omega⟩
    have hset := hs.settled h (by omega)
    exact ⟨idom, rfl, hset, hset.round_still h hs (by omega)⟩
  | succ fuel ih =>
    intro k idom hs hk
    obtain ⟨idom', changed, hrun, hst, hch⟩ := idomRound_spec h hs
    cases changed with
    | true =>
      obtain ⟨idom'', hfix, hset⟩ := ih (k + 1) idom' (hst.again h) (by omega)
      refine ⟨idom'', ?_, hset⟩
      simp only [idomFix, hrun, bind, Except.bind, if_true]
      exact hfix
    | false =>
      obtain rfl := hch rfl
      refine ⟨idom', by simp [idomFix, hrun, bind, Except.bind, pure, Except.pure], ?_, hrun⟩
      -- a round that changes nothing would change nothing again: the stage number is free
      have hall : ∀ j, Stage f e rpo (k + j) [e] idom' := by
        intro j
        induction j with
        | zero => exact hs
        | succ j ihj =>
          obtain ⟨idom'', _, hrun', hst', _⟩ := idomRound_spec h ihj
          rw [hrun] at hrun'
          obtain ⟨rfl, _⟩ := Prod.mk.inj (Except.ok.inj hrun')
          exact hst'.again h
      exact (show Stage f e rpo ((k + f.numBlocks) + 1) [e] idom' from
        hall (f.numBlocks + 1)).settled h (by omega)

end Func
end SsaJit
