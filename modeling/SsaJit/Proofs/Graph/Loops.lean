import Mathlib.Algebra.Order.Ring.Nat
import SsaJit.Graph.Dominance
import SsaJit.Proofs.Ssa.Verify

/-! Natural loops. An edge to a dominator of its source is a back edge; the loop of its target holds the
target and whatever comes to the source of such an edge without passing the target. The computation
finds just these, one for each target, in the order in which it meets the first back edges.

The header dominates the blocks of its loop, and control comes to any other of them only from inside.
The block that alone leads into a loop then dominates it, and so does whatever dominates a block of the
loop from outside. -/

namespace SsaJit

variable {f : Func} {t : DomTree} {b c d h p x : BlockId} {blocks work : List BlockId}

namespace Func

/-- An edge from a block that control comes to, to a dominator of that block. -/
structure BackEdge (f : Func) (b h : BlockId) : Prop where
  reached : f.Reached b
  edge : h ∈ f.next b
  dominates : f.Dominates h b

/-- The natural loop of `h`. -/
def InLoop (f : Func) (h x : BlockId) : Prop :=
  x = h ∨ f.Reached x ∧ ∃ b p, f.BackEdge b h ∧ Trail f.next x b p ∧ h ∉ p

namespace InLoop

theorem header (f : Func) (h : BlockId) : f.InLoop h h := .inl rfl

theorem reached (hx : f.InLoop h x) (hh : f.Reached h) : f.Reached x := by
  rcases hx with rfl | ⟨hx, -⟩
  · exact hh
  · exact hx

theorem dominates (hx : f.InLoop h x) : f.Dominates h x := by
  rcases hx with rfl | ⟨-, b, p, hback, hp, hh⟩
  · exact .refl _ _ _
  · intro q hq
    obtain ⟨r, hr, hmem⟩ := hq.concat hp
    exact (hmem h (hback.dominates r hr)).resolve_left hh

theorem latch (hb : f.BackEdge b h) : f.InLoop h b := by
  by_cases hbh : b = h
  · exact .inl hbh
  · exact .inr ⟨hb.reached, b, [b], hb, .start, by simpa using Ne.symm hbh⟩

theorem pred (hx : f.InLoop h x) (hne : x ≠ h) (hc : f.Reached c) (hedge : x ∈ f.next c) :
    f.InLoop h c := by
  by_cases hch : c = h
  · exact .inl hch
  obtain ⟨-, b, p, hback, hp, hh⟩ := hx.resolve_left hne
  refine .inr ⟨hc, b, _, hback, hp.prepend hedge, ?_⟩
  simpa using ⟨hh, Ne.symm hch⟩

/-- Whatever holds the header and the sources of its back edges and is closed under going back holds
the loop. -/
theorem subset (hx : f.InLoop h x) (hheader : h ∈ blocks) (hlatch : ∀ b, f.BackEdge b h → b ∈ blocks)
    (hback : ∀ b ∈ blocks, b ≠ h → ∀ p, f.Reached p → b ∈ f.next p → p ∈ blocks) : x ∈ blocks := by
  rcases hx with rfl | ⟨hx, b, p, hb, hp, hh⟩
  · exact hheader
  have hmem := hlatch b hb
  clear hb
  induction hp with
  | start => exact hmem
  | @step b c p hp hc ih =>
    obtain ⟨hhc, hh⟩ := not_or.mp fun hin => hh (List.mem_cons.mpr hin)
    obtain ⟨q, hq⟩ := hx
    obtain ⟨r, hr, -⟩ := hq.concat hp
    exact ih hh (hback c hmem (Ne.symm hhc) b ⟨r, hr⟩ hc)

end InLoop

/-- The blocks make a loop, except that those in `work` may still be missing. -/
structure LoopUpTo (f : Func) (h : BlockId) (blocks work : List BlockId) : Prop where
  start : f.Reached h
  header : h ∈ blocks
  inside : ∀ b ∈ blocks, f.InLoop h b
  waiting : ∀ b ∈ work, f.Reached b → f.InLoop h b
  closed : ∀ b ∈ blocks, b ≠ h → ∀ p ∈ (f.block b).preds, f.Reached p → p ∈ blocks ∨ p ∈ work

end Func

/-- What a loop is. -/
def Loop.Of (l : Loop) (f : Func) : Prop := f.LoopUpTo l.header l.blocks []

namespace Func

/-! ## Growing a loop -/

namespace LoopUpTo

theorem reached (hl : f.LoopUpTo h blocks work) : ∀ b ∈ blocks, f.Reached b :=
  fun b hb => (hl.inside b hb).reached hl.start

theorem dominated (hl : f.LoopUpTo h blocks work) : ∀ b ∈ blocks, f.Dominates h b :=
  fun b hb => (hl.inside b hb).dominates

theorem skip (hl : f.LoopUpTo h blocks (b :: work)) (hb : b ∈ blocks ∨ ¬f.Reached b) :
    f.LoopUpTo h blocks work where
  start := hl.start
  header := hl.header
  inside := hl.inside
  waiting c hc := hl.waiting c (List.mem_cons_of_mem _ hc)
  closed c hc hne p hp hr := by
    rcases hl.closed c hc hne p hp hr with hin | hin
    · exact .inl hin
    · rcases List.mem_cons.mp hin with rfl | hin
      · exact .inl (hb.resolve_right (not_not_intro hr))
      · exact .inr hin

theorem enter (hf : f.Linkage f.start) (hl : f.LoopUpTo h blocks (b :: work)) (hb : b ∉ blocks)
    (hr : f.Reached b) : f.LoopUpTo h (b :: blocks) ((f.block b).preds ++ work) where
  start := hl.start
  header := List.mem_cons_of_mem _ hl.header
  inside c hc := by
    rcases List.mem_cons.mp hc with rfl | hc
    · exact hl.waiting c List.mem_cons_self hr
    · exact hl.inside c hc
  waiting c hc hrc := by
    rcases List.mem_append.mp hc with hc | hc
    · exact (hl.waiting b List.mem_cons_self hr).pred (fun heq => hb (heq ▸ hl.header)) hrc
        ((hf.preds b c hr hrc).mp hc)
    · exact hl.waiting c (List.mem_cons_of_mem _ hc) hrc
  closed c hc hne p hp hrp := by
    rcases List.mem_cons.mp hc with rfl | hc
    · exact .inr (List.mem_append_left _ hp)
    · rcases hl.closed c hc hne p hp hrp with hin | hin
      · exact .inl (List.mem_cons_of_mem _ hin)
      · rcases List.mem_cons.mp hin with rfl | hin
        · exact .inl List.mem_cons_self
        · exact .inr (List.mem_append_right _ hin)

end LoopUpTo

/-- Steps left: one for each block that waits or may come to wait. -/
def growthLeft (f : Func) (blocks work : List BlockId) : Nat :=
  (((List.range f.numBlocks).filter fun b => b ∉ blocks).map fun b =>
    (f.block b).preds.length).sum + work.length

theorem growthLeft_cons (hlt : b < f.numBlocks) (hb : b ∉ blocks) :
    f.growthLeft (b :: blocks) [] + (f.block b).preds.length = f.growthLeft blocks [] :=
  sum_filter_insert (fun b => (f.block b).preds.length) List.nodup_range
    (List.mem_range.mpr hlt) hb

theorem growLoop_spec (hf : f.Linkage f.start) (ht : t.Of f f.start) (fuel : Nat) :
    ∀ blocks work, f.LoopUpTo h blocks work → f.growthLeft blocks work ≤ fuel →
      f.LoopUpTo h (f.growLoop t fuel blocks work) [] := by
  induction fuel with
  | zero =>
    intro blocks work hl hleft
    obtain rfl : work = [] := by
      unfold growthLeft at hleft
      exact List.length_eq_zero_iff.mp (by omega)
    exact hl
  | succ fuel ih =>
    intro blocks work hl hleft
    cases work with
    | nil => exact hl
    | cons b work =>
      unfold growthLeft at hleft
      rw [List.length_cons] at hleft
      rw [growLoop]
      split
      · next hskip =>
        refine ih blocks work (hl.skip ?_) (by unfold growthLeft; omega)
        simp only [Bool.or_eq_true, List.contains_eq_mem, decide_eq_true_eq, Bool.not_eq_true',
          ← Bool.not_eq_true, ht.reachable] at hskip
        exact hskip
      · next hskip =>
        simp only [Bool.or_eq_true, List.contains_eq_mem, decide_eq_true_eq, Bool.not_eq_true',
          ← Bool.not_eq_true, ht.reachable, not_or, not_not] at hskip
        refine ih _ _ (hl.enter hf hskip.1 hskip.2) ?_
        have hsum := growthLeft_cons (hf.lt b hskip.2) hskip.1
        unfold growthLeft at hsum ⊢
        rw [List.length_append]
        omega

theorem growthLeft_le (f : Func) (blocks : List BlockId) :
    f.growthLeft blocks [b] ≤ f.growBound := by
  have hfold : ∀ (l : List Block) (n : Nat), l.foldl (fun n b => n + b.preds.length) n =
      n + (l.map fun b => b.preds.length).sum := by
    intro l
    induction l with
    | nil => simp
    | cons b l ih => intro n; simp [ih]; omega
  rw [growBound, ← Array.foldl_toList, hfold, blocks_toList, List.map_map, growthLeft]
  have hsub : ∀ l : List BlockId, ((l.filter fun b => b ∉ blocks).map fun b =>
      (f.block b).preds.length).sum ≤ (l.map fun b => (f.block b).preds.length).sum := by
    intro l
    induction l with
    | nil => simp
    | cons b l ih =>
      rw [List.filter_cons]
      split <;> simp only [List.map_cons, List.sum_cons] <;> omega
  have := hsub (List.range f.numBlocks)
  simp only [List.length_cons, List.length_nil, Function.comp_def]
  omega

theorem subset_growLoop (fuel : Nat) : ∀ blocks work, ∀ x ∈ blocks,
    x ∈ f.growLoop t fuel blocks work := by
  induction fuel with
  | zero => exact fun _ _ _ hx => hx
  | succ fuel ih =>
    intro blocks work x hx
    cases work with
    | nil => exact hx
    | cons b work =>
      rw [growLoop]
      split
      · exact ih _ _ x hx
      · exact ih _ _ x (List.mem_cons_of_mem _ hx)

/-- The loop of `h` with the blocks it has so far, once it also has those behind one more latch. -/
def withLatch (f : Func) (t : DomTree) (h b : BlockId) (blocks : List BlockId) : Loop :=
  ⟨h, f.growLoop t f.growBound blocks [b]⟩

theorem withLatch_spec (hf : f.Linkage f.start) (ht : t.Of f f.start) (hb : f.BackEdge b h)
    (hl : f.LoopUpTo h blocks []) : (f.withLatch t h b blocks).Of f ∧
      b ∈ (f.withLatch t h b blocks).blocks ∧
      ∀ x ∈ blocks, x ∈ (f.withLatch t h b blocks).blocks := by
  have hle : f.growthLeft blocks [b] ≤ f.growBound := growthLeft_le f blocks
  refine ⟨growLoop_spec hf ht _ _ _ ⟨hl.start, hl.header, hl.inside, ?_, ?_⟩ hle, ?_,
    subset_growLoop _ _ _⟩
  · intro c hc _
    obtain rfl := List.mem_singleton.mp hc
    exact .latch hb
  · exact fun c hc hne p hp hr => .inl ((hl.closed c hc hne p hp hr).resolve_right List.not_mem_nil)
  · obtain ⟨fuel, hfuel⟩ : ∃ fuel, f.growBound = fuel + 1 :=
      Nat.exists_eq_add_one_of_ne_zero fun hzero => by
        rw [hzero, growthLeft, List.length_singleton] at hle
        omega
    rw [withLatch, hfuel, growLoop]
    split
    · next hskip =>
      refine subset_growLoop _ _ _ b ?_
      simpa [(ht.reachable b).mpr hb.reached] using hskip
    · exact subset_growLoop _ _ _ b List.mem_cons_self

/-! ## All loops -/

/-- Back edges, each with its source first, in the order in which they are met. -/
def backEdges (f : Func) (t : DomTree) : List (BlockId × BlockId) :=
  t.rpo.flatMap fun b => ((f.next b).filter (t.dominates · b)).map (b, ·)

theorem mem_backEdges (ht : t.Of f f.start) : (b, h) ∈ f.backEdges t ↔ f.BackEdge b h := by
  simp only [backEdges, List.mem_flatMap, List.mem_map, List.mem_filter, Prod.mk.injEq]
  constructor
  · rintro ⟨a, -, s, ⟨hs, hd⟩, rfl, rfl⟩
    obtain ⟨hr, hdom⟩ := ht.dominates_iff.mp hd
    exact ⟨hr, hs, hdom⟩
  · intro hb
    exact ⟨b, (ht.post.mem_iff b).mpr hb.reached, h,
      ⟨hb.edge, ht.dominates_iff.mpr ⟨hb.reached, hb.dominates⟩⟩, rfl, rfl⟩

theorem loops_eq : f.loops t =
    (f.backEdges t).foldl (fun ls e => f.addBackEdge t e.1 e.2 ls) [] := by
  have hsuccs : ∀ (b : BlockId) (ss : List BlockId) (ls : List Loop),
      ss.foldl (fun ls s => if t.dominates s b then f.addBackEdge t b s ls else ls) ls =
        ((ss.filter (t.dominates · b)).map (b, ·)).foldl
          (fun ls e => f.addBackEdge t e.1 e.2 ls) ls := by
    intro b ss
    induction ss with
    | nil => exact fun _ => rfl
    | cons s ss ih =>
      intro ls
      by_cases hd : t.dominates s b = true <;> simp [hd, ih]
  rw [loops, backEdges, List.foldl_flatMap]
  simp only [hsuccs]
  rfl

theorem addBackEdge_new {ls : List Loop} (hnew : ∀ l ∈ ls, l.header ≠ h) :
    f.addBackEdge t b h ls = ls ++ [f.withLatch t h b [h]] := by
  induction ls with
  | nil => rfl
  | cons m ls ih =>
    rw [addBackEdge, if_neg (hnew m List.mem_cons_self),
      ih fun l hl => hnew l (List.mem_cons_of_mem _ hl), List.cons_append]

theorem addBackEdge_known {pre post : List Loop} {l : Loop} (hpre : ∀ m ∈ pre, m.header ≠ l.header) :
    f.addBackEdge t b l.header (pre ++ l :: post) =
      pre ++ f.withLatch t l.header b l.blocks :: post := by
  induction pre with
  | nil => rw [List.nil_append, addBackEdge, if_pos rfl]; rfl
  | cons m pre ih =>
    rw [List.cons_append, addBackEdge, if_neg (hpre m List.mem_cons_self),
      ih fun l hl => hpre l (List.mem_cons_of_mem _ hl), List.cons_append]

/-- The loops so far, when the back edges in `met` have been met. -/
structure Looping (f : Func) (met : List (BlockId × BlockId)) (ls : List Loop) : Prop where
  loops : ∀ l ∈ ls, l.Of f
  headers : ∀ l ∈ ls, l.header ∈ met.map (·.2)
  latches : ∀ e ∈ met, ∃ l ∈ ls, l.header = e.2 ∧ e.1 ∈ l.blocks
  order : (ls.map Loop.header).Pairwise fun h k =>
    (met.map (·.2)).idxOf h < (met.map (·.2)).idxOf k

namespace Looping

variable {met : List (BlockId × BlockId)} {ls : List Loop}

theorem nil (f : Func) : f.Looping [] [] := ⟨by simp, by simp, by simp, .nil⟩

/-- Another back edge leaves the order of the headers as it was. -/
theorem order_append (hl : f.Looping met ls) (e : BlockId × BlockId) :
    (ls.map Loop.header).Pairwise fun h k =>
      ((met ++ [e]).map (·.2)).idxOf h < ((met ++ [e]).map (·.2)).idxOf k := by
  have hmem : ∀ {h}, h ∈ ls.map Loop.header → h ∈ met.map (·.2) := fun hh => by
    obtain ⟨l, hl', rfl⟩ := List.mem_map.mp hh
    exact hl.headers l hl'
  refine hl.order.imp_of_mem fun {h k} hh hk hlt => ?_
  rw [List.map_append, List.idxOf_append_of_mem (hmem hh), List.idxOf_append_of_mem (hmem hk)]
  exact hlt

theorem header_met {x : BlockId} {e : BlockId × BlockId} (hx : x ∈ met.map (·.2)) :
    x ∈ (met ++ [e]).map (·.2) := by
  rw [List.map_append]
  exact List.mem_append_left _ hx

/-- The first back edge to `h` makes a loop that is new. -/
theorem meet_new (hf : f.Linkage f.start) (ht : t.Of f f.start) (hl : f.Looping met ls)
    (hb : f.BackEdge b h) (hnew : ∀ l ∈ ls, l.header ≠ h) :
    f.Looping (met ++ [(b, h)]) (f.addBackEdge t b h ls) := by
  have hnot : h ∉ met.map (·.2) := fun hin => by
    obtain ⟨e, he, rfl⟩ := List.mem_map.mp hin
    obtain ⟨l, hl, hlh, -⟩ := hl.latches e he
    exact hnew l hl hlh
  obtain ⟨hof, hin, -⟩ := withLatch_spec hf ht hb ⟨hb.dominates.reach hb.reached,
    List.mem_singleton_self h, by simpa using InLoop.header f h, by simp, by simp⟩
  rw [addBackEdge_new hnew]
  refine ⟨fun l hl' => ?_, fun l hl' => ?_, fun e he => ?_, ?_⟩
  · rcases List.mem_append.mp hl' with hl' | hl'
    · exact hl.loops l hl'
    · exact List.mem_singleton.mp hl' ▸ hof
  · rcases List.mem_append.mp hl' with hl' | hl'
    · exact header_met (hl.headers l hl')
    · rw [List.mem_singleton.mp hl']
      simp [withLatch]
  · rcases List.mem_append.mp he with he | he
    · obtain ⟨l, hl', hlh⟩ := hl.latches e he
      exact ⟨l, List.mem_append_left _ hl', hlh⟩
    · obtain rfl := List.mem_singleton.mp he
      exact ⟨_, List.mem_append_right _ (List.mem_singleton_self _), rfl, hin⟩
  · have hheaders : (ls ++ [f.withLatch t h b [h]]).map Loop.header = ls.map Loop.header ++ [h] := by
      simp [withLatch]
    rw [hheaders]
    refine List.pairwise_append.mpr ⟨hl.order_append _, List.pairwise_singleton _ _,
      fun k hk m hm => ?_⟩
    obtain ⟨l, hl', rfl⟩ := List.mem_map.mp hk
    obtain rfl : m = h := List.mem_singleton.mp hm
    rw [List.map_append, List.idxOf_append_of_mem (hl.headers l hl'),
      List.idxOf_append_of_notMem hnot]
    have := List.idxOf_lt_length_of_mem (hl.headers l hl')
    omega

/-- The loop of a header is the only one of that header. -/
theorem header_ne {pre post : List Loop} {l : Loop} (hl : f.Looping met (pre ++ l :: post)) :
    ∀ m ∈ pre, m.header ≠ l.header := fun m hm heq => by
  have horder := hl.order
  rw [List.map_append, List.map_cons] at horder
  have hlt := (List.pairwise_append.mp horder).2.2 m.header (List.mem_map_of_mem hm) l.header
    List.mem_cons_self
  rw [heq] at hlt
  exact Nat.lt_irrefl _ hlt

/-- One more back edge to the header of a loop widens that loop. -/
theorem meet_known {pre post : List Loop} {l : Loop} (hf : f.Linkage f.start) (ht : t.Of f f.start)
    (hl : f.Looping met (pre ++ l :: post)) (hb : f.BackEdge b l.header) :
    f.Looping (met ++ [(b, l.header)]) (f.addBackEdge t b l.header (pre ++ l :: post)) := by
  have hlmem : l ∈ pre ++ l :: post := List.mem_append_right _ List.mem_cons_self
  obtain ⟨hof, hin, hsub⟩ := withLatch_spec hf ht hb (hl.loops l hlmem)
  have hmem : ∀ {m}, m ∈ pre ++ f.withLatch t l.header b l.blocks :: post →
      m = f.withLatch t l.header b l.blocks ∨ m ∈ pre ++ l :: post := by
    intro m hm
    simp only [List.mem_append, List.mem_cons] at hm ⊢
    rcases hm with hm | hm | hm
    · exact .inr (.inl hm)
    · exact .inl hm
    · exact .inr (.inr (.inr hm))
  have hheaders : (pre ++ f.withLatch t l.header b l.blocks :: post).map Loop.header =
      (pre ++ l :: post).map Loop.header := by simp [withLatch]
  rw [addBackEdge_known hl.header_ne]
  refine ⟨fun m hm => ?_, fun m hm => ?_, fun e he => ?_, ?_⟩
  · rcases hmem hm with rfl | hm
    · exact hof
    · exact hl.loops m hm
  · rcases hmem hm with rfl | hm
    · exact header_met (hl.headers l hlmem)
    · exact header_met (hl.headers m hm)
  · rcases List.mem_append.mp he with he | he
    · obtain ⟨m, hm, hme, hin'⟩ := hl.latches e he
      simp only [List.mem_append, List.mem_cons] at hm
      rcases hm with hm | rfl | hm
      · exact ⟨m, by simp [hm], hme, hin'⟩
      · exact ⟨f.withLatch t m.header b m.blocks, by simp, hme, hsub _ hin'⟩
      · exact ⟨m, by simp [hm], hme, hin'⟩
    · obtain rfl := List.mem_singleton.mp he
      exact ⟨f.withLatch t l.header b l.blocks, by simp, rfl, hin⟩
  · rw [hheaders]
    exact hl.order_append _

theorem meet (hf : f.Linkage f.start) (ht : t.Of f f.start) (hl : f.Looping met ls)
    (hb : f.BackEdge b h) : f.Looping (met ++ [(b, h)]) (f.addBackEdge t b h ls) := by
  by_cases hnew : ∀ l ∈ ls, l.header ≠ h
  · exact hl.meet_new hf ht hb hnew
  · push Not at hnew
    obtain ⟨l, hlmem, rfl⟩ := hnew
    obtain ⟨pre, post, rfl⟩ := List.append_of_mem hlmem
    exact hl.meet_known hf ht hb

theorem nodup (hl : f.Looping met ls) : (ls.map Loop.header).Nodup :=
  hl.order.imp fun {h k} hlt (heq : h = k) => by
    rw [heq] at hlt
    exact Nat.lt_irrefl _ hlt

end Looping

theorem loops_looping (hf : f.Linkage f.start) (ht : t.Of f f.start) :
    f.Looping (f.backEdges t) (f.loops t) := by
  have hall : ∀ (es met : List (BlockId × BlockId)) (ls : List Loop),
      (∀ e ∈ es, f.BackEdge e.1 e.2) → f.Looping met ls →
        f.Looping (met ++ es) (es.foldl (fun ls e => f.addBackEdge t e.1 e.2 ls) ls) := by
    intro es
    induction es with
    | nil => exact fun met ls _ hl => by simpa using hl
    | cons e es ih =>
      intro met ls hes hl
      rw [List.foldl_cons, List.append_cons]
      exact ih _ _ (fun e' he' => hes e' (List.mem_cons_of_mem _ he'))
        (hl.meet hf ht (hes e List.mem_cons_self))
  rw [loops_eq]
  exact hall (f.backEdges t) [] [] (fun e he => (mem_backEdges ht).mp he) (.nil f)

theorem loops_spec (hf : f.Flow) (ht : t.Of f f.start) : ∀ l ∈ f.loops t, l.Of f :=
  (loops_looping hf.wired.linkage ht).loops

end Func

/-! ## Ways into a loop -/

namespace Loop.Of

open Func

variable {l : Loop}

theorem pred_mem (hl : l.Of f) (hf : f.Flow) (hb : b ∈ l.blocks) (hne : b ≠ l.header)
    (hr : f.Reached p) (hp : b ∈ f.next p) : p ∈ l.blocks := by
  have hpred := (hf.mem_preds_iff (hf.reached_mem hr) (hf.reached_mem (hl.reached b hb))).mpr hp
  exact (hl.closed b hb hne p hpred hr).resolve_right (by simp)

/-- From the header a trail leads inside the loop to each of its blocks. -/
theorem exists_inside (hl : l.Of f) (hf : f.Flow) (hb : b ∈ l.blocks) {q : List BlockId}
    (hq : Trail f.next f.start l.header q) :
    ∃ r, Trail f.next f.start b (r ++ q) ∧ ∀ x ∈ r, x ∈ l.blocks := by
  obtain ⟨p, hp⟩ := hl.reached b hb
  induction hp with
  | start =>
    have := (hl.dominated _ hb).eq_start
    exact ⟨[], by rw [this] at hq; exact hq, by simp⟩
  | @step a b p ha hedge ih =>
    by_cases hne : b = l.header
    · exact ⟨[], by rw [hne]; exact hq, by simp⟩
    · obtain ⟨r, hr, hin⟩ := ih (hl.pred_mem hf hb hne ⟨p, ha⟩ hedge)
      refine ⟨b :: r, hr.step hedge, fun x hx => ?_⟩
      rcases List.mem_cons.mp hx with rfl | hx
      · exact hb
      · exact hin x hx

/-- What dominates a block of the loop from outside dominates the header. -/
theorem dominates_header (hl : l.Of f) (hf : f.Flow) (hb : b ∈ l.blocks) (hd : f.Dominates d b)
    (hout : d ∉ l.blocks) : f.Dominates d l.header := by
  intro q hq
  obtain ⟨r, hr, hin⟩ := hl.exists_inside hf hb hq
  rcases List.mem_append.mp (hd _ hr) with hm | hm
  · exact absurd (hin d hm) hout
  · exact hm

/-- The only way into a loop dominates its header. -/
theorem only_way (hl : l.Of f) (hne : l.header ≠ f.start)
    (honly : ∀ a, f.Reached a → l.header ∈ f.next a → a ∉ l.blocks → a = p) :
    f.Dominates p l.header := by
  have hlast : ∀ {x q}, Trail f.next f.start x q → x = l.header →
      ∃ a q', q = x :: q' ∧ Trail f.next f.start a q' ∧ l.header ∈ f.next a := by
    intro x q hq hx
    cases hq with
    | start => exact absurd hx.symm hne
    | step ha hedge => exact ⟨_, _, rfl, ha, hx ▸ hedge⟩
  intro q hq
  -- a trail that comes from inside has passed the header before
  induction hn : q.length using Nat.strongRecOn generalizing q with
  | _ n ih =>
      obtain ⟨a, q, rfl, ha, hedge⟩ := hlast hq rfl
      by_cases hin : a ∈ l.blocks
      · obtain ⟨q', hq', hs⟩ := ha.cut (hl.dominated a hin q ha)
        have hlen := hs.length_le
        rw [List.length_cons] at hn
        exact List.mem_cons_of_mem _ (hs.subset (ih q'.length (by omega) q' hq' rfl))
      · rw [← honly a ⟨q, ha⟩ hedge hin]
        exact List.mem_cons_of_mem _ ha.self_mem

end Loop.Of

namespace Func

/-! ## Loops, all told -/

/-- Loops are found exactly: one for each target of a back edge, with the blocks of its natural loop,
all of which it dominates. -/
theorem loops_exact (h : f.Wired) : ∃ t, f.domTree = .ok t ∧
    ((f.loops t).map Loop.header).Nodup ∧
    (∀ k, k ∈ (f.loops t).map Loop.header ↔ ∃ b, f.BackEdge b k) ∧
    ∀ l ∈ f.loops t, (∀ x, x ∈ l.blocks ↔ f.InLoop l.header x) ∧
      ∀ x ∈ l.blocks, f.Dominates l.header x := by
  obtain ⟨t, ht, hof⟩ := h.domTree
  have hall := loops_looping h.linkage hof
  refine ⟨t, ht, hall.nodup, fun k => ⟨fun hk => ?_, fun ⟨b, hb⟩ => ?_⟩, fun l hl => ⟨fun x => ?_,
    (hall.loops l hl).dominated⟩⟩
  · obtain ⟨l, hl, rfl⟩ := List.mem_map.mp hk
    obtain ⟨e, he, heq⟩ := List.mem_map.mp (hall.headers l hl)
    exact ⟨e.1, heq ▸ (mem_backEdges hof).mp he⟩
  · obtain ⟨l, hl, hlk, -⟩ := hall.latches _ ((mem_backEdges hof).mpr hb)
    exact List.mem_map.mpr ⟨l, hl, hlk⟩
  · have hloop := hall.loops l hl
    refine ⟨hloop.inside x, fun hx => hx.subset hloop.header (fun b hb => ?_)
      fun b hb hne p hp hedge => ?_⟩
    · obtain ⟨m, hm, hml, hbm⟩ := hall.latches _ ((mem_backEdges hof).mpr hb)
      exact List.inj_on_of_nodup_map hall.nodup hm hl hml ▸ hbm
    · have hpred := (h.linkage.preds b p (hloop.reached b hb) hp).mpr hedge
      exact (hloop.closed b hb hne p hpred hp).resolve_right List.not_mem_nil

/-- A loop of two blocks inside another that is left from the middle, a block with two edges to
itself, two ways into a cycle that is no loop, and a block outside that leads into the inner loop but
that control never comes to. -/
def overlapping : Func where
  name := "overlapping"
  ret := .void
  params := []
  layout := [0, 1, 2, 3, 4, 5, 6, 7]
  blocks := #[
    { kind := .jump, succs := [1] },
    { kind := .branch, succs := [2, 5], preds := [0, 3, 4] },
    { kind := .branch, succs := [3, 4], preds := [1, 4, 7] },
    { kind := .jump, succs := [1], preds := [2] },
    { kind := .branch, succs := [2, 1], preds := [2] },
    { kind := .branch, succs := [5, 5, 6], preds := [1, 5, 5] },
    { kind := .ret, preds := [5] },
    { kind := .jump, succs := [2] }]

theorem loops_exact_overlapping : overlapping.Wired ∧ ∃ t, overlapping.domTree = .ok t ∧
    ((∃ l ∈ overlapping.loops t, l.header = 5) ↔ ∃ b, overlapping.BackEdge b 5) ∧
    ∀ l ∈ overlapping.loops t, l.header = 2 → (7 ∈ l.blocks ↔ overlapping.InLoop 2 7) := by
  have hwired : overlapping.Wired := ⟨by decide, by decide, by decide, by decide⟩
  obtain ⟨t, ht, -, hheaders, hblocks⟩ := loops_exact hwired
  refine ⟨hwired, t, ht, ?_, fun l hl hl2 => ?_⟩
  · rw [← hheaders 5, List.mem_map]
  · rw [← hl2]
    exact (hblocks l hl).1 7

/-! ## The order of loops -/

/-- Back edges are met by their sources in reverse postorder, and from one source by the place of the
target among the successors. -/
def MetBefore (f : Func) (t : DomTree) (e e' : BlockId × BlockId) : Prop :=
  t.rpo.idxOf e.1 < t.rpo.idxOf e'.1 ∨
    e.1 = e'.1 ∧ (f.next e.1).idxOf e.2 < (f.next e.1).idxOf e'.2

theorem idxOf_filter_lt {l : List BlockId} {q : BlockId → Bool} (hb : q b = true) (hc : q c = true) :
    (l.filter q).idxOf b < (l.filter q).idxOf c ↔ l.idxOf b < l.idxOf c := by
  induction l with
  | nil => simp
  | cons x l ih =>
    by_cases hxb : x = b
    · subst hxb
      rw [List.filter_cons_of_pos hb]
      by_cases hxc : x = c
      · simp [hxc]
      · simp [List.idxOf_cons_ne _ hxc]
    · by_cases hxc : x = c
      · subst hxc
        simp [List.filter_cons_of_pos hc]
      · rw [List.idxOf_cons_ne _ hxb, List.idxOf_cons_ne _ hxc, Nat.succ_lt_succ_iff, ← ih]
        by_cases hx : q x = true
        · rw [List.filter_cons_of_pos hx, List.idxOf_cons_ne _ hxb, List.idxOf_cons_ne _ hxc,
            Nat.succ_lt_succ_iff]
        · rw [List.filter_cons_of_neg hx]

/-- In a chain of lists the first of one element stands before the first of another if it is in an
earlier list than all of these, or in the list of the first of them but before it. -/
theorem idxOf_flatMap_lt {l : List BlockId} {g : BlockId → List BlockId} (hl : l.Nodup) :
    (l.flatMap g).idxOf b < (l.flatMap g).idxOf c ↔ ∃ x ∈ l, b ∈ g x ∧ ∀ y ∈ l, c ∈ g y →
      l.idxOf x < l.idxOf y ∨ x = y ∧ (g x).idxOf b < (g x).idxOf c := by
  induction l with
  | nil => simp
  | cons a l ih =>
    obtain ⟨ha, hl⟩ := List.nodup_cons.mp hl
    have hne : ∀ {y}, y ∈ l → a ≠ y := fun hy heq => ha (heq ▸ hy)
    rw [List.flatMap_cons]
    by_cases hb : b ∈ g a
    · rw [List.idxOf_append_of_mem hb]
      have hlt := List.idxOf_lt_length_of_mem hb
      by_cases hc : c ∈ g a
      · rw [List.idxOf_append_of_mem hc]
        constructor
        · intro h
          refine ⟨a, List.mem_cons_self, hb, fun y hy _ => ?_⟩
          rcases List.mem_cons.mp hy with rfl | hy
          · exact .inr ⟨rfl, h⟩
          · exact .inl (by rw [List.idxOf_cons_self, List.idxOf_cons_ne _ (hne hy)]; omega)
        · rintro ⟨x, -, -, h⟩
          rcases h a List.mem_cons_self hc with hax | ⟨rfl, hbc⟩
          · rw [List.idxOf_cons_self] at hax
            omega
          · exact hbc
      · rw [List.idxOf_append_of_notMem hc]
        refine iff_of_true (by omega) ⟨a, List.mem_cons_self, hb, fun y hy hcy => ?_⟩
        rcases List.mem_cons.mp hy with rfl | hy
        · exact absurd hcy hc
        · exact .inl (by rw [List.idxOf_cons_self, List.idxOf_cons_ne _ (hne hy)]; omega)
    · rw [List.idxOf_append_of_notMem hb]
      by_cases hc : c ∈ g a
      · rw [List.idxOf_append_of_mem hc]
        have hlt := List.idxOf_lt_length_of_mem hc
        refine iff_of_false (by omega) ?_
        rintro ⟨x, -, hbx, h⟩
        rcases h a List.mem_cons_self hc with hax | ⟨rfl, -⟩
        · rw [List.idxOf_cons_self] at hax
          omega
        · exact hb hbx
      · rw [List.idxOf_append_of_notMem hc, Nat.add_lt_add_iff_left, ih hl]
        constructor
        · rintro ⟨x, hx, hbx, h⟩
          refine ⟨x, List.mem_cons_of_mem _ hx, hbx, fun y hy hcy => ?_⟩
          rcases List.mem_cons.mp hy with rfl | hy
          · exact absurd hcy hc
          · rw [List.idxOf_cons_ne _ (hne hx), List.idxOf_cons_ne _ (hne hy), Nat.succ_lt_succ_iff]
            exact h y hy hcy
        · rintro ⟨x, hx, hbx, h⟩
          rcases List.mem_cons.mp hx with rfl | hx
          · exact absurd hbx hb
          refine ⟨x, hx, hbx, fun y hy hcy => ?_⟩
          have := h y (List.mem_cons_of_mem _ hy) hcy
          rwa [List.idxOf_cons_ne _ (hne hx), List.idxOf_cons_ne _ (hne hy), Nat.succ_lt_succ_iff]
            at this

/-- The first back edge to `h` is met before the first one to `c`. -/
theorem idxOf_backEdges_lt (ht : t.Of f f.start) :
    ((f.backEdges t).map (·.2)).idxOf h < ((f.backEdges t).map (·.2)).idxOf c ↔
      ∃ a, f.BackEdge a h ∧ ∀ b, f.BackEdge b c → f.MetBefore t (a, h) (b, c) := by
  have htargets : (f.backEdges t).map (·.2) =
      t.rpo.flatMap fun b => (f.next b).filter (t.dominates · b) := by
    simp [backEdges, List.map_flatMap, Function.comp_def]
  have hback : ∀ {b k}, (b ∈ t.rpo ∧ k ∈ (f.next b).filter (t.dominates · b)) ↔
      f.BackEdge b k := by
    intro b k
    rw [← mem_backEdges ht, backEdges]
    simp
  rw [htargets, idxOf_flatMap_lt ht.post.nodup]
  constructor
  · rintro ⟨a, ha, hah, h⟩
    refine ⟨a, hback.mp ⟨ha, hah⟩, fun b hb => ?_⟩
    obtain ⟨hb, hbc⟩ := hback.mpr hb
    refine (h b hb hbc).imp id ?_
    rintro ⟨rfl, hlt⟩
    exact ⟨rfl, (idxOf_filter_lt (q := (t.dominates · a)) (List.mem_filter.mp hah).2
      (List.mem_filter.mp hbc).2).mp hlt⟩
  · rintro ⟨a, ha, h⟩
    obtain ⟨ha, hah⟩ := hback.mpr ha
    refine ⟨a, ha, hah, fun b hb hbc => (h b (hback.mp ⟨hb, hbc⟩)).imp id ?_⟩
    rintro ⟨rfl, hlt⟩
    exact ⟨rfl, (idxOf_filter_lt (q := (t.dominates · a)) (List.mem_filter.mp hah).2
      (List.mem_filter.mp hbc).2).mpr hlt⟩

/-- Loops come in the order of their first back edges, inner ones as well as outer ones: of two loops
the first in the list is the one with a back edge that is met before all those of the other. -/
theorem loops_by_first_back_edge (h : f.Wired) : ∃ t, f.domTree = .ok t ∧
    ∀ l ∈ f.loops t, ∀ m ∈ f.loops t, l.header ≠ m.header →
      ([l, m].Sublist (f.loops t) ↔ ∃ a, f.BackEdge a l.header ∧
        ∀ b, f.BackEdge b m.header → f.MetBefore t (a, l.header) (b, m.header)) := by
  obtain ⟨t, ht, hof⟩ := h.domTree
  have hall := loops_looping h.linkage hof
  refine ⟨t, ht, fun l hl m hm hne => ?_⟩
  rw [← idxOf_backEdges_lt hof]
  have hbefore : ∀ {l m}, [l, m].Sublist (f.loops t) →
      ((f.backEdges t).map (·.2)).idxOf l.header < ((f.backEdges t).map (·.2)).idxOf m.header :=
    fun hs => by simpa using hall.order.sublist (hs.map Loop.header)
  refine ⟨hbefore, fun hlt => ?_⟩
  obtain ⟨pre, post, hsplit⟩ := List.append_of_mem hl
  rw [hsplit, List.mem_append, List.mem_cons] at hm
  rcases hm with hm | rfl | hm
  · have := hbefore (l := m) (m := l) (by
      rw [hsplit]
      exact (List.singleton_sublist.mpr hm).append (List.singleton_sublist.mpr List.mem_cons_self))
    omega
  · exact absurd rfl hne
  · rw [hsplit]
    exact (List.Sublist.cons_cons l (List.singleton_sublist.mpr hm)).trans
      (List.sublist_append_right pre _)

/-- A loop inside another, tested at its end: the inner one goes back from the block in front of the
one from which the outer one goes back. -/
def testedLast : Func where
  name := "testedLast"
  ret := .void
  params := [.i1]
  values := #[{ op := .param, type := .i1, block := some 0 }]
  layout := [0, 1, 2, 3, 4]
  paramValues := [0]
  blocks := #[
    { values := [0], kind := .jump, succs := [1] },
    { kind := .jump, succs := [2], preds := [0, 3] },
    { kind := .branch, control := .value 0, succs := [2, 3], preds := [1, 2] },
    { kind := .branch, control := .value 0, succs := [1, 4], preds := [2] },
    { kind := .ret, preds := [3] }]

/-- The inner loop comes first. -/
theorem loops_by_first_back_edge_testedLast : testedLast.Wired ∧ ∃ t, testedLast.domTree = .ok t ∧
    ∃ outer ∈ testedLast.loops t, ∃ inner ∈ testedLast.loops t,
      (∀ x ∈ inner.blocks, x ∈ outer.blocks) ∧ outer.header ∉ inner.blocks ∧
      [inner, outer].Sublist (testedLast.loops t) := by
  have hwired : testedLast.Wired := ⟨by decide, by decide, by decide, by decide⟩
  obtain ⟨t, ht, horder⟩ := loops_by_first_back_edge hwired
  have hfound : testedLast.domTree.map (fun t => (t.rpo, testedLast.loops t)) =
      .ok ([0, 1, 2, 3, 4], [⟨2, [2]⟩, ⟨1, [2, 3, 1]⟩]) := by rfl
  rw [ht] at hfound
  obtain ⟨hrpo, hloops⟩ := Prod.mk.inj (Except.ok.inj hfound)
  have hlatch : ∀ b, testedLast.BackEdge b 1 → b = 3 := fun b hb => by
    have hsources : ∀ b < 5, 1 ∈ testedLast.next b → b = 0 ∨ b = 3 := by decide
    refine (hsources b (hwired.linkage.lt b hb.reached) hb.edge).resolve_left ?_
    rintro rfl
    exact absurd (hb.dominates [0] .start) (by decide)
  have htwo : testedLast.Reached 2 :=
    ((Reach.refl testedLast.next 0).step (c := 1) (by decide)).step (by decide)
  have houter : (⟨1, [2, 3, 1]⟩ : Loop) ∈ testedLast.loops t := by simp [hloops]
  have hinner : (⟨2, [2]⟩ : Loop) ∈ testedLast.loops t := by simp [hloops]
  refine ⟨hwired, t, ht, _, houter, _, hinner, by decide, by decide,
    (horder _ hinner _ houter (by decide)).mpr ⟨2, ⟨htwo, by decide, .refl _ _ _⟩, fun b hb => ?_⟩⟩
  obtain rfl := hlatch b hb
  refine .inl ?_
  rw [hrpo]
  decide

end Func
end SsaJit
