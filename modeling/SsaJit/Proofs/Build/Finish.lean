import SsaJit.Build.Acquire
import SsaJit.Proofs.Build.Statements

/-! The beginning and the end of construction. A new function is a draft that has its parameters;
`terminate` gives the blocks that were left open their ends, and makes of any draft a function in good
form whose insertion block returns zero. Before the body of the entry runs, every variable holds
zero. -/

namespace SsaJit.Build

open Func BuildM

variable {f g F : Func} {b c : BlockId} {v z : ValueId} {t ret : SType} {params vars Γ : List SType}
  {ρ ω : List Variable} {args : Nat → UInt64} {st : regionInterp.State} {id : SessionId} {i : Nat}

/-! ## New functions -/

/-- The value of the `i`-th parameter. -/
def parameter (t : Ty) (i : Nat) : Value := { op := .param, type := t, aux := Int64.ofNat i }

/-- A function with parameters and nothing else. -/
structure Begun (ret : Ty) (ts : List Ty) (f : Func) : Prop where
  layout : f.layout = [0]
  numBlocks : f.numBlocks = 1
  block : f.block 0 = { values := List.range ts.length }
  numValues : f.numValues = ts.length
  params : f.paramValues = List.range ts.length
  ret : f.ret = ret
  value : ∀ (i : Nat) (t : Ty), ts[i]? = some t → f.value i = { parameter t i with block := some 0 }

namespace Begun

variable {r u : Ty} {ts us : List Ty}

theorem appended (h : Begun r ts f) :
    Begun r (ts ++ [u]) { f.appended 0 (parameter u ts.length) with
      paramValues := f.paramValues ++ [f.numValues] } where
  layout := h.layout
  numBlocks := (numBlocks_appended).trans h.numBlocks
  block := by
    have hblock := block_appended (x := parameter u ts.length) (c := 0) (show 0 < f.numBlocks by
      rw [h.numBlocks]; exact Nat.one_pos)
    refine hblock.trans ?_
    rw [if_pos rfl, h.block, h.numValues, List.length_append, List.length_singleton,
      List.range_succ]
  numValues := by
    refine numValues_appended.trans ?_
    rw [h.numValues, List.length_append, List.length_singleton]
  params := by
    rw [List.length_append, List.length_singleton, List.range_succ]
    change f.paramValues ++ [f.numValues] = _
    rw [h.params, h.numValues]
  ret := h.ret
  value i t hi := by
    refine value_appended.trans ?_
    rw [h.numValues]
    split
    case isTrue heq =>
      subst heq
      simp at hi
      rw [hi]
    case isFalse hne =>
      refine h.value i t ?_
      have hlt := (List.getElem?_eq_some_iff.mp hi).1
      rw [List.length_append, List.length_singleton] at hlt
      rwa [List.getElem?_append_left (Nat.lt_of_le_of_ne (Nat.lt_succ_iff.mp hlt) hne)] at hi

theorem foldl (h : Begun r ts f) : Begun r (ts ++ us) ((us.zipIdx ts.length).foldl (fun f (t, i) =>
    let (f, v) := f.appendValue 0 { op := .param, type := t, aux := Int64.ofNat i }
    { f with paramValues := f.paramValues ++ [v] }) f) := by
  induction us generalizing f ts with
  | nil => simpa using h
  | cons u us ih =>
    have hstep := ih (h.appended (u := u))
    rw [List.append_assoc, List.singleton_append, List.length_append, List.length_singleton] at hstep
    exact hstep

theorem block_ne (h : Begun r ts f) (hb : b ≠ 0) : f.block b = default :=
  block_of_le (h.numBlocks ▸ Nat.one_le_iff_ne_zero.mpr hb)

theorem values (h : Begun r ts f) :
    (f.block b).values = if b = 0 then List.range ts.length else [] := by
  by_cases hb : b = 0
  · rw [if_pos hb, hb, h.block]
  · rw [if_neg hb, h.block_ne hb]
    rfl

/-- Nothing leads anywhere. -/
theorem bare (h : Begun r ts f) (b : BlockId) : (f.block b).kind = .pending ∧
    (f.block b).succs = [] ∧ (f.block b).preds = [] ∧ (f.block b).control = .missing ∧
    (f.block b).isForeign = false := by
  by_cases hb : b = 0
  · rw [hb, h.block]
    exact ⟨rfl, rfl, rfl, rfl, rfl⟩
  · rw [h.block_ne hb]
    exact ⟨rfl, rfl, rfl, rfl, rfl⟩

theorem value_of_mem (h : Begun r ts f) (hv : v ∈ (f.block b).values) :
    b = 0 ∧ ∃ t, ts[v]? = some t ∧ f.value v = { parameter t v with block := some 0 } := by
  rw [h.values] at hv
  split at hv
  case isTrue hb =>
    have hlt : v < ts.length := List.mem_range.mp hv
    exact ⟨hb, _, List.getElem?_eq_getElem hlt, h.value v _ (List.getElem?_eq_getElem hlt)⟩
  case isFalse => cases hv

theorem isHead (h : Begun r ts f) (hv : v ∈ (f.block b).values) : f.isHead v = true := by
  obtain ⟨-, t, -, hval⟩ := h.value_of_mem hv
  rw [Func.isHead, hval]
  rfl

theorem heads (h : Begun r ts f) (b : BlockId) : f.heads b = (f.block b).values :=
  List.filter_eq_self.mpr fun _ hv => h.isHead hv

theorem body (h : Begun r ts f) (b : BlockId) : f.body b = [] :=
  List.filter_eq_nil_iff.mpr fun v hv => by simp [h.isHead hv]

theorem draft (h : Begun r ts f) : f.Draft where
  layout := by rw [h.layout, h.numBlocks]; rfl
  pos := by rw [h.numBlocks]; exact Nat.one_pos
  own b := (h.bare b).2.2.2.2
  succs b c hc := by rw [(h.bare b).2.1] at hc; cases hc
  edges b c := by rw [(h.bare b).2.1, (h.bare c).2.2.1]; rfl
  listed v b := by
    constructor
    · intro hv
      have hlt : v < ts.length := by
        by_contra hge
        rw [Func.value_of_le (by rw [h.numValues]; exact Nat.le_of_not_lt hge)] at hv
        cases hv
      rw [h.value v _ (List.getElem?_eq_getElem hlt)] at hv
      obtain rfl : 0 = b := Option.some.inj hv
      rw [h.values, if_pos rfl]
      exact List.mem_range.mpr hlt
    · intro hv
      obtain ⟨rfl, t, -, hval⟩ := h.value_of_mem hv
      rw [hval]
  nodup b := by
    rw [h.values]
    split
    · exact List.nodup_range
    · exact List.nodup_nil
  split b := by rw [h.heads, h.body, List.append_nil]
  values b v hv := by
    obtain ⟨hb, t, -, hval⟩ := h.value_of_mem hv
    refine ⟨by rw [hval]; exact nofun, fun _ => ⟨hb, by rw [hval]; rfl⟩, fun o ho => ?_, ?_⟩
    · rw [hval] at ho
      cases ho
    · rw [hval]
      simp [WellTyped, parameter, Op.isBinary, Op.isCast]
  ends b := by
    unfold EndInOrder
    rw [(h.bare b).1]
    exact ⟨(h.bare b).2.1, (h.bare b).2.2.2.1⟩

theorem declares (h : Begun r (params.map SType.ty) f) : Declares f id params [] [] where
  param i t hi := by
    have hi' : (params.map SType.ty)[i]? = some t.ty := by rw [List.getElem?_map, hi]; rfl
    have hlt : i < (params.map SType.ty).length := (List.getElem?_eq_some_iff.mp hi').1
    refine ⟨i, by rw [h.params, List.getElem?_range hlt], ?_, ?_⟩
    · rw [h.heads, h.values, if_pos rfl]
      exact List.mem_range.mpr hlt
    · rw [h.value i _ hi']
      exact ⟨rfl, rfl, rfl⟩
  var x t hx := by simp at hx
  length := rfl
  nodup := List.nodup_nil

end Begun

theorem begun_empty (name : String) (r : Ty) (ts : List Ty) : Begun r ts (Func.empty name r ts) := by
  have hstart : Begun r [] ({ name, ret := r, params := ts } : Func).newBlock.1 :=
    ⟨rfl, rfl, rfl, rfl, rfl, rfl, fun i t hi => by simp at hi⟩
  exact hstart.foldl

/-! ## Ends for the blocks that have none -/

/-- Block `c`, which was open in `f`, returns zero. -/
structure ReturnsZero (f g : Func) (c : BlockId) : Prop where
  kind : (g.block c).kind = .ret
  result : f.ret.isVoid = true ∧ (g.block c).control = .missing ∧ g.body c = f.body c ∨
    f.ret.isVoid = false ∧ ∃ z, (g.block c).control = .value z ∧ g.body c = f.body c ++ [z] ∧
      z < g.numValues ∧ g.value z = { zeroOf f.ret with block := some c }

theorem ReturnsZero.grow {k : Func} (h : ReturnsZero f g c) (hgk : GrowsTo g k) :
    ReturnsZero f k c := by
  obtain ⟨hbody, hkind, hcontrol, -⟩ := hgk.ended c (by rw [h.kind]; decide)
  refine ⟨hkind.trans h.kind, ?_⟩
  rw [hbody, hcontrol]
  obtain h | ⟨hvoid, z, hz, hbz, hlt, hval⟩ := h.result
  · exact .inl h
  · exact .inr ⟨hvoid, z, hz, hbz, Nat.lt_of_lt_of_le hlt hgk.numValues,
      (hgk.value z hlt).trans hval⟩

/-- Of the blocks, those of a list have been given an end if they had none. -/
structure EndsGiven (f : Func) (c : BlockId) (done : List BlockId) (g : Func) : Prop where
  draft : g.Draft
  grows : GrowsTo f g
  numBlocks : g.numBlocks = f.numBlocks
  ended : ∀ b ∈ done, (g.block b).kind ≠ .pending
  cursor : c ∈ done → ReturnsZero f g c
  left : c ∉ done → (g.block c).kind = .pending ∧ g.body c = f.body c

theorem fresh_zeroOf (r : Ty) : g.Fresh c (zeroOf r) := by
  refine ⟨by simp [zeroOf], by simp [zeroOf], by simp [zeroOf], ?_⟩
  simp only [WellTyped, zeroOf, Op.isBinary, Op.isCast, Bool.false_eq_true, if_false]
  intro hvec
  simp [hvec]

/-- The end of the insertion block. -/
theorem returnsZero (hg : Site g c) (hret : g.ret = f.ret) (hbody : g.body c = f.body c) :
    ∃ k, (if g.ret.isVoid then g.setRet c .missing
      else (g.appended c (zeroOf g.ret)).setRet c (.value g.numValues)) = .ok k ∧
      k.Draft ∧ GrowsTo g k ∧ k.numBlocks = g.numBlocks ∧ ReturnsZero f k c ∧
      ∀ b ≠ c, (k.block b).kind = (g.block b).kind := by
  by_cases hvoid : g.ret.isVoid = true
  · have hclose : g.Closing c .ret .missing [] :=
      ⟨hg.lt, hg.pending, by simp, rfl, by rw [if_pos rfl]; exact hvoid⟩
    have hblock := fun b => hclose.block (c := b) hg.draft
    rw [if_pos hvoid]
    refine ⟨_, setRet_pending hg.draft.bare hg.pending, hclose.draft hg.draft, hclose.grows hg.draft,
      by simp, ⟨by rw [hblock]; simp, .inl ⟨hret ▸ hvoid, by rw [hblock]; simp,
        (hclose.body hg.draft).trans hbody⟩⟩, fun b hb => by rw [hblock]; simp [hb]⟩
  · rw [Bool.not_eq_true] at hvoid
    have hx : g.Fresh c (zeroOf g.ret) := fresh_zeroOf g.ret
    have hgrown := Grown.appended hg hx
    have hsite := hgrown.site
    have hval : (g.appended c (zeroOf g.ret)).value g.numValues =
        { zeroOf g.ret with block := some c } := by rw [value_appended, if_pos rfl]
    have hclose : (g.appended c (zeroOf g.ret)).Closing c .ret (.value g.numValues) [] := by
      refine ⟨hsite.lt, hsite.pending, by simp, rfl, ?_⟩
      rw [if_neg (by simp)]
      refine ⟨hvoid, _, rfl, ⟨by rw [hval]; simp [zeroOf], .inr ?_⟩, by rw [hval]; rfl⟩
      rw [block_appended hg.lt, if_pos rfl]
      simp
    have hblock := fun b => hclose.block (c := b) hsite.draft
    rw [if_neg (by simp [hvoid])]
    refine ⟨_, setRet_pending hsite.draft.bare hsite.pending, hclose.draft hsite.draft,
      hgrown.later.grows.trans (hclose.grows hsite.draft), by simp,
      ⟨by rw [hblock]; simp, .inr ⟨hret ▸ hvoid, g.numValues, by rw [hblock]; simp, ?_, by simp, ?_⟩⟩,
      fun b hb => ?_⟩
    · rw [hclose.body hsite.draft, body_appended hg.draft hg.lt hx.head, if_pos rfl, hbody]
    · rw [value_ended, hval, hret]
    · rw [hblock, block_appended hg.lt]
      simp [hb]

/-- A block that has an end keeps it. -/
theorem EndsGiven.skip {done : List BlockId} (h : EndsGiven f c done g)
    (hend : (g.block b).kind ≠ .pending) : EndsGiven f c (done ++ [b]) g where
  draft := h.draft
  grows := h.grows
  numBlocks := h.numBlocks
  ended d hd := by
    rcases List.mem_append.mp hd with hd | hd
    · exact h.ended d hd
    · rwa [List.mem_singleton.mp hd]
  cursor hin := by
    refine h.cursor ?_
    by_contra hout
    obtain rfl : c = b := by simpa [hout] using hin
    exact hend (h.left hout).1
  left hout := h.left fun hin => hout (List.mem_append_left _ hin)

theorem EndsGiven.zero {done : List BlockId} (h : EndsGiven f c done g) (hsite : Site g c)
    (hnew : c ∉ done) : ∃ k, (if g.ret.isVoid then g.setRet c .missing
      else (g.appended c (zeroOf g.ret)).setRet c (.value g.numValues)) = .ok k ∧
      EndsGiven f c (done ++ [c]) k := by
  obtain ⟨k, hk, hdraft, hgrow, hnum, hzero, hothers⟩ :=
    returnsZero (f := f) hsite h.grows.ret (h.left hnew).2
  refine ⟨k, hk, hdraft, h.grows.trans hgrow, hnum.trans h.numBlocks, fun d hd => ?_,
    fun _ => hzero, fun hout => absurd (List.mem_append_right _ (List.mem_singleton_self c)) hout⟩
  by_cases hdc : d = c
  · rw [hdc, hzero.kind]
    decide
  · rw [hothers d hdc]
    exact h.ended d (by simpa [hdc] using hd)

theorem EndsGiven.unreachable {done : List BlockId} (h : EndsGiven f c done g) (hsite : Site g b)
    (hbc : b ≠ c) : ∃ k, g.setUnreachable b = .ok k ∧ EndsGiven f c (done ++ [b]) k := by
  have hclose : g.Closing b .unreachable .missing [] :=
    ⟨hsite.lt, hsite.pending, by simp, rfl, rfl⟩
  have hblock := fun d => hclose.block (c := d) h.draft
  have hgrow := hclose.grows h.draft
  have hmem : c ∈ done ++ [b] ↔ c ∈ done := by simp [Ne.symm hbc]
  refine ⟨_, setUnreachable_pending h.draft.bare hsite.pending, hclose.draft h.draft,
    h.grows.trans hgrow, by simpa using h.numBlocks, fun d hd => ?_,
    fun hin => (h.cursor (hmem.mp hin)).grow hgrow, fun hout => ?_⟩
  · rw [hblock]
    by_cases hdb : d = b
    · simp [hdb]
    · simpa [hdb] using h.ended d (by simpa [hdb] using hd)
  · obtain ⟨hkind, hbody⟩ := h.left fun hin => hout (hmem.mpr hin)
    refine ⟨?_, (hclose.body h.draft).trans hbody⟩
    rw [hblock]
    simpa [Ne.symm hbc] using hkind

theorem EndsGiven.step {done : List BlockId} (h : EndsGiven f c done g) (hb : b < f.numBlocks)
    (hnew : b ∉ done) :
    ∃ k, (if (g.block b).isTerminated then .ok g
      else if some b ≠ some c then g.setUnreachable b
      else if g.ret.isVoid then g.setRet b .missing
      else
        let (g, result) := g.appendValue b (zeroOf g.ret)
        g.setRet b (.value result)) = .ok k ∧ EndsGiven f c (done ++ [b]) k := by
  by_cases hend : (g.block b).isTerminated = true
  · exact ⟨g, if_pos hend, h.skip (by simpa [Block.isTerminated] using hend)⟩
  have hsite : Site g b := ⟨h.draft, h.numBlocks ▸ hb, by simpa [Block.isTerminated] using hend⟩
  rw [if_neg hend]
  by_cases hbc : b = c
  · subst hbc
    rw [if_neg (by simp)]
    exact h.zero hsite hnew
  · rw [if_pos (by simpa using hbc)]
    exact h.unreachable hsite hbc

/-- All blocks have an end, and the insertion block returns zero. -/
theorem terminate_draft (hf : Site f c) : ∃ F, terminate (some c) f = .ok F ∧ F.Draft ∧
    GrowsTo f F ∧ (∀ b < F.numBlocks, (F.block b).kind ≠ .pending) ∧ ReturnsZero f F c := by
  have hstart : EndsGiven f c [] f :=
    ⟨hf.draft, .refl f, rfl, by simp, by simp, fun _ => ⟨hf.pending, rfl⟩⟩
  obtain ⟨F, hrun, hF⟩ := Outcome.foldlM_keeps_done (P := EndsGiven f c) (l := f.layout)
    (fun done b rest g hl h => by
      have hnodup : (done ++ b :: rest).Nodup := by
        rw [← hl, hf.draft.layout]
        exact List.nodup_range
      refine h.step ?_ fun hin => (List.nodup_append.mp hnodup).2.2 b hin b List.mem_cons_self rfl
      exact hf.draft.mem_layout.mp (by rw [hl]; simp)) hstart
  have hall : ∀ b < f.numBlocks, b ∈ f.layout := fun b hb => hf.draft.mem_layout.mpr hb
  exact ⟨F, hrun, hF.draft, hF.grows, fun b hb => hF.ended b (hall b (hF.numBlocks ▸ hb)),
    hF.cursor (hall c hf.lt)⟩

/-- What the insertion block returns in the finished function. -/
theorem ReturnsZero.ends (h : ReturnsZero f F c) (hret : f.ret = ret.ty) (st : regionInterp.State) :
    ∃ n mem, EndsFrom F n (.last f c) st (.returned (ret.zeroResult.map .lanes) mem) := by
  obtain ⟨hvoid, hcontrol, hbody⟩ | ⟨hvoid, z, hcontrol, hbody, -, hval⟩ := h.result
  · have hlast : Place.last F c = .last f c := by rw [Place.last, hbody, Place.last]
    have hend := endsFrom_ret st h.kind rfl
    rw [hlast, hcontrol, if_pos rfl] at hend
    rw [SType.zeroResult, ← hret, if_pos hvoid]
    exact ⟨1, st.mem, hend⟩
  · have hlanes : ({ zeroOf f.ret with block := some c } : Value).bare.constLanes =
        some (List.replicate f.ret.numLanes 0) := by
      cases f.ret <;> rfl
    have hexec : F.exec st z =
        .ok (st.assign z .const (.lanes (List.replicate f.ret.numLanes 0), st.mem)) := by
      rw [Func.exec, hval, if_neg (by simp [zeroOf]), Regions.perform_const rfl, hlanes]
      rfl
    have hdrop : (F.body c).drop (f.body c).length = [z] ++ [] := by
      rw [hbody, List.drop_left, List.append_nil]
    have hpass := passes_straight hdrop (foldlM_one hexec)
    have hend := endsFrom_ret (st.assign z .const
      (.lanes (List.replicate f.ret.numLanes 0), st.mem)) h.kind rfl
    rw [Place.last, hbody, List.length_append, hcontrol, if_neg (by simp)] at hend
    have hget : (st.assign z .const (.lanes (List.replicate f.ret.numLanes 0), st.mem)).get
        (.value z) = .lanes (List.replicate f.ret.numLanes 0) := by
      simp [Interp.State.get, Interp.read, Interp.State.assign]
    rw [hget] at hend
    rw [SType.zeroResult, ← hret, hvoid]
    exact ⟨1 + 0, st.mem, hpass.ends hend⟩

/-! ## The entry -/

/-- What a head leaves behind. -/
structure HeadRun (F : Func) (st st' : regionInterp.State) (v : ValueId) : Prop where
  param : (F.value v).op = .param →
    st'.env v = .lanes (st.mem.args.getD (F.value v).aux.toNatClampNeg [])
  space : (F.value v).op = .alloca → st'.env v = .region v ∧
    st'.mem.bytes v = List.replicate (F.value v).aux.toNatClampNeg 0

/-- One head: others are left alone. -/
theorem exec_head (st : regionInterp.State) (hv : F.isHead v = true) (hargs : (F.value v).args = []) :
    ∃ st', F.exec st v = .ok st' ∧ HeadRun F st st' v ∧ st'.mem.args = st.mem.args ∧
      ∀ u ≠ v, st'.env u = st.env u ∧ st'.mem.bytes u = st.mem.bytes u := by
  have hop : (F.value v).op = .param ∨ (F.value v).op = .alloca := by
    simpa [Func.isHead] using hv
  have hreads : (F.value v).reads = [] := by
    rw [Value.reads, hargs]
    split <;> rfl
  have hexec : ∀ r, st.mem.exec? v (F.value v).bare [] [] = some r →
      F.exec st v = .ok (st.assign v (F.value v).op r) := fun r hr => by
    rw [Func.exec, if_neg (by rcases hop with h | h <;> rw [h] <;> decide), hreads]
    exact Regions.perform_some (by rcases hop with h | h <;> simp [Value.bare, h]) hr
  rcases hop with hop | hop
  · have hrun := hexec (.lanes (st.mem.args.getD (F.value v).aux.toNatClampNeg []), st.mem)
      (by simp [Regions.exec?, Value.bare, hop])
    rw [hop] at hrun
    refine ⟨_, hrun, ⟨fun _ => ?_, fun h => (by rw [hop] at h; cases h)⟩, rfl, fun u hu => ?_⟩
    · simp [Interp.State.assign]
    · simp [Interp.State.assign, Function.update_of_ne hu]
  · have hrun := hexec
      (.region v, (written st v (List.replicate (F.value v).aux.toNatClampNeg 0)).mem)
      (by simp [Regions.exec?, Value.bare, hop, written])
    rw [hop] at hrun
    refine ⟨_, hrun, ⟨fun h => (by rw [hop] at h; cases h), fun _ => ?_⟩, rfl, fun u hu => ?_⟩
    · simp [Interp.State.assign, written]
    · simp [Interp.State.assign, written, Function.update_of_ne hu]

theorem run_heads (st : regionInterp.State) {l : List ValueId} (hnodup : l.Nodup)
    (hl : ∀ v ∈ l, F.isHead v = true ∧ (F.value v).args = []) :
    ∃ st', l.foldlM F.exec st = .ok st' ∧ (∀ v ∈ l, HeadRun F st st' v) ∧
      st'.mem.args = st.mem.args ∧
      ∀ u ∉ l, st'.env u = st.env u ∧ st'.mem.bytes u = st.mem.bytes u := by
  induction l generalizing st with
  | nil => exact ⟨st, rfl, by simp, rfl, fun _ _ => ⟨rfl, rfl⟩⟩
  | cons v l ih =>
    obtain ⟨hv, hnodup⟩ := List.nodup_cons.mp hnodup
    obtain ⟨hhead, hargs⟩ := hl v List.mem_cons_self
    obtain ⟨st₁, hexec, hrun, hmem, hothers⟩ := exec_head st hhead hargs
    obtain ⟨st₂, hfold, hruns, hmem₂, hothers₂⟩ :=
      ih st₁ hnodup fun u hu => hl u (List.mem_cons_of_mem v hu)
    refine ⟨st₂, ?_, fun u hu => ?_, hmem₂.trans hmem, fun u hu => ?_⟩
    · rw [List.foldlM_cons, hexec]
      exact hfold
    · rcases List.mem_cons.mp hu with rfl | hu
      · obtain ⟨henv, hbytes⟩ := hothers₂ u hv
        exact ⟨fun h => henv.trans (hrun.param h),
          fun h => ⟨henv.trans (hrun.space h).1, hbytes.trans (hrun.space h).2⟩⟩
      · exact ⟨fun h => hmem ▸ (hruns u hu).param h, (hruns u hu).space⟩
    · obtain ⟨huv, hul⟩ := not_or.mp (List.mem_cons.not.mp hu)
      exact ⟨(hothers₂ u hul).1.trans (hothers u huv).1, (hothers₂ u hul).2.trans (hothers u huv).2⟩

/-- The arguments of a program, as the words that it reads. -/
def argWord (xs : List (List UInt64)) (i : Nat) : UInt64 := (xs.getD i []).headD 0

/-- The arguments fit the parameters. -/
def ArgsFit (params : List SType) (xs : List (List UInt64)) : Prop :=
  ∀ (i : Nat) (t : SType), params[i]? = some t → t.ty.Fits (xs.getD i [])

theorem toNatClampNeg_ofNat {n : Nat} (h : n < 2 ^ 63) : (Int64.ofNat n).toNatClampNeg = n := by
  rw [Int64.toNatClampNeg, Int64.toInt_ofNat_of_lt h]
  exact Int.toNat_natCast n

/-- Once the entry's heads have run, every variable holds zero. -/
theorem entry_runs {xs : List (List UInt64)} (hF : F.Draft) (hdecl : Declares F id params Γ ω)
    (hsmall : params.length < 2 ^ 63) (hxs : ArgsFit params xs) (hst : st.mem.args = xs) :
    ∃ st', Rep F params Γ ω (argWord xs) (fun _ => 0) st' ∧
      ∀ e, F.Ends (0, st) e ↔ ∃ n, EndsFrom F n (.top 0) st' e := by
  have hheads : ∀ v ∈ F.heads 0, F.isHead v = true ∧ (F.value v).args = [] := fun v hv => by
    obtain ⟨hmem, hhead⟩ := Draft.mem_heads.mp hv
    exact ⟨hhead, ((hF.values 0 v hmem).head hhead).2⟩
  obtain ⟨st', hfold, hruns, hargs, -⟩ := run_heads st ((hF.nodup 0).filter _) hheads
  refine ⟨st', ⟨fun i t a hi ha ht => ?_, fun x t v hx hv => ?_⟩, fun e => ?_⟩
  · obtain ⟨a', ha', hhead, -, hop, haux⟩ := hdecl.param i t hi
    obtain rfl : a' = a := Option.some.inj (ha'.symm.trans ha)
    have hlt : i < 2 ^ 63 := (List.getElem?_eq_some_iff.mp hi).1.trans hsmall
    have henv := (hruns a' hhead).param hop
    rw [haux, toNatClampNeg_ofNat hlt, hst] at henv
    obtain ⟨hlen, hcut⟩ := hxs i t hi
    have hone : xs.getD i [] = [argWord xs i] := by
      rw [(SType.word ht).ty] at hlen
      obtain ⟨w, hw⟩ := List.length_eq_one_iff.mp hlen
      rw [argWord, hw]
      rfl
    rw [hone] at henv hcut
    exact ⟨henv, hcut _ (List.mem_singleton_self _)⟩
  · obtain ⟨a, ha, ht, hhead, hop, -, haux⟩ := hdecl.var x t hx
    obtain rfl : ⟨id, t, a⟩ = v := Option.some.inj (ha.symm.trans hv)
    obtain ⟨henv, hbytes⟩ := (hruns a hhead).space hop
    have hsize : t.ty.size = t.ty.elemKind.size := by
      rw [(SType.word ht).ty]
      exact Nat.one_mul _
    have hlt : t.ty.elemKind.size < 2 ^ 63 := by
      cases t.ty.elemKind <;> simp [Kind.size]
    rw [haux, hsize, toNatClampNeg_ofNat hlt] at hbytes
    exact ⟨henv, hbytes.trans (leBytes_zero _).symm, Kind.cut_zero _⟩
  · rw [ends_iff_endsIn, hF.split 0]
    exact exists_congr fun n => endsIn_append hfold

/-! ## Programs -/

theorem createFunction_eq (s : Session) (name : String) (r : Ty) (ts : List Ty) :
    s.createFunction name r ts = s.on (Func.empty name r ts) 0 := by
  have hentry : Func.entry? (Func.empty name r ts) = some 0 := by
    rw [ Func.entry?, (begun_empty name r ts).layout]
    rfl
  rw [Session.createFunction, hentry]
  rfl

/-- A program is built from a new function on. -/
theorem Stmt.built (p : Stmt params ret [] vars) (s : Session) (hs : s.closed = false)
    (name : String) :
    ∃ S, Compiles params ret p.build (fun args => p.does args) []
      ⟨s, Func.empty name ret.ty (params.map SType.ty), 0, []⟩ vars S := by
  have hbegun := begun_empty name ret.ty (params.map SType.ty)
  exact p.compiles _ ⟨hs, ⟨hbegun.draft, hbegun.draft.pos, (hbegun.bare 0).1⟩, hbegun.declares,
    hbegun.ret⟩

/-- What a program returns, the finished function returns; and if that ends, the program does. -/
theorem run_of_does {p : Stmt params ret [] vars} {q : Place}
    (hcode : Does F (Rep F params Γ ω args) (.top 0) q (p.does args))
    (hend : ∀ st, ∃ n mem, EndsFrom F n q st (.returned (ret.zeroResult.map .lanes) mem))
    (hrep : Rep F params Γ ω args (fun _ => 0) st) :
    (∀ r, p.Returns args r → ∃ n mem, EndsFrom F n (.top 0) st (.returned (r.map .lanes) mem)) ∧
      ∀ n e, EndsFrom F n (.top 0) st e → ∃ r, p.Returns args r := by
  refine ⟨fun r hr => ?_, fun n e hn => ?_⟩
  · obtain ⟨w, hw, rfl⟩ | ⟨σ, hσ, rfl⟩ := hr
    · obtain ⟨n, mem, hn⟩ := hcode.returned _ st w hrep hw
      exact ⟨n, mem, by rwa [Option.map_map]⟩
    · obtain ⟨n, st', -, hpass⟩ := hcode.next _ st σ hrep hσ
      obtain ⟨m, mem, hm⟩ := hend st'
      exact ⟨m + n, mem, hpass.ends hm⟩
  · obtain ⟨σ | w, hr⟩ := hcode.ends _ st n e hrep hn
    · exact ⟨_, .inr ⟨σ, hr, rfl⟩⟩
    · exact ⟨_, .inl ⟨w, hr, rfl⟩⟩

/-- Structured programs are compiled correctly: every program can be built, the function that is
finished from it passes verification and nothing leads to its entry, it returns what the program
returns, and it runs forever exactly if the program does. -/
theorem programs_compile (s : Session) (hs : s.closed = false) (name : String)
    (hparams : params.length < 2 ^ 63) (p : Stmt params ret [] vars) :
    ∃ s' ρ g f, Builds p.build (s.createFunction name ret.ty (params.map SType.ty)) [] () s' ρ ∧
      s'.func = some g ∧ terminate s'.cursor g = .ok f ∧
      f.verify = .ok [] ∧ (f.block f.start).preds = [] ∧
      ∀ (xs : List (List UInt64)) (st : regionInterp.State), ArgsFit params xs → st.mem.args = xs →
        (∀ r, (∃ mem, f.Ends (f.start, st) (.returned (r.map .lanes) mem)) ↔
          p.Returns (argWord xs) r) ∧
        ((∀ e, ¬ f.Ends (f.start, st) e) ↔ ∀ r, ¬ p.Returns (argWord xs) r) := by
  obtain ⟨S, hS⟩ := p.built s hs name
  obtain ⟨F, hF, hdraft, hgrows, hends, hzero⟩ := terminate_draft hS.ready.site
  have hgood := hdraft.consistent hends
  have hdecl : Declares F s.id params vars S.spaces :=
    hS.same.id ▸ hS.ready.decl.grow hgrows hS.ready.site.draft hdraft
  refine ⟨S.state, S.spaces, S.func, F, createFunction_eq s name ret.ty _ ▸ hS.builds, rfl, hF,
    hgood.verified, hgood.entry_preds, fun xs st hxs hst => ?_⟩
  rw [hdraft.start]
  obtain ⟨st', hrep, hentry⟩ := entry_runs hdraft hdecl hparams hxs hst
  have hcode := hS.code F vars S.spaces (argWord xs)
    ⟨hdraft, hdecl, hgrows, List.prefix_rfl, List.prefix_rfl⟩
  rw [Stage.last, last_of_nil ((begun_empty name ret.ty _).body 0)] at hcode
  obtain ⟨hreturns, hends⟩ := run_of_does hcode (hzero.ends hS.ready.ret) hrep
  have hforward : ∀ r, p.Returns (argWord xs) r →
      ∃ mem, F.Ends (0, st) (.returned (r.map .lanes) mem) := fun r hr => by
    obtain ⟨n, mem, hn⟩ := hreturns r hr
    exact ⟨mem, (hentry _).mpr ⟨n, hn⟩⟩
  have hback : ∀ e, F.Ends (0, st) e → ∃ r, p.Returns (argWord xs) r := fun e he => by
    obtain ⟨n, hn⟩ := (hentry e).mp he
    exact hends n e hn
  refine ⟨fun r => ⟨fun hr => ?_, hforward r⟩, fun h r hr => ?_, fun h e he => ?_⟩
  · obtain ⟨mem, he⟩ := hr
    obtain ⟨r', hr'⟩ := hback _ he
    obtain ⟨mem', he'⟩ := hforward r' hr'
    have hsame : r.map Datum.lanes = r'.map .lanes := (Interp.Halt.returned.inj (he.unique he')).1
    have hinj : Function.Injective Datum.lanes := fun _ _ h => Datum.lanes.inj h
    rwa [Option.map_injective hinj hsame]
  · obtain ⟨mem, he⟩ := hforward r hr
    exact h _ he
  · obtain ⟨r, hr⟩ := hback e he
    exact h r hr

/-- The factorial of a positive argument, returned from within the loop. -/
def factorial : Stmt [.int] .int [] [.int, .int] :=
  let n : Expr [.int] [.int, .int] .int := .read 0 rfl rfl
  let r : Expr [.int] [.int, .int] .int := .read 1 rfl rfl
  let one : Expr [.int] [.int, .int] .int := .literal .int rfl 1
  .seq
    (.seq (.seq (.declare .int rfl) (.declare .int rfl))
      (.seq (.assign 0 rfl (.argument 0 rfl rfl)) (.assign 1 rfl one)))
    (.whileLoop .skip (.compare .gt n (.literal .int rfl 0))
      (.seq (.ifThen (.compare .eq n one) (.give r))
        (.seq (.assign 1 rfl (.binary .mul r n)) (.assign 0 rfl (.binary .sub n one)))))

theorem factorial_returns : factorial.Returns (argWord [[3]]) (some [6]) := by
  refine .inl ⟨some 6, .inl ⟨_, .inl ⟨_, .inl ⟨_, rfl, rfl⟩, .inl ⟨_, rfl, rfl⟩⟩, ?_⟩, rfl⟩
  refine .again rfl (by decide) (.inl ⟨_, rfl, .inl ⟨_, rfl, rfl⟩⟩) ?_
  refine .again rfl (by decide) (.inl ⟨_, rfl, .inl ⟨_, rfl, rfl⟩⟩) ?_
  exact .returned rfl (by decide) (.inr ⟨_, rfl, rfl⟩)

theorem factorial_compiles :
    ∃ s' ρ g f, Builds factorial.build
        ((Session.start {} {}).createFunction "factorial" .i32 [.i32]) [] () s' ρ ∧
      s'.func = some g ∧ terminate s'.cursor g = .ok f ∧
      ∃ mem, f.Ends (I := regionInterp) (f.start, ⟨fun _ => .lanes [], ⟨[[3]], fun _ => []⟩⟩)
        (.returned (some (.lanes [6])) mem) := by
  obtain ⟨s', ρ, g, f, hbuild, hg, hf, -, -, hrun⟩ :=
    programs_compile (Session.start {} {}) rfl "factorial" (by decide) factorial
  have hfit : ArgsFit [.int] [[3]] := by
    rintro (_ | i) t ht
    · obtain rfl : SType.int = t := Option.some.inj ht
      refine ⟨rfl, fun w hw => ?_⟩
      rw [List.mem_singleton.mp hw]
      rfl
    · exact nomatch ht
  exact ⟨s', ρ, g, f, hbuild, hg, hf, ((hrun [[3]] _ hfit rfl).1 _).mpr factorial_returns⟩

end SsaJit.Build
