import Mathlib.Data.List.Dedup
import SsaJit.Proofs.Exec.Edges
import SsaJit.Proofs.Lower.Copy
import SsaJit.Proofs.Lower.Frame
import SsaJit.Proofs.Lower.Marks
import SsaJit.Proofs.Ssa.Form
import SsaJit.Proofs.Ssa.Paths

/-! Phis change all at once. A block leaves the next values of its successors' phis in their staging
slots and a block takes its phis from there; since no two rooms of the frame meet, both are copies
that do not disturb each other, and together they are a parallel assignment on the edge that control
takes. -/

namespace SsaJit.Lower

open X86

variable {m m' m'' : Machine}

/-! ## Copies side by side -/

/-- A copy within the frame. -/
structure Move where
  target : Int32
  source : Int32
  bytes : Nat

namespace Move

def code (x : Move) : Code := copy (inFrame x.target) (inFrame x.source) x.bytes

/-- Areas of the frame, by offset and length, that do not meet. -/
def Clear (d : Int32) (n : Nat) (e : Int32) (k : Nat) : Prop :=
  d.toInt + n ≤ e.toInt ∨ e.toInt + k ≤ d.toInt

/-- Both areas lie below rbp. -/
def Inside (x : Move) : Prop := x.target.toInt + x.bytes ≤ 0 ∧ x.source.toInt + x.bytes ≤ 0

/-- The machine after moves: each target holds what its source held before them all, and nothing else
has changed. -/
structure Done (m m' : Machine) (l : List Move) : Prop where
  taken : ∀ x ∈ l, m'.mem.read (addressOf m (inFrame x.target)) x.bytes =
    m.mem.read (addressOf m (inFrame x.source)) x.bytes
  others : ∀ a, (∀ x ∈ l, ¬ Memory.Within (addressOf m (inFrame x.target)) x.bytes a) →
    m'.mem.get a = m.mem.get a
  regs : ∀ r, r ≠ .rcx → m'.reg r = m.reg r

theorem Inside.size_le {x : Move} (h : x.Inside) : x.bytes ≤ UInt64.size := by
  have hlow := x.target.le_toInt
  have := h.1
  exact Nat.le_trans (show x.bytes ≤ 2147483648 by omega) (by decide)

/-- Moves whose targets meet neither each other nor a source are made as if at once. -/
theorem run (l : List Move) (hin : ∀ x ∈ l, x.Inside)
    (hsrc : ∀ x ∈ l, ∀ y ∈ l, Clear x.target x.bytes y.source y.bytes)
    (hdst : l.Pairwise fun x y => Clear x.target x.bytes y.target y.bytes) (m : Machine) :
    ∃ is, l.flatMap code = straight is ∧ ∃ m', execAll is m = .ok m' ∧ Done m m' l := by
  induction l generalizing m with
  | nil => exact ⟨[], rfl, m, rfl, by simp, fun _ _ => rfl, fun _ _ => rfl⟩
  | cons x l ih =>
    obtain ⟨hx, hxs⟩ := List.forall_mem_cons.mp hin
    obtain ⟨hhead, htail⟩ := List.pairwise_cons.mp hdst
    obtain ⟨is₁, hcode₁, m₁, hrun₁, hcopy⟩ :=
      copy_spec hx.1 hx.2 (hsrc x List.mem_cons_self x List.mem_cons_self) m
    obtain ⟨is₂, hcode₂, m₂, hrun₂, hdone⟩ := ih hxs
      (fun y hy z hz => hsrc y (List.mem_cons_of_mem _ hy) z (List.mem_cons_of_mem _ hz)) htail m₁
    have haddr : ∀ d, addressOf m₁ (inFrame d) = addressOf m (inFrame d) :=
      addressOf_congr (hcopy.regs .rbp (by decide))
    refine ⟨is₁ ++ is₂, ?_, m₂, (execAll_append hrun₁).trans hrun₂, ?_, ?_, ?_⟩
    · rw [List.flatMap_cons, straight_append, ← hcode₁, ← hcode₂]
      rfl
    · intro y hy
      rcases List.mem_cons.mp hy with rfl | hy
      · -- the later moves do not touch what the first one has put
        rw [← hcopy.read hx.size_le]
        refine Memory.read_congr fun i hi => hdone.others _ fun z hz => ?_
        rw [haddr]
        exact apart_inFrame m hx.1 (hxs z hz).1 (hhead z hz) _ (Memory.within_add hi hx.size_le)
      · -- nor does the first one touch what the later ones read
        have hread := hdone.taken y hy
        rw [haddr, haddr] at hread
        rw [hread]
        refine Memory.read_congr fun i hi => hcopy.get hx.size_le fun hwithin => ?_
        exact apart_inFrame m hx.1 (hxs y hy).2
          (hsrc x List.mem_cons_self y (List.mem_cons_of_mem _ hy)) _ hwithin
          (Memory.within_add hi (hxs y hy).size_le)
    · intro a ha
      rw [hdone.others a fun z hz => by
          rw [haddr]
          exact ha z (List.mem_cons_of_mem _ hz),
        hcopy.get hx.size_le (ha x List.mem_cons_self)]
    · exact fun r hr => (hdone.regs r hr).trans (hcopy.regs r hr)

end Move

/-! ## Where the code of a block stands -/

section place

variable {c : Context} {prog code : Code} {b s : BlockId} {ls ls' : Labels}

/-- The phis of a block. -/
def Context.phisOf (c : Context) (b : BlockId) : List (ValueId × Value) :=
  (c.func.valuesOf b).filter fun (_, x) => x.op == .phi

/-- The beginning of a block's code: its phis are taken from where they were left. -/
def Context.takes (c : Context) (b : BlockId) : Code :=
  (c.phisOf b).flatMap fun (v, x) => copy (c.home v) (c.stage v) x.type.size

/-- The parts of a block's code. -/
theorem block_eq {next : Option BlockId} (h : c.block b next ls = .ok (code, ls')) :
    ∃ body term, code = .mark (blockMark b) :: (c.takes b ++ (body ++ term)) ∧
      c.values (c.func.valuesOf b) ls = .ok (body, ls') ∧ c.terminator b next = .ok term := by
  obtain ⟨⟨body, ls₁⟩, hbody, h⟩ := Outcome.bind_eq_ok.mp h
  obtain ⟨term, hterm, h⟩ := Outcome.bind_eq_ok.mp h
  cases h
  refine ⟨body, term, ?_, hbody, hterm⟩
  simp [Context.takes, Context.phisOf]

theorem marks_takes (c : Context) (b : BlockId) : marks (c.takes b) = [] := by
  unfold Context.takes
  induction c.phisOf b with
  | nil => rfl
  | cons x l ih => rw [List.flatMap_cons, marks_append, marks_copy, ih]; rfl

theorem block_marks {next : Option BlockId} (h : c.block b next ls = .ok (code, ls')) :
    ls.next ≤ ls'.next ∧ ∀ l ∈ marks code, l = blockMark b ∨ ls.next ≤ l := by
  obtain ⟨body, term, rfl, hbody, hterm⟩ := block_eq h
  obtain ⟨hle, hmarks⟩ := fresh_values c _ ls body ls' hbody
  refine ⟨hle, fun l hl => ?_⟩
  rw [marks_cons_mark, marks_append, marks_append, marks_takes, unmarked_terminator c b next term hterm,
    List.nil_append, List.append_nil] at hl
  rcases List.mem_cons.mp hl with rfl | hl
  · exact .inl rfl
  · exact .inr (hmarks l hl)

/-- Blocks in order, cut before one of them. -/
theorem blocks_split {pre post : List BlockId} {body : Code}
    (h : c.blocks (pre ++ b :: post) ls = .ok (body, ls')) :
    ∃ before code after ls₁ ls₂, body = before ++ (code ++ after) ∧
      c.block b post.head? ls₁ = .ok (code, ls₂) ∧ c.blocks post ls₂ = .ok (after, ls') ∧
      ls.next ≤ ls₁.next ∧ ∀ l ∈ marks before, (∃ p ∈ pre, l = blockMark p) ∨ ls.next ≤ l := by
  induction pre generalizing ls body with
  | nil =>
    obtain ⟨⟨code, ls₁⟩, hcode, h⟩ := Outcome.bind_eq_ok.mp h
    obtain ⟨⟨after, ls₂⟩, hafter, h⟩ := Outcome.bind_eq_ok.mp h
    cases h
    exact ⟨[], code, after, ls, ls₁, rfl, hcode, hafter, Int.le_refl _, fun l hl => by cases hl⟩
  | cons p pre ih =>
    obtain ⟨⟨first, ls₀⟩, hfirst, h⟩ := Outcome.bind_eq_ok.mp h
    obtain ⟨⟨more, ls₃⟩, hmore, h⟩ := Outcome.bind_eq_ok.mp h
    cases h
    obtain ⟨hle, hmarks⟩ := block_marks hfirst
    obtain ⟨before, code, after, ls₁, ls₂, rfl, hcode, hafter, hle', hbefore⟩ := ih hmore
    refine ⟨first ++ before, code, after, ls₁, ls₂, (List.append_assoc ..).symm, hcode, hafter,
      Int.le_trans hle hle', fun l hl => ?_⟩
    rw [marks_append] at hl
    rcases List.mem_append.mp hl with hl | hl
    · exact (hmarks l hl).imp_left fun h => ⟨p, List.mem_cons_self, h⟩
    · rcases hbefore l hl with ⟨q, hq, rfl⟩ | hl
      · exact .inl ⟨q, List.mem_cons_of_mem _ hq, rfl⟩
      · exact .inr (Int.le_trans hle hl)

/-- The code of blocks begins with the label of the first. -/
theorem blocks_head {order : List BlockId} (h : c.blocks order ls = .ok (code, ls'))
    (hs : order.head? = some s) : ∃ rest, code = .mark (blockMark s) :: rest := by
  obtain ⟨post, rfl⟩ := List.head?_eq_some_iff.mp hs
  obtain ⟨⟨first, ls₁⟩, hfirst, h⟩ := Outcome.bind_eq_ok.mp h
  obtain ⟨⟨more, ls₂⟩, -, h⟩ := Outcome.bind_eq_ok.mp h
  cases h
  obtain ⟨body, term, rfl, -, -⟩ := block_eq hfirst
  exact ⟨_, rfl⟩

/-- The code of a block in a program: it is reached by the block's label, and if the code of the next
block follows, then that is reached by that block's label as well. -/
structure Stands (c : Context) (prog : Code) (b : BlockId) (body term rest : Code)
    (next : Option BlockId) : Prop where
  at_label : behind (blockMark b) prog = some (c.takes b ++ (body ++ (term ++ rest)))
  ends : c.terminator b next = .ok term
  follows : ∀ s, next = some s → ∃ code, rest = .mark (blockMark s) :: code ∧
    behind (blockMark s) prog = some code

/-- Blocks come in the order of a depth-first walk from the entry. -/
theorem postordered {f : Func} {order : List BlockId} (hf : f.Flow)
    (h : f.reversePostOrder = .ok order) : Func.Postordered f f.start order := by
  obtain ⟨e, he, h⟩ := Outcome.bind_eq_ok.mp h
  cases h
  cases hf.entry_eq.symm.trans he
  exact Func.reversePostOrderFrom_spec fun x hx => hf.lt x (hf.reached_mem hx)

theorem function_stands (hf : c.func.Flow) (h : c.function = .ok (prog, ls))
    (hb : c.func.Reached b) : ∃ body term rest next, Stands c prog b body term rest next := by
  obtain ⟨order, horder, h⟩ := Outcome.bind_eq_ok.mp h
  obtain ⟨entry, hentry, h⟩ := Outcome.bind_eq_ok.mp h
  obtain ⟨⟨body, ls₀⟩, hbody, h⟩ := Outcome.bind_eq_ok.mp h
  cases h
  have hpost := postordered hf horder
  have hblocks : ∀ x ∈ order, blockMark x < c.func.numBlocks := fun x hx =>
    Int.ofNat_lt.mpr (hf.lt x (hf.reached_mem ((hpost.mem_iff x).mp hx)))
  obtain ⟨pre, post, rfl⟩ := List.append_of_mem ((hpost.mem_iff b).mpr hb)
  obtain ⟨before, code, after, ls₁, ls₂, rfl, hcode, hafter, hle, hbefore⟩ := blocks_split hbody
  obtain ⟨part, term, hparts, hpart, hterm⟩ := block_eq hcode
  have hnodup := hpost.nodup
  rw [List.nodup_append, List.nodup_cons] at hnodup
  obtain ⟨-, ⟨hbpost, -⟩, hdisj⟩ := hnodup
  -- no label before the block's own is that of a block from here on
  have hclear : ∀ x ∈ b :: post, blockMark x ∉ marks (entry ++ before) := by
    intro x hx hmem
    rw [marks_append, unmarked_prologue c entry hentry, List.nil_append] at hmem
    rcases hbefore _ hmem with ⟨p, hp, heq⟩ | hge
    · exact hdisj p hp x hx (Int.ofNat_inj.mp heq).symm
    · exact absurd (hblocks x (List.mem_append_right _ hx)) (Int.not_lt.mpr hge)
  refine ⟨part, term, after, post.head?, ?_, hterm, fun s hs => ?_⟩
  · have := behind_append (c.takes b ++ (part ++ (term ++ after))) (hclear b List.mem_cons_self)
    rw [← this, hparts]
    simp
  · have hsmem : s ∈ post := List.mem_of_mem_head? hs
    obtain ⟨srest, rfl⟩ := blocks_head hafter hs
    refine ⟨srest, rfl, ?_⟩
    have hsclear : blockMark s ∉ marks (entry ++ before ++ code) := by
      rw [marks_append, List.mem_append]
      rintro (hmem | hmem)
      · exact hclear s (List.mem_cons_of_mem _ hsmem) hmem
      · rcases (block_marks hcode).2 _ hmem with heq | hge
        · exact hbpost (Int.ofNat_inj.mp heq ▸ hsmem)
        · exact absurd (hblocks s (by simp [hsmem])) (Int.not_lt.mpr (Int.le_trans hle hge))
    have := behind_append srest hsclear
    rw [← this]
    simp

/-- Going on to a block, by falling through or by a jump. -/
theorem Stands.runs_to {body term rest code' : Code} {next : Option BlockId}
    (h : Stands c prog b body term rest next) (hs : behind (blockMark s) prog = some code') :
    Runs prog (straight (if next = some s then [] else [.jmp (blockMark s)]) ++ rest) m code' m := by
  split
  · next hnext =>
    obtain ⟨code, rfl, hcode⟩ := h.follows s hnext
    cases hs.symm.trans hcode
    exact .step rfl .refl
  · refine .step (c := code') ?_ .refl
    simp only [advance, jumpTo, hs]

end place

/-! ## Rooms of phis -/

section rooms

variable {f : Func} {b s : BlockId} {v w : ValueId} {n : Nat} {fr : Frame}

def slotRoom (f : Func) (v : ValueId) : Room :=
  ⟨v, .slot, slotBytes (f.value v).type, slotBytes (f.value v).type⟩

def stageRoom (f : Func) (v : ValueId) : Room :=
  ⟨v, .stage, slotBytes (f.value v).type, slotBytes (f.value v).type⟩

theorem slotRoom_mem (hb : b ∈ f.layout) (hv : v ∈ (f.block b).values)
    (ht : (f.value v).type.isVoid = false) : slotRoom f v ∈ roomsIn f := by
  refine mem_roomsIn.mpr ⟨b, hb, v, hv, ?_⟩
  rw [roomsOf, if_neg (by simp [ht])]
  exact List.mem_cons_self

theorem stageRoom_mem (hb : b ∈ f.layout) (hv : v ∈ (f.block b).values)
    (ht : (f.value v).type.isVoid = false) (hphi : (f.value v).op = .phi) :
    stageRoom f v ∈ roomsIn f := by
  refine mem_roomsIn.mpr ⟨b, hb, v, hv, ?_⟩
  rw [roomsOf, if_neg (by simp [ht]), hphi]
  exact List.mem_cons_of_mem _ List.mem_cons_self

theorem size_le_slotBytes {t : Ty} (h : t.Valid) : t.size ≤ slotBytes t := by
  cases t with
  | scalar k => cases k <;> simp [Ty.size, Ty.numLanes, Ty.elemKind, Kind.size, slotBytes, Ty.isVector]
  | vec e n => exact h.2.2

theorem size_eq_zero_of_isVoid {t : Ty} (h : t.isVoid = true) : t.size = 0 := by
  cases t with
  | scalar k =>
    obtain rfl : k = .void := by simpa [Ty.isVoid, Ty.kind] using h
    rfl
  | vec e n => simp [Ty.isVoid, Ty.kind] at h

/-- A move from room to room. -/
structure Transfer where
  target : Room
  source : Room
  bytes : Nat

def Transfer.move (fr : Frame) (x : Transfer) : Move :=
  ⟨fr.offset x.target.key, fr.offset x.source.key, x.bytes⟩

/-- Moves between rooms are made as if at once if no room is the target of two of them, or of one and
the source of another. -/
theorem transfer_run {l : List Transfer} {rooms : List Room} (hlaid : fr.Laid n rooms)
    (hrooms : ∀ x ∈ l, x.target ∈ rooms ∧ x.source ∈ rooms ∧ x.bytes ≤ x.target.bytes ∧
      x.bytes ≤ x.source.bytes)
    (hsrc : ∀ x ∈ l, ∀ y ∈ l, x.target.key ≠ y.source.key)
    (hdst : l.Pairwise fun x y => x.target.key ≠ y.target.key) (m : Machine) :
    ∃ is, (l.map (Transfer.move fr)).flatMap Move.code = straight is ∧
      ∃ m', execAll is m = .ok m' ∧ Move.Done m m' (l.map (Transfer.move fr)) := by
  refine Move.run _ ?_ ?_ ?_ m
  · intro y hy
    obtain ⟨x, hx, rfl⟩ := List.mem_map.mp hy
    obtain ⟨ht, hs, htb, hsb⟩ := hrooms x hx
    have h₁ := hlaid.inside _ ht
    have h₂ := hlaid.inside _ hs
    simp only [Move.Inside, Transfer.move]
    omega
  · intro y hy z hz
    obtain ⟨x, hx, rfl⟩ := List.mem_map.mp hy
    obtain ⟨x', hx', rfl⟩ := List.mem_map.mp hz
    have hclear := hlaid.disjoint (hrooms x hx).1 (hrooms x' hx').2.1 (hsrc x hx x' hx')
    have h₁ := (hrooms x hx).2.2.1
    have h₂ := (hrooms x' hx').2.2.2
    simp only [Move.Clear, Transfer.move]
    omega
  · rw [List.pairwise_map]
    refine hdst.imp_of_mem fun {x x'} hx hx' hne => ?_
    have hclear := hlaid.disjoint (hrooms x hx).1 (hrooms x' hx').1 hne
    have h₁ := (hrooms x hx).2.2.1
    have h₂ := (hrooms x' hx').2.2.1
    simp only [Move.Clear, Transfer.move]
    omega

/-- The phis of a block that have a slot. -/
def phiIds (f : Func) (s : BlockId) : List ValueId :=
  (f.block s).values.filter fun v => (f.value v).op == .phi && !(f.value v).type.isVoid

theorem mem_phiIds : v ∈ phiIds f s ↔ v ∈ (f.block s).values ∧ (f.value v).op = .phi ∧
    (f.value v).type.isVoid = false := by
  simp [phiIds]

/-- The value that a phi takes from the predecessor at a place. -/
def argAt (f : Func) (v : ValueId) (j : Nat) : ValueId :=
  match (f.value v).args[j]? with
  | some (.value w) => w
  | _ => 0

/-- What a block leaves for the phis of a successor. -/
def leaves (f : Func) (s : BlockId) (j : Nat) : List Transfer :=
  (phiIds f s).map fun v => ⟨stageRoom f v, slotRoom f (argAt f v j), (f.value v).type.size⟩

/-- What the phis of a block take. -/
def takings (f : Func) (s : BlockId) : List Transfer :=
  (phiIds f s).map fun v => ⟨slotRoom f v, stageRoom f v, (f.value v).type.size⟩

/-- Phis without a slot are not copied. -/
theorem flatMap_phis {c : Context} (g : ValueId → Code)
    (h : ∀ v, (c.func.value v).type.isVoid = true → g v = []) :
    (c.phisOf s).flatMap (fun x => g x.1) = (phiIds c.func s).flatMap g := by
  unfold Context.phisOf phiIds Func.valuesOf
  induction (c.func.block s).values with
  | nil => rfl
  | cons v l ih =>
    by_cases hphi : (c.func.value v).op = .phi
    · cases hvoid : (c.func.value v).type.isVoid with
      | true => simpa [hphi, hvoid, h v hvoid] using ih
      | false => simpa [hphi, hvoid] using ih
    · simpa [hphi] using ih

theorem copy_zero (dst src : Place) : copy dst src 0 = [] := rfl

theorem takes_eq (c : Context) (s : BlockId) :
    c.takes s = ((takings c.func s).map (Transfer.move c.frame)).flatMap Move.code := by
  have hvals : c.takes s = (c.phisOf s).flatMap fun x =>
      copy (c.home x.1) (c.stage x.1) (c.func.value x.1).type.size := by
    refine List.flatMap_congr fun x hx => ?_
    obtain ⟨v, hv, rfl⟩ := List.mem_map.mp (List.mem_filter.mp hx).1
    rfl
  rw [hvals, flatMap_phis (fun v => copy (c.home v) (c.stage v) (c.func.value v).type.size)]
  · rw [takings, List.map_map, List.flatMap_map]
    rfl
  · intro v hvoid
    rw [size_eq_zero_of_isVoid hvoid, copy_zero]

theorem phiMoves_eq {c : Context} {j : Nat} (hj : (c.func.block s).predIndex? b = some j)
    (hargs : ∀ v ∈ (c.func.block s).values, (c.func.value v).op = .phi →
      (c.func.value v).args[j]? = some (.value (argAt c.func v j))) :
    c.phiMoves b s = .ok (((leaves c.func s j).map (Transfer.move c.frame)).flatMap Move.code) := by
  have hparts : (c.phisOf s).mapM (fun x => do
      return copy (c.stage x.1) (c.slot (← Outcome.at? x.2.args j)) x.2.type.size) =
      (.ok ((c.phisOf s).map fun x => copy (c.stage x.1) (c.home (argAt c.func x.1 j))
        (c.func.value x.1).type.size) : Outcome (List Code)) := by
    rw [Outcome.mapM_eq_ok, List.forall₂_map_right_iff, List.forall₂_same]
    intro x hx
    obtain ⟨hmem, hphi⟩ := List.mem_filter.mp hx
    obtain ⟨v, hv, rfl⟩ := List.mem_map.mp hmem
    have harg := Outcome.at?_eq_ok.mpr (hargs v hv (by simpa using hphi))
    rw [harg]
    rfl
  have hmoves : c.phiMoves b s = (do
      let parts ← (c.phisOf s).mapM fun x => do
        return copy (c.stage x.1) (c.slot (← Outcome.at? x.2.args j)) x.2.type.size
      return parts.flatten) := by
    rw [Context.phiMoves, hj]
    rfl
  rw [hmoves, hparts]
  refine congrArg Except.ok ?_
  have hvoid := flatMap_phis (c := c) (s := s) (fun v => copy (c.stage v) (c.home (argAt c.func v j))
    (c.func.value v).type.size) fun v hvoid => by
      rw [size_eq_zero_of_isVoid hvoid, copy_zero]
  rw [← List.flatMap_def, hvoid, leaves, List.map_map, List.flatMap_map]
  rfl

end rooms

/-! ## What the verifier says of phis -/

section verified

variable {f : Func} {b s : BlockId} {v w : ValueId} {j : Nat}

/-- What the code of a function relies on: its form is in order, and what phis take and branches ask
has a slot. -/
structure Lowerable (f : Func) : Prop where
  ssa : f.Ssa
  args : ∀ s ∈ f.layout, ∀ v ∈ (f.block s).values, (f.value v).op = .phi →
    ∀ w, .value w ∈ (f.value v).args → ∃ d ∈ f.layout, w ∈ (f.block d).values
  control : ∀ b ∈ f.layout, (f.block b).kind = .branch → ∀ w, (f.block b).control = .value w →
    ∃ d ∈ f.layout, w ∈ (f.block d).values

/-- The verifier has looked at what phis take and at what branches ask. -/
theorem lowerable (h : f.Consistent) : Lowerable f := by
  obtain ⟨t, ht, hall⟩ := Func.verify_nil.mp h.verified
  obtain ⟨t', ht', hof⟩ := h.flow.domTree
  cases ht'.symm.trans ht
  have hlisted : ∀ {b w}, (f.checker t).use b (f.block b).values.length (.value w) = .ok [] →
      ∃ d ∈ f.layout, w ∈ (f.block d).values := by
    intro b w huse
    obtain ⟨w', d, hw, hd, -⟩ := (Func.use_end_nil h.flow h.ssa.listing hof).mp huse
    cases hw
    exact ⟨d, (h.listed w d).mp hd⟩
  refine ⟨h.ssa, fun s hs v hv hphi w hw => ?_, fun b hb hk w hw => ?_⟩
  · obtain ⟨i, hi⟩ := List.getElem?_of_mem hv
    have hcheck := Func.values_nil.mp (Func.block_nil.mp (hall s hs)).2.2.2 i v hi
    obtain ⟨hlen, huses⟩ := Func.phi_uses (Func.value_phi hcheck hphi).2
    obtain ⟨j, hj⟩ := List.getElem?_of_mem hw
    have hlt : j < (f.block s).preds.length := by
      rw [← hlen]
      exact (List.getElem?_eq_some_iff.mp hj).1
    have hzip : (Operand.value w, (f.block s).preds[j]) ∈ (f.value v).args.zip (f.block s).preds :=
      List.mem_of_getElem? (i := j)
        (List.getElem?_zip_eq_some.mpr ⟨hj, List.getElem?_eq_getElem hlt⟩)
    exact hlisted (huses _ hzip).1
  · have hcheck := Func.terminator_use (Func.block_nil.mp (hall b hb)).2.2.1 (.inl hk)
    exact hlisted (hw ▸ hcheck)

/-- The argument of a phi is a listed value of the phi's type. -/
theorem phi_arg (h : Lowerable f) (hs : s ∈ f.layout) (hv : v ∈ (f.block s).values)
    (hphi : (f.value v).op = .phi) (hj : (f.block s).preds[j]? = some b) :
    (f.value v).args[j]? = some (.value (argAt f v j)) ∧
      (f.value (argAt f v j)).type = (f.value v).type ∧
      ∃ d ∈ f.layout, argAt f v j ∈ (f.block d).values := by
  have hwell := h.ssa.phis s hs v hv hphi
  have hlt : j < (f.value v).args.length := by
    rw [hwell.1]
    exact (List.getElem?_eq_some_iff.mp hj).1
  have hzip : ((f.value v).args[j], b) ∈ (f.value v).args.zip (f.block s).preds :=
    List.mem_of_getElem? (i := j) (by simp [List.getElem?_zip_eq_some, hlt, hj])
  obtain ⟨htype, w, hw, -⟩ := hwell.2 _ hzip
  have hw : (f.value v).args[j] = .value w := hw
  have hat : argAt f v j = w := by simp [argAt, hlt, hw]
  have hget : (f.value v).args[j]? = some (.value w) := by rw [List.getElem?_eq_getElem hlt, hw]
  rw [hat]
  refine ⟨hget, ?_, h.args s hs v hv hphi w (List.mem_of_getElem? hget)⟩
  simpa [hw, Func.operandType] using htype

/-- It can be read at the end of the predecessor. -/
theorem phi_atEnd (h : Lowerable f) (hs : s ∈ f.layout) (hv : v ∈ (f.block s).values)
    (hphi : (f.value v).op = .phi) (hj : (f.block s).preds[j]? = some b) :
    f.AtEnd (.value (argAt f v j)) b := by
  obtain ⟨harg, -⟩ := phi_arg h hs hv hphi hj
  have hzip : (.value (argAt f v j), b) ∈ (f.value v).args.zip (f.block s).preds :=
    List.mem_of_getElem? (List.getElem?_zip_eq_some.mpr ⟨harg, hj⟩)
  exact ((h.ssa.phis s hs v hv hphi).2 _ hzip).2

/-- The condition of a branch is a listed bit. -/
theorem branch_control (h : Lowerable f) (hb : b ∈ f.layout) (hk : (f.block b).kind = .branch) :
    ∃ w, (f.block b).control = .value w ∧ (f.value w).type = .i1 ∧
      ∃ d ∈ f.layout, w ∈ (f.block d).values := by
  have hwell := h.ssa.ends b hb
  rw [Func.EndsWell, hk] at hwell
  obtain ⟨w, hw, -⟩ := hwell.2.2
  have htype : (f.value w).type = .i1 := by simpa [hw, Func.operandType] using hwell.2.1
  exact ⟨w, hw, htype, h.control b hb hk w hw⟩

/-- What a block leaves for the phis of the blocks that it may go to. -/
def leavesAll (f : Func) (edges : List (BlockId × Nat)) : List Transfer :=
  edges.flatMap fun e => leaves f e.1 e.2

theorem mem_leavesAll {edges : List (BlockId × Nat)} {x : Transfer} :
    x ∈ leavesAll f edges ↔ ∃ e ∈ edges, ∃ v ∈ phiIds f e.1,
      ⟨stageRoom f v, slotRoom f (argAt f v e.2), (f.value v).type.size⟩ = x := by
  simp only [leavesAll, leaves, List.mem_flatMap, List.mem_map]

theorem nodup_phiIds (h : f.Ssa) {blocks : List BlockId} (hb : ∀ s ∈ blocks, s ∈ f.layout)
    (hn : blocks.Nodup) : (blocks.flatMap (phiIds f)).Nodup := by
  refine List.nodup_flatMap.mpr ⟨fun s hs => (h.listing.nodup s (hb s hs)).filter _, ?_⟩
  refine List.Pairwise.imp_of_mem (fun {s t} hs ht hne => ?_) hn
  exact List.disjoint_left.mpr fun v hv hv' => hne (h.listing.unique (hb s hs) (hb t ht)
    (mem_phiIds.mp hv).1 (mem_phiIds.mp hv').1)

theorem leavesAll_run {edges : List (BlockId × Nat)} {fr : Frame} {n : Nat} (h : Lowerable f)
    (hty : f.TypesValid) (hlaid : fr.Laid n (roomsIn f))
    (hedges : ∀ e ∈ edges, e.1 ∈ f.layout ∧ (f.block e.1).preds[e.2]? = some b)
    (hn : (edges.map Prod.fst).Nodup) (m : Machine) :
    ∃ is, ((leavesAll f edges).map (Transfer.move fr)).flatMap Move.code = straight is ∧
      ∃ m', execAll is m = .ok m' ∧ Move.Done m m' ((leavesAll f edges).map (Transfer.move fr)) := by
  refine transfer_run hlaid ?_ ?_ ?_ m
  · intro x hx
    obtain ⟨e, he, v, hv, rfl⟩ := mem_leavesAll.mp hx
    obtain ⟨hs, hj⟩ := hedges e he
    obtain ⟨hv, hphi, hvoid⟩ := mem_phiIds.mp hv
    obtain ⟨-, htype, d, hd, hw⟩ := phi_arg h hs hv hphi hj
    have hsize := size_le_slotBytes (hty e.1 hs v hv)
    refine ⟨stageRoom_mem hs hv hvoid hphi, slotRoom_mem hd hw (by rw [htype]; exact hvoid), hsize, ?_⟩
    simpa [slotRoom, htype] using hsize
  · intro x hx y hy heq
    obtain ⟨_, -, _, -, rfl⟩ := mem_leavesAll.mp hx
    obtain ⟨_, -, _, -, rfl⟩ := mem_leavesAll.mp hy
    exact absurd (congrArg Prod.snd heq) (by simp [stageRoom, slotRoom, Room.key])
  · have hids : (leavesAll f edges).map (fun x => x.target.value) =
        (edges.map Prod.fst).flatMap (phiIds f) := by
      rw [leavesAll, List.map_flatMap, List.flatMap_map]
      refine List.flatMap_congr fun e _ => ?_
      rw [leaves, List.map_map]
      exact List.map_id _
    have hnodup := nodup_phiIds h.ssa (fun s hs => by
      obtain ⟨e, he, rfl⟩ := List.mem_map.mp hs
      exact (hedges e he).1) hn
    rw [← hids, List.Nodup, List.pairwise_map] at hnodup
    exact hnodup.imp fun hne heq => hne (congrArg Prod.fst heq)

theorem takings_run {fr : Frame} {n : Nat} (h : f.Ssa) (hty : f.TypesValid)
    (hlaid : fr.Laid n (roomsIn f)) (hs : s ∈ f.layout) (m : Machine) :
    ∃ is, ((takings f s).map (Transfer.move fr)).flatMap Move.code = straight is ∧
      ∃ m', execAll is m = .ok m' ∧ Move.Done m m' ((takings f s).map (Transfer.move fr)) := by
  refine transfer_run hlaid ?_ ?_ ?_ m
  · intro x hx
    obtain ⟨v, hv, rfl⟩ := List.mem_map.mp hx
    obtain ⟨hv, hphi, hvoid⟩ := mem_phiIds.mp hv
    have hsize := size_le_slotBytes (hty s hs v hv)
    exact ⟨slotRoom_mem hs hv hvoid, stageRoom_mem hs hv hvoid hphi, hsize, hsize⟩
  · intro x hx y hy heq
    obtain ⟨_, -, rfl⟩ := List.mem_map.mp hx
    obtain ⟨_, -, rfl⟩ := List.mem_map.mp hy
    exact absurd (congrArg Prod.snd heq) (by simp [stageRoom, slotRoom, Room.key])
  · rw [takings, List.pairwise_map]
    refine List.Pairwise.imp (fun hne heq => hne (congrArg Prod.fst heq))
      ((h.listing.nodup s hs).filter _)

end verified

/-! ## The end of a block -/

section ends

variable {c : Context} {prog : Code} {b s : BlockId} {i j : Nat}

/-- The answer to the condition of a block, read off its slot. -/
def Context.answer (c : Context) (m : Machine) (b : BlockId) : Bool :=
  m.mem.readWord (addressOf m (c.slot (c.func.block b).control)) 1 != 0

/-- Where a block leaves values: its successors, each once, with the first place that it has among
their predecessors. -/
def edgesOf (f : Func) (b : BlockId) : List (BlockId × Nat) :=
  (f.block b).succs.dedup.filterMap fun s => ((f.block s).predIndex? b).map fun j => (s, j)

theorem mem_edgesOf {f : Func} :
    (s, j) ∈ edgesOf f b ↔ s ∈ (f.block b).succs ∧ (f.block s).predIndex? b = some j := by
  simp [edgesOf]

theorem preds_of_predIndex {f : Func} (h : (f.block s).predIndex? b = some j) :
    (f.block s).preds[j]? = some b := by
  obtain ⟨hlt, hj, -⟩ := List.findIdx?_eq_some_iff_getElem.mp h
  rw [List.getElem?_eq_getElem hlt]
  simpa using hj

/-- A successor has the block among its predecessors. -/
theorem exists_predIndex {f : Func} (hf : f.Flow) (hb : b ∈ f.layout)
    (hs : s ∈ (f.block b).succs) : ∃ j, (f.block s).predIndex? b = some j := by
  have hmem := (hf.mem_preds_iff hb (hf.succs_mem b hb s hs)).mpr hs
  have hsome : ((f.block s).preds.findIdx? (· == b)).isSome = true := by
    simp only [List.findIdx?_isSome, List.any_eq_true, beq_iff_eq]
    exact ⟨b, hmem, rfl⟩
  exact Option.isSome_iff_exists.mp hsome

theorem nodup_edgesOf {f : Func} : ((edgesOf f b).map Prod.fst).Nodup := by
  rw [edgesOf, List.map_filterMap]
  refine (List.nodup_dedup _).filterMap fun s s' x hx hx' => ?_
  simp only [Option.map_map, Option.mem_def, Option.map_eq_some_iff, Function.comp_apply] at hx hx'
  obtain ⟨_, -, rfl⟩ := hx
  obtain ⟨_, -, rfl⟩ := hx'
  rfl

/-- The machine after the end of a block, but for the phis that its successor takes. -/
structure Left (f : Func) (fr : Frame) (b : BlockId) (m m' : Machine) : Prop where
  rbp : m'.reg .rbp = m.reg .rbp
  staged : ∀ e ∈ edgesOf f b, ∀ x ∈ leaves f e.1 e.2,
    m'.mem.read (addressOf m (inFrame (fr.offset x.target.key))) x.bytes =
      m.mem.read (addressOf m (inFrame (fr.offset x.source.key))) x.bytes
  others : ∀ a, (∀ e ∈ edgesOf f b, ∀ x ∈ leaves f e.1 e.2,
    ¬ Memory.Within (addressOf m (inFrame (fr.offset x.target.key))) x.bytes a) →
      m'.mem.get a = m.mem.get a

theorem Left.of_done {f : Func} {fr : Frame} {m₁ : Machine}
    (h : Move.Done m m₁ ((leavesAll f (edgesOf f b)).map (Transfer.move fr)))
    (hmem : m'.mem = m₁.mem) (hrbp : m'.reg .rbp = m₁.reg .rbp) : Left f fr b m m' := by
  have hmoves : ∀ e ∈ edgesOf f b, ∀ x ∈ leaves f e.1 e.2,
      x.move fr ∈ (leavesAll f (edgesOf f b)).map (Transfer.move fr) :=
    fun e he x hx => List.mem_map_of_mem (List.mem_flatMap.mpr ⟨e, he, hx⟩)
  refine ⟨hrbp.trans (h.regs .rbp (by decide)), fun e he x hx => ?_, fun a ha => ?_⟩
  · have htaken := h.taken _ (hmoves e he x hx)
    simp only [Transfer.move] at htaken
    rw [hmem, htaken]
  · rw [hmem]
    refine h.others a fun y hy => ?_
    obtain ⟨x, hx, rfl⟩ := List.mem_map.mp hy
    obtain ⟨e, he, hx⟩ := List.mem_flatMap.mp hx
    exact ha e he x hx

/-- Rooms that are not for staging keep what they hold. -/
theorem Left.kept {f : Func} {fr : Frame} {n k : Nat} {r : Room} (h : Left f fr b m m')
    (hf : f.Ssa) (hty : f.TypesValid) (hlaid : fr.Laid n (roomsIn f)) (hb : b ∈ f.layout)
    (hr : r ∈ roomsIn f) (huse : r.use ≠ .stage) (hk : k ≤ r.bytes) :
    m'.mem.read (addressOf m (inFrame (fr.offset r.key))) k =
      m.mem.read (addressOf m (inFrame (fr.offset r.key))) k := by
  have hin := hlaid.inside r hr
  have hlow := (fr.offset r.key).le_toInt
  have hsize : k ≤ UInt64.size := Nat.le_trans (show k ≤ 2147483648 by omega) (by decide)
  refine Memory.read_congr fun i hi => h.others _ fun e he x hx hwithin => ?_
  have hmem := hf.flow.succs_mem b hb _ (mem_edgesOf.mp he).1
  obtain ⟨v, hv, rfl⟩ := List.mem_map.mp hx
  obtain ⟨hv, hphi, hvoid⟩ := mem_phiIds.mp hv
  have hroom := stageRoom_mem hmem hv hvoid hphi
  have hbytes := size_le_slotBytes (hty _ hmem v hv)
  have hstage := hlaid.inside _ hroom
  have hclear := hlaid.disjoint hroom hr fun heq => huse (congrArg Prod.snd heq).symm
  dsimp only [stageRoom] at hstage hclear hbytes
  exact apart_inFrame m (by dsimp only [stageRoom]; omega) (by omega)
    (by dsimp only [stageRoom]; omega) _ hwithin (Memory.within_add hi hsize)

theorem edgesOf_jump (hf : c.func.Flow) (hb : b ∈ c.func.layout)
    (hs : (c.func.block b).succs = [s]) :
    ∃ j, edgesOf c.func b = [(s, j)] ∧ (c.func.block s).predIndex? b = some j := by
  obtain ⟨j, hj⟩ := exists_predIndex (s := s) hf hb (by simp [hs])
  exact ⟨j, by simp [edgesOf, hs, hj], hj⟩

theorem edgesOf_branch {yes no : BlockId} (hf : c.func.Flow) (hb : b ∈ c.func.layout)
    (hs : (c.func.block b).succs = [yes, no]) :
    ∃ j k, edgesOf c.func b = (yes, j) :: (if no = yes then [] else [(no, k)]) ∧
      (c.func.block yes).predIndex? b = some j ∧ (c.func.block no).predIndex? b = some k := by
  obtain ⟨j, hj⟩ := exists_predIndex (s := yes) hf hb (by simp [hs])
  obtain ⟨k, hk⟩ := exists_predIndex (s := no) hf hb (by simp [hs])
  refine ⟨j, k, ?_, hj, hk⟩
  rw [edgesOf, hs]
  split
  · next heq =>
    subst heq
    simp [hj]
  · next hne => simp [List.dedup_cons_of_notMem, Ne.symm hne, hj, hk]

/-- The code that leaves values for successors. -/
def leavesCode (c : Context) (b : BlockId) : Code :=
  ((leavesAll c.func (edgesOf c.func b)).map (Transfer.move c.frame)).flatMap Move.code

theorem phiMoves_first (h : Lowerable c.func) (hb : b ∈ c.func.layout)
    (hs : s ∈ (c.func.block b).succs) (hj : (c.func.block s).predIndex? b = some j) :
    c.phiMoves b s = .ok (((leaves c.func s j).map (Transfer.move c.frame)).flatMap Move.code) :=
  phiMoves_eq hj fun _ hv hphi =>
    (phi_arg h (h.ssa.flow.succs_mem b hb s hs) hv hphi (preds_of_predIndex hj)).1

theorem jump_code {next : Option BlockId} {term : Code} (h : Lowerable c.func)
    (hb : b ∈ c.func.layout) (hk : (c.func.block b).kind = .jump)
    (hs : (c.func.block b).succs = [s]) (hterm : c.terminator b next = .ok term) :
    term = leavesCode c b ++ straight (if next = some s then [] else [.jmp (blockMark s)]) := by
  obtain ⟨j, hedges, hj⟩ := edgesOf_jump h.ssa.flow hb hs
  have hmoves := phiMoves_first h hb (by simp [hs]) hj
  simp only [Context.terminator, hk, hs, Outcome.at?, List.getElem?_cons_zero, Outcome.ok_bind,
    hmoves] at hterm
  cases hterm
  rw [leavesCode, hedges, leavesAll, List.flatMap_singleton]

theorem branch_code {next : Option BlockId} {term : Code} {yes no : BlockId} (h : Lowerable c.func)
    (hb : b ∈ c.func.layout) (hk : (c.func.block b).kind = .branch)
    (hs : (c.func.block b).succs = [yes, no])
    (hterm : c.terminator b next = .ok term) : term = leavesCode c b ++
      straight ([.load .rax (c.slot (c.func.block b).control) .u8, .alu .test .rax .rax] ++
        if next = some no then [.jcc .ne (blockMark yes)]
        else if next = some yes then [.jcc .e (blockMark no)]
        else [.jcc .ne (blockMark yes), .jmp (blockMark no)]) := by
  obtain ⟨j, k, hedges, hj, hk'⟩ := edgesOf_branch h.ssa.flow hb hs
  have hmoves := phiMoves_first h hb (by simp [hs]) hj
  have hmoves' := phiMoves_first h hb (by simp [hs]) hk'
  have hload : loadInt .rax (c.slot (c.func.block b).control) .i1 false =
      .ok (straight [.load .rax (c.slot (c.func.block b).control) .u8]) := rfl
  simp only [Context.terminator, hk, hs, Outcome.at?, List.getElem?_cons_zero,
    List.getElem?_cons_succ, Outcome.ok_bind, hmoves, hmoves', hload] at hterm
  rw [leavesCode, hedges, leavesAll]
  by_cases hne : no = yes
  · simp only [hne, if_true, Outcome.pure_eq_ok, Outcome.ok_bind] at hterm ⊢
    cases hterm
    simp only [List.flatMap_cons, List.flatMap_nil, List.append_nil, List.append_assoc]
    rfl
  · simp only [hne, if_false] at hterm ⊢
    cases hterm
    simp only [List.flatMap_cons, List.flatMap_nil, List.append_nil, List.map_append,
      List.flatMap_append, List.append_assoc]
    rfl

theorem Stands.runs_branch {body term rest : Code} {next : Option BlockId} {yes no : BlockId}
    (h : Stands c prog b body term rest next) {code : BlockId → Code}
    (hyes : behind (blockMark yes) prog = some (code yes))
    (hno : behind (blockMark no) prog = some (code no)) :
    Runs prog (straight (if next = some no then [.jcc .ne (blockMark yes)]
      else if next = some yes then [.jcc .e (blockMark no)]
      else [.jcc .ne (blockMark yes), .jmp (blockMark no)]) ++ rest) m
        (code (if m.flags.zero then no else yes)) m := by
  have hfall : ∀ s, next = some s → behind (blockMark s) prog = some (code s) →
      Runs prog rest m (code s) m := by
    intro s hnext hs
    obtain ⟨after, rfl, hafter⟩ := h.follows s hnext
    cases hs.symm.trans hafter
    exact .step rfl .refl
  cases hz : m.flags.zero with
  | true =>
    have hstay : ∀ rest, advance prog (.instr (.jcc .ne (blockMark yes))) rest m = .ok (rest, m) := by
      simp [advance, Cond.holds, hz]
    split
    · next hnext => exact .step (hstay _) (hfall no hnext hno)
    · split
      · refine .step (c := code no) ?_ .refl
        simp [advance, jumpTo, Cond.holds, hz, hno]
      · refine .step (hstay _) (.step (c := code no) ?_ .refl)
        simp [advance, jumpTo, hno]
  | false =>
    have hjump : ∀ rest, advance prog (.instr (.jcc .ne (blockMark yes))) rest m =
        .ok (code yes, m) := by
      simp [advance, jumpTo, Cond.holds, hz, hyes]
    split
    · exact .step (hjump _) .refl
    · split
      · next hnext =>
        refine .step (c := rest) ?_ (hfall yes hnext hyes)
        simp [advance, Cond.holds, hz]
      · exact .step (hjump _) .refl

/-- Reading a byte and testing it. -/
theorem test_spec (d : Int32) (m : Machine) :
    ∃ m', execAll [.load .rax (inFrame d) .u8, .alu .test .rax .rax] m = .ok m' ∧
      m'.flags.zero = (m.mem.readWord (addressOf m (inFrame d)) 1 == 0) ∧ m'.mem = m.mem ∧
      ∀ r, r ≠ .rax → m'.reg r = m.reg r := by
  let w := m.mem.readWord (addressOf m (inFrame d)) 1
  refine ⟨{ m.setReg .rax w with flags := .ofLogic (w &&& w) }, ?_, ?_, rfl,
    fun r hr => m.reg_setReg_ne w hr.symm⟩
  · have hstep : execAll [.load .rax (inFrame d) .u8] m = .ok (m.setReg .rax w) := rfl
    refine (execAll_append hstep).trans ?_
    have htest : execAll [.alu .test .rax .rax] (m.setReg .rax w) = .ok { m.setReg .rax w with
      flags := .ofLogic ((m.setReg .rax w).reg .rax &&& (m.setReg .rax w).reg .rax) } := rfl
    rw [htest, Machine.reg_setReg_self]
  · change (w &&& w == 0) = (w == 0)
    rw [UInt64.and_self]

section stands

variable {n : Nat} {body term rest : Code} {next : Option BlockId}
variable (h : Lowerable c.func) (hty : c.func.TypesValid) (hlaid : c.frame.Laid n (roomsIn c.func))
  (hb : b ∈ c.func.layout)
include h hty hlaid hb

/-- The values for the successors are left first. -/
theorem leavesCode_run (m : Machine) : ∃ is, leavesCode c b = straight is ∧
    ∃ m₁, execAll is m = .ok m₁ ∧ Move.Done m m₁
      ((leavesAll c.func (edgesOf c.func b)).map (Transfer.move c.frame)) :=
  leavesAll_run h hty hlaid (fun _ he =>
    ⟨h.ssa.flow.succs_mem b hb _ (mem_edgesOf.mp he).1, preds_of_predIndex (mem_edgesOf.mp he).2⟩)
    nodup_edgesOf m

/-- Leaving them keeps the answer to the condition: its slot is none of the staging slots. -/
theorem Left.answer (hleft : Left c.func c.frame b m m') (hk : (c.func.block b).kind = .branch) :
    c.answer m' b = c.answer m b := by
  obtain ⟨w, hw, htype, d, hd, hmem⟩ := branch_control h hb hk
  have hroom := slotRoom_mem hd hmem (by rw [htype]; rfl)
  have hread := hleft.kept h.ssa hty hlaid hb hroom (by simp [slotRoom])
    (show 1 ≤ slotBytes (c.func.value w).type by rw [htype]; decide)
  have hbyte : m'.mem.readWord (addressOf m' (c.slot (c.func.block b).control)) 1 =
      m.mem.readWord (addressOf m (c.slot (c.func.block b).control)) 1 := by
    rw [hw]
    exact congrArg ofLeBytes ((congrArg (m'.mem.read · 1) (addressOf_congr hleft.rbp _)).trans hread)
  rw [Context.answer, Context.answer, hbyte]

theorem runs_jump_end (hst : Stands c prog b body term rest next) (hk : (c.func.block b).kind = .jump)
    (hs : (c.func.block b).succs = [s]) {code : Code} (hcode : behind (blockMark s) prog = some code) :
    ∃ m', Runs prog (term ++ rest) m code m' ∧ Left c.func c.frame b m m' := by
  obtain ⟨is, hcodes, m₁, hrun, hdone⟩ := leavesCode_run h hty hlaid hb m
  rw [jump_code h hb hk hs hst.ends, hcodes, List.append_assoc]
  exact ⟨m₁, (runs_straight hrun).trans (hst.runs_to hcode), .of_done hdone rfl rfl⟩

theorem runs_branch_end (hst : Stands c prog b body term rest next) (hk : (c.func.block b).kind = .branch)
    {yes no : BlockId} (hs : (c.func.block b).succs = [yes, no]) {code : BlockId → Code}
    (hyes : behind (blockMark yes) prog = some (code yes))
    (hno : behind (blockMark no) prog = some (code no)) :
    ∃ m', Runs prog (term ++ rest) m (code (if c.answer m b then yes else no)) m' ∧
      Left c.func c.frame b m m' := by
  obtain ⟨is, hcodes, m₁, hrun, hdone⟩ := leavesCode_run h hty hlaid hb m
  obtain ⟨w, hw, -⟩ := branch_control h hb hk
  have hslot : c.slot (c.func.block b).control = inFrame (c.frame.slots.getD w 0) := by
    rw [hw]
    rfl
  obtain ⟨m₂, hrun₂, hzero, hmem₂, hregs₂⟩ := test_spec (c.frame.slots.getD w 0) m₁
  rw [← hslot] at hrun₂ hzero
  have hanswer : m₂.flags.zero = !c.answer m b := by
    rw [hzero, ← (Left.of_done hdone rfl rfl).answer h hty hlaid hb hk, Context.answer, bne, Bool.not_not]
  have htarget : (if m₂.flags.zero then no else yes) = if c.answer m b then yes else no := by
    rw [hanswer]
    cases c.answer m b <;> rfl
  rw [branch_code h hb hk hs hst.ends, hcodes, straight_append, List.append_assoc, List.append_assoc]
  refine ⟨m₂, (runs_straight hrun).trans ((runs_straight hrun₂).trans ?_),
    .of_done hdone hmem₂ (hregs₂ .rbp (by decide))⟩
  exact htarget ▸ hst.runs_branch hyes hno

theorem runs_end (hst : Stands c prog b body term rest next) {code : BlockId → Code}
    (hcode : ∀ s ∈ (c.func.block b).succs, behind (blockMark s) prog = some (code s))
    (hedge : (c.func.block b).edge? (c.answer m b) = some i)
    (hs : (c.func.block b).succs[i]? = some s) :
    ∃ m', Runs prog (term ++ rest) m (code s) m' ∧ Left c.func c.frame b m m' := by
  have hwell := h.ssa.ends b hb
  cases hk : (c.func.block b).kind with
  | jump =>
    rw [Func.EndsWell, hk] at hwell
    obtain ⟨s', hs'⟩ := List.length_eq_one_iff.mp hwell
    obtain rfl : s' = s := by
      simp only [Block.edge?, hk, Option.some.injEq] at hedge
      subst hedge
      simpa [hs'] using hs
    exact runs_jump_end h hty hlaid hb hst hk hs' (hcode s' (by simp [hs']))
  | branch =>
    rw [Func.EndsWell, hk] at hwell
    obtain ⟨yes, no, hs'⟩ := List.length_eq_two.mp hwell.1
    obtain rfl : (if c.answer m b then yes else no) = s := by
      simp only [Block.edge?, hk, Option.some.injEq] at hedge
      rw [← hedge, hs'] at hs
      cases hbit : c.answer m b with
      | true => simpa [hbit] using hs
      | false => simpa [hbit] using hs
    exact runs_branch_end h hty hlaid hb hst hk hs' (hcode yes (by simp [hs'])) (hcode no (by simp [hs']))
  | pending | ret | unreachable | other => simp [Block.edge?, hk] at hedge

end stands

end ends

/-! ## From the end of a block into the next -/

section edge

variable {f : Func} {fr : Frame} {b s : BlockId} {n i j : Nat}

/-- The phis of a block take what was left for them. -/
theorem Left.take_phi {v : ValueId} (h : Left f fr b m m') (he : (s, j) ∈ edgesOf f b)
    (htake : Move.Done m' m'' ((takings f s).map (Transfer.move fr))) (hv : v ∈ phiIds f s) :
    m''.mem.read (addressOf m (inFrame (fr.offset (v, .slot)))) (f.value v).type.size =
      m.mem.read (addressOf m (inFrame (fr.offset (argAt f v j, .slot)))) (f.value v).type.size := by
  have htaken := htake.taken _ (List.mem_map_of_mem (List.mem_map_of_mem hv))
  have hstaged := h.staged _ he _ (List.mem_map_of_mem hv)
  simp only [Transfer.move, slotRoom, stageRoom, Room.key, addressOf_congr h.rbp] at htaken hstaged
  exact htaken.trans hstaged

/-- Taking phis changes no room but theirs. -/
theorem take_kept {r : Room} {k : Nat} (hty : f.TypesValid)
    (hlaid : fr.Laid n (roomsIn f)) (hs : s ∈ f.layout)
    (htake : Move.Done m m' ((takings f s).map (Transfer.move fr))) (hr : r ∈ roomsIn f)
    (hne : ∀ v ∈ phiIds f s, r.key ≠ (v, .slot)) (hk : k ≤ r.bytes) :
    m'.mem.read (addressOf m (inFrame (fr.offset r.key))) k =
      m.mem.read (addressOf m (inFrame (fr.offset r.key))) k := by
  have hin := hlaid.inside r hr
  have hlow := (fr.offset r.key).le_toInt
  have hsize : k ≤ UInt64.size := Nat.le_trans (show k ≤ 2147483648 by omega) (by decide)
  refine Memory.read_congr fun i hi => htake.others _ fun y hy hwithin => ?_
  obtain ⟨x, hx, rfl⟩ := List.mem_map.mp hy
  obtain ⟨v, hv, rfl⟩ := List.mem_map.mp hx
  obtain ⟨hvs, hphi, hvoid⟩ := mem_phiIds.mp hv
  have hroom := slotRoom_mem hs hvs hvoid
  have hbytes := size_le_slotBytes (hty s hs v hvs)
  have hslot := hlaid.inside _ hroom
  have hclear := hlaid.disjoint hroom hr fun heq => hne v hv heq.symm
  dsimp only [slotRoom] at hslot hclear hbytes
  exact apart_inFrame m (by dsimp only [Transfer.move, slotRoom]; omega) (by omega)
    (by dsimp only [Transfer.move, slotRoom]; omega) _ hwithin (Memory.within_add hi hsize)

end edge

/-- The machine when control has gone from one block into another and that one has taken its phis:
each phi has what its argument had, and every other value has what it had. -/
structure Entered (c : Context) (s : BlockId) (j : Nat) (m m' : Machine) : Prop where
  rbp : m'.reg .rbp = m.reg .rbp
  phis : ∀ v ∈ (c.func.block s).values, (c.func.value v).op = .phi → ∃ w,
    (c.func.value v).args[j]? = some (.value w) ∧
      m'.mem.read (addressOf m' (c.home v)) (c.func.value v).type.size =
        m.mem.read (addressOf m (c.home w)) (c.func.value v).type.size
  others : ∀ d ∈ c.func.layout, ∀ w ∈ (c.func.block d).values,
    ¬ (d = s ∧ (c.func.value w).op = .phi) → (c.func.value w).type.isVoid = false →
      m'.mem.read (addressOf m' (c.home w)) (slotBytes (c.func.value w).type) =
        m.mem.read (addressOf m (c.home w)) (slotBytes (c.func.value w).type)

section edge

variable {c : Context} {prog : Code} {ls : Labels} {b s : BlockId} {n i j : Nat}

/-- A block that goes on has a successor at the place that its condition selects. -/
theorem succ_of_edge {f : Func} {yes : Bool} (h : f.EndsWell b)
    (hedge : (f.block b).edge? yes = some i) : ∃ s, (f.block b).succs[i]? = some s := by
  unfold Block.edge? at hedge
  split at hedge
  · next hk =>
    rw [Func.EndsWell, hk] at h
    obtain rfl : 0 = i := by simpa using hedge
    exact ⟨_, List.getElem?_eq_getElem (Nat.lt_of_lt_of_eq Nat.zero_lt_one h.symm)⟩
  · next hk =>
    rw [Func.EndsWell, hk] at h
    have hlt : i < (f.block b).succs.length := by
      rw [h.1, ← Option.some.inj hedge]
      split <;> decide
    exact ⟨_, List.getElem?_eq_getElem hlt⟩
  · cases hedge

theorem Left.enter (h : Left c.func c.frame b m m') (hc : Lowerable c.func)
    (hty : c.func.TypesValid) (hlaid : c.frame.Laid n (roomsIn c.func)) (hb : b ∈ c.func.layout)
    (he : (s, j) ∈ edgesOf c.func b) :
    ∃ is m'', c.takes s = straight is ∧ execAll is m' = .ok m'' ∧ Entered c s j m m'' := by
  have hj := preds_of_predIndex (mem_edgesOf.mp he).2
  have hsl := hc.ssa.flow.succs_mem b hb s (mem_edgesOf.mp he).1
  have hf := hc.ssa
  obtain ⟨is, htakes, m₂, hrun, htake⟩ := takings_run hf hty hlaid hsl m'
  rw [← takes_eq c s] at htakes
  have hrbp : m₂.reg .rbp = m.reg .rbp := (htake.regs .rbp (by decide)).trans h.rbp
  have hhome : ∀ v, addressOf m₂ (c.home v) = addressOf m (c.home v) :=
    fun v => addressOf_congr hrbp _
  refine ⟨is, m₂, htakes, hrun, hrbp, fun v hv hphi => ?_, fun d hd w hw hother hvoid => ?_⟩
  · refine ⟨argAt c.func v j, (phi_arg hc hsl hv hphi hj).1, ?_⟩
    rw [hhome]
    cases hvoid : (c.func.value v).type.isVoid with
    | true =>
      rw [size_eq_zero_of_isVoid hvoid]
      simp only [Memory.read, List.range_zero, List.map_nil]
    | false => exact h.take_phi he htake (mem_phiIds.mpr ⟨hv, hphi, hvoid⟩)
  · rw [hhome]
    have hroom := slotRoom_mem hd hw hvoid
    have hkept := h.kept hf hty hlaid hb hroom (by simp [slotRoom]) (Nat.le_refl _)
    have hkept' := take_kept hty hlaid hsl htake hroom (fun v hv heq => by
      obtain ⟨hvs, hphi, -⟩ := mem_phiIds.mp hv
      obtain rfl : w = v := congrArg Prod.fst heq
      exact hother ⟨hf.listing.unique hd hsl hw hvs, hphi⟩) (Nat.le_refl _)
    rw [addressOf_congr h.rbp] at hkept'
    exact hkept'.trans hkept

/-- What the emitted code does from the end of a block on, for any frame with the rooms apart: the phis
of the block that it goes to take their arguments for the first place that the block has there. -/
theorem runs_first {body term rest : Code} {next : Option BlockId} (h : Lowerable c.func)
    (hty : c.func.TypesValid) (hlaid : c.frame.Laid n (roomsIn c.func))
    (hgen : c.function = .ok (prog, ls)) (hb : c.func.Reached b)
    (hst : Stands c prog b body term rest next)
    (hedge : (c.func.block b).edge? (c.answer m b) = some i) :
    ∃ s j, (c.func.block b).succs[i]? = some s ∧ (c.func.block s).predIndex? b = some j ∧
      ∃ after m', behind (blockMark s) prog = some (c.takes s ++ after) ∧
        Runs prog (term ++ rest) m after m' ∧ Entered c s j m m' := by
  have hbl := h.ssa.flow.reached_mem hb
  obtain ⟨s, hs⟩ := succ_of_edge (h.ssa.ends b hbl) hedge
  obtain ⟨j, hj⟩ := exists_predIndex h.ssa.flow hbl (List.mem_of_getElem? hs)
  have hstands : ∀ x ∈ (c.func.block b).succs, ∃ after,
      behind (blockMark x) prog = some (c.takes x ++ after) := fun x hx => by
    obtain ⟨_, _, _, _, hx⟩ := function_stands h.ssa.flow hgen (hb.step hx)
    exact ⟨_, hx.at_label⟩
  have hcode : ∀ x ∈ (c.func.block b).succs,
      behind (blockMark x) prog = some ((behind (blockMark x) prog).getD []) := fun x hx => by
    obtain ⟨_, hx⟩ := hstands x hx
    rw [hx, Option.getD_some]
  obtain ⟨m₁, hrun₁, hleft⟩ := runs_end h hty hlaid hbl hst hcode hedge hs
  obtain ⟨after, hafter⟩ := hstands s (List.mem_of_getElem? hs)
  obtain ⟨is, m₂, htakes, hrun₂, hentered⟩ := hleft.enter h hty hlaid hbl
    (mem_edgesOf.mpr ⟨List.mem_of_getElem? hs, hj⟩)
  refine ⟨s, j, hs, hj, after, m₂, hafter, ?_, hentered⟩
  rw [hafter, Option.getD_some, htakes] at hrun₁
  exact hrun₁.trans (runs_straight hrun₂)

/-- With all successors different, the first place stands for the edge that control takes. -/
theorem runs_across {body term rest : Code} {next : Option BlockId} (h : c.func.Consistent)
    (hty : c.func.TypesValid) (hlaid : c.frame.Laid n (roomsIn c.func))
    (hgen : c.function = .ok (prog, ls)) (hb : c.func.Reached b)
    (hdist : (c.func.block b).succs.Nodup) (hst : Stands c prog b body term rest next)
    (hedge : (c.func.block b).edge? (c.answer m b) = some i) :
    ∃ s j, c.func.follow b i = some (s, j) ∧ ∃ after m',
      behind (blockMark s) prog = some (c.takes s ++ after) ∧
      Runs prog (term ++ rest) m after m' ∧ Entered c s j m m' := by
  obtain ⟨s, j, hs, hj, hrun⟩ := runs_first (lowerable h) hty hlaid hgen hb hst hedge
  obtain ⟨k, hfollow⟩ := h.flow.follow (h.flow.reached_mem hb) hs
  obtain rfl := Option.some.inj (hj.symm.trans (Func.predIndex_of_follow hdist hfollow))
  exact ⟨s, j, hfollow, hrun⟩

end edge

/-- From the end of a block control goes to the successor that its condition selects, and when that
block has taken its phis, each of them has what its argument had before, all of them at once, and
every other value has what it had. -/
theorem phis_change_together {f : Func} {cpu : Features} {prog : Code} {ls : Labels} {b : BlockId}
    (h : f.Consistent) (hty : f.TypesValid) (hneed : frameNeed f < 2147483648)
    (hgen : Context.function ⟨f, .ofFunc f, cpu⟩ = .ok (prog, ls)) (hb : f.Reached b)
    (hdist : (f.block b).succs.Nodup) : ∃ body term rest next,
      Stands ⟨f, .ofFunc f, cpu⟩ prog b body term rest next ∧ ∀ m i,
        (f.block b).edge? (Context.answer ⟨f, .ofFunc f, cpu⟩ m b) = some i →
        ∃ s j, f.follow b i = some (s, j) ∧ ∃ after m',
          behind (blockMark s) prog = some (Context.takes ⟨f, .ofFunc f, cpu⟩ s ++ after) ∧
          Runs prog (term ++ rest) m after m' ∧ Entered ⟨f, .ofFunc f, cpu⟩ s j m m' := by
  have hlaid := laid_ofFunc h.ssa hneed
  obtain ⟨body, term, rest, next, hst⟩ := function_stands h.flow hgen hb
  exact ⟨body, term, rest, next, hst, fun m i hedge =>
    runs_across h hty hlaid hgen hb hdist hst hedge⟩

/-- Two phis that change places on every turn of a loop. -/
def swapping : Func where
  name := "swap"
  ret := .i64
  params := [.i1, .i64, .i64]
  values := #[
    { op := .param, type := .i1, block := some 0 },
    { op := .param, type := .i64, block := some 0, aux := 1 },
    { op := .param, type := .i64, block := some 0, aux := 2 },
    { op := .phi, type := .i64, block := some 1, args := [.value 1, .value 4] },
    { op := .phi, type := .i64, block := some 1, args := [.value 2, .value 3] }]
  blocks := #[
    { values := [0, 1, 2], kind := .jump, succs := [1] },
    { values := [3, 4], kind := .branch, control := .value 0, succs := [1, 2], preds := [0, 1] },
    { kind := .ret, control := .value 3, preds := [1] }]
  layout := [0, 1, 2]
  paramValues := [0, 1, 2]

set_option maxRecDepth 10000 in
/-- The block of the loop reads both phis before it writes either. -/
theorem phis_change_together_swapping : ∃ prog ls,
    Context.function ⟨swapping, .ofFunc swapping, {}⟩ = .ok (prog, ls) ∧ ∃ body term rest next,
      Stands ⟨swapping, .ofFunc swapping, {}⟩ prog 1 body term rest next ∧ ∀ m i,
        (swapping.block 1).edge? (Context.answer ⟨swapping, .ofFunc swapping, {}⟩ m 1) = some i →
        ∃ s j, swapping.follow 1 i = some (s, j) ∧ ∃ after m',
          behind (blockMark s) prog =
            some (Context.takes ⟨swapping, .ofFunc swapping, {}⟩ s ++ after) ∧
          Runs prog (term ++ rest) m after m' ∧
          Entered ⟨swapping, .ofFunc swapping, {}⟩ s j m m' :=
  ⟨_, _, rfl, phis_change_together (by decide +kernel) (by decide +kernel) (by decide +kernel) rfl
    ((Reach.refl _ _).step (by decide +kernel)) (by decide +kernel)⟩

end SsaJit.Lower
