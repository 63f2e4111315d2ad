import SsaJit.Proofs.Bytes
import SsaJit.Proofs.Exec.Edit
import SsaJit.Proofs.Exec.Lanes

/-! The meaning in which every `alloca` is a region of its own, zeroed when it is made, to which nothing
leads but addresses made from its own. Loads and stores that lie in a region move the bytes of their
type. All else, arithmetic and calls and memory that is no region, is left to an outside that is a
parameter. It sees and changes a region only if it has been handed an address of it before, is handed one
now, or finds one in a region that it sees.

What an instruction does is the same whatever lies in a region to which none of its operands and nothing
in the rest of the memory leads, and leads nowhere into that region afterwards. -/

namespace SsaJit

/-- A lane while a function runs: bits, or the address of a place in a region. -/
inductive Lane
  | bits (w : UInt64)
  | address (region : ValueId) (offset : UInt64)
  deriving DecidableEq

/-- A byte of a region: bits, or one of the bytes of an address. -/
inductive Cell
  | byte (b : UInt8)
  | part (region : ValueId) (offset : UInt64) (i : Nat)
  deriving DecidableEq

def Cell.byte? : Cell → Option UInt8
  | byte b => some b
  | part .. => none

/-- The region that the cell is part of an address of. -/
def Cell.region? : Cell → Option ValueId
  | byte _ => none
  | part r _ _ => some r

namespace Lane

variable {k : Kind} {x : Lane} {cs : List Cell} {r : ValueId}

/-- The region that the lane is an address in. -/
def region? : Lane → Option ValueId
  | bits _ => none
  | address r _ => some r

/-- Is the lane, taken for a bit, set? No address is zero. -/
def isSet : Lane → Bool
  | bits w => w != 0
  | address .. => true

/-- How the lane lies in memory. -/
def cells (k : Kind) : Lane → List Cell
  | bits w => (leBytes k.size w).map .byte
  | address r o => (List.range k.size).map (.part r o)

/-- The lane that lies in the cells: all of them bits, or all bytes of one address in their order. -/
def ofCells? (k : Kind) : List Cell → Option Lane
  | .part r o i :: cs => if .part r o i :: cs = (address r o).cells k then some (address r o) else none
  | cs => (cs.mapM Cell.byte?).map fun bs => bits (k.canon (ofLeBytes bs))

/-- The kind has room for the lane. -/
def Fits (k : Kind) : Lane → Prop
  | bits w => k.cut w = w
  | address .. => k.size ≠ 0

@[simp] theorem length_cells : (x.cells k).length = k.size := by
  cases x <;> simp [cells]

theorem mapM_byte? (bs : List UInt8) : (bs.map Cell.byte).mapM Cell.byte? = some bs := by
  induction bs with
  | nil => rfl
  | cons b bs ih => simp [List.mapM_cons, Cell.byte?, ih]

theorem ofCells?_bytes (k : Kind) (bs : List UInt8) :
    ofCells? k (bs.map .byte) = some (bits (k.canon (ofLeBytes bs))) := by
  have hmap := mapM_byte? bs
  cases bs with
  | nil => rfl
  | cons b bs =>
    rw [List.map_cons] at hmap ⊢
    rw [ofCells?, hmap]
    · rfl
    · simp

/-- A lane that its kind has room for is read back as it is. -/
theorem ofCells?_cells (h : x.Fits k) : ofCells? k (x.cells k) = some x := by
  cases x with
  | bits w =>
    have h : k.cut w = w := h
    rw [cells, ofCells?_bytes]
    by_cases hk : k.size = 0
    · rw [Kind.cut, if_pos hk] at h
      rw [hk, ← h]
      exact congrArg _ (congrArg _ (Kind.canon_zero k))
    · rw [ofLeBytes_of_canon hk (Kind.canon_of_cut h), Kind.canon_of_cut h]
  | address r o =>
    obtain ⟨n, hn⟩ := Nat.exists_eq_succ_of_ne_zero (show k.size ≠ 0 from h)
    have hcells : (address r o).cells k =
        .part r o 0 :: (List.range n).map fun i => .part r o (i + 1) := by
      rw [cells, hn, List.range_succ_eq_map, List.map_cons, List.map_map]
      rfl
    rw [hcells, ofCells?, hcells, if_pos rfl]

theorem ofCells?_spec (h : ofCells? k cs = some x) (hlen : cs.length = k.size) :
    x.Fits k ∧ ∀ r, x.region? = some r → ∃ c ∈ cs, c.region? = some r := by
  unfold ofCells? at h
  split at h
  · next r o i cs =>
    obtain ⟨-, heq⟩ : _ ∧ address r o = x := by simpa using h
    subst heq
    exact ⟨by rw [Fits, ← hlen]; simp, fun q hq => ⟨_, List.mem_cons_self, hq⟩⟩
  · obtain ⟨bs, hbs, rfl⟩ := Option.map_eq_some_iff.mp h
    refine ⟨?_, fun q hq => by cases hq⟩
    change k.cut (k.canon _) = k.canon _
    by_cases hk : k.size = 0
    · obtain rfl : cs = [] := List.length_eq_zero_iff.mp (hlen.trans hk)
      obtain rfl : [] = bs := Option.some.inj hbs
      rw [show ofLeBytes [] = 0 from rfl, Kind.canon_zero, Kind.cut_zero]
    · exact Kind.cut_canon hk

theorem region?_of_mem_cells {c : Cell} (hc : c ∈ x.cells k) : c.region? = x.region? := by
  cases x with
  | bits w =>
    obtain ⟨b, -, rfl⟩ := List.mem_map.mp hc
    rfl
  | address r o =>
    obtain ⟨i, -, rfl⟩ := List.mem_map.mp hc
    rfl

end Lane

/-! ## Values -/

section values

variable {t : Ty} {xs : List Lane} {cs : List Cell} {k : Kind} {r : ValueId} {n : Nat}

/-- The value has the lanes of its type. -/
def Ty.Holds (t : Ty) (xs : List Lane) : Prop := xs.length = t.numLanes ∧ ∀ x ∈ xs, x.Fits t.elemKind

/-- One of the lanes is an address in the region. -/
def LeadsTo (r : ValueId) (xs : List Lane) : Prop := ∃ x ∈ xs, x.region? = some r

/-- How a value lies in memory. -/
def cellsOf (k : Kind) (xs : List Lane) : List Cell := xs.flatMap (Lane.cells k)

/-- The lanes that lie at the beginning of the cells. -/
def lanesIn (k : Kind) : Nat → List Cell → Option (List Lane)
  | 0, _ => some []
  | n + 1, cs => do
    let x ← Lane.ofCells? k (cs.take k.size)
    let xs ← lanesIn k n (cs.drop k.size)
    return x :: xs

@[simp] theorem length_cellsOf : (cellsOf k xs).length = xs.length * k.size := by
  induction xs with
  | nil => simp [cellsOf]
  | cons x xs ih =>
    rw [cellsOf, List.flatMap_cons, List.length_append, Lane.length_cells, ← cellsOf, ih,
      List.length_cons, Nat.succ_mul, Nat.add_comm]

theorem Ty.Holds.length_cellsOf (h : t.Holds xs) : (cellsOf t.elemKind xs).length = t.size := by
  rw [SsaJit.length_cellsOf, h.1, Ty.size]

/-- A value is read back from memory as it is. -/
theorem lanesIn_cellsOf (h : ∀ x ∈ xs, x.Fits k) :
    lanesIn k xs.length (cellsOf k xs ++ cs) = some xs := by
  induction xs with
  | nil => rfl
  | cons x xs ih =>
    have hlen : (x.cells k).length = k.size := Lane.length_cells
    rw [List.length_cons, lanesIn, cellsOf, List.flatMap_cons, List.append_assoc,
      List.take_left' hlen, List.drop_left' hlen, Lane.ofCells?_cells (h x List.mem_cons_self),
      ← cellsOf, ih fun y hy => h y (List.mem_cons_of_mem _ hy)]
    rfl

theorem lanesIn_spec (h : lanesIn k n cs = some xs) (hlen : n * k.size ≤ cs.length) :
    xs.length = n ∧ (∀ x ∈ xs, x.Fits k) ∧
      ∀ r, LeadsTo r xs → ∃ c ∈ cs, c.region? = some r := by
  induction n generalizing cs xs with
  | zero =>
    obtain rfl : [] = xs := Option.some.inj h
    exact ⟨rfl, by simp, fun r hr => by simp [LeadsTo] at hr⟩
  | succ n ih =>
    rw [Nat.succ_mul] at hlen
    rw [lanesIn] at h
    obtain ⟨x, hx, h⟩ := Option.bind_eq_some_iff.mp h
    obtain ⟨ys, hys, h⟩ := Option.bind_eq_some_iff.mp h
    obtain rfl : x :: ys = xs := Option.some.inj h
    obtain ⟨hfit, hlead⟩ := Lane.ofCells?_spec hx (by rw [List.length_take]; omega)
    obtain ⟨hn, hfits, hleads⟩ := ih hys (by rw [List.length_drop]; omega)
    refine ⟨by rw [List.length_cons, hn], List.forall_mem_cons.mpr ⟨hfit, hfits⟩, fun r hr => ?_⟩
    obtain ⟨y, hy, hyr⟩ := hr
    rcases List.mem_cons.mp hy with rfl | hy
    · obtain ⟨c, hc, hcr⟩ := hlead r hyr
      exact ⟨c, List.mem_of_mem_take hc, hcr⟩
    · obtain ⟨c, hc, hcr⟩ := hleads r ⟨y, hy, hyr⟩
      exact ⟨c, List.mem_of_mem_drop hc, hcr⟩

theorem cellsOf_zeros (k : Kind) (n : Nat) :
    cellsOf k ((List.replicate n 0).map .bits) = List.replicate (n * k.size) (.byte 0) := by
  rw [List.map_replicate, cellsOf, List.flatMap_replicate, Lane.cells, leBytes_zero, List.map_replicate,
    List.flatten_replicate_replicate]

theorem Ty.holds_zeros (t : Ty) : t.Holds ((List.replicate t.numLanes 0).map .bits) := by
  refine ⟨by simp, fun x hx => ?_⟩
  obtain ⟨w, hw, rfl⟩ := List.mem_map.mp hx
  rw [List.eq_of_mem_replicate hw]
  exact Kind.cut_zero _

theorem leadsTo_of_cellsOf {c : Cell} (hc : c ∈ cellsOf k xs) (hr : c.region? = some r) :
    LeadsTo r xs := by
  obtain ⟨x, hx, hc⟩ := List.mem_flatMap.mp hc
  exact ⟨x, hx, (Lane.region?_of_mem_cells hc).symm.trans hr⟩

theorem not_leadsTo_bits (ws : List UInt64) : ¬ LeadsTo r (ws.map .bits) := by
  rintro ⟨x, hx, hr⟩
  obtain ⟨w, -, rfl⟩ := List.mem_map.mp hx
  cases hr

/-! ## What the outside may hand in -/

open Classical in
/-- The lane as far as the kind has room for it, and without an address that nobody has. -/
noncomputable def Lane.granted (seen : ValueId → Prop) (k : Kind) : Lane → Lane
  | bits w => bits (k.cut w)
  | address r o => if seen r ∧ k.size ≠ 0 then address r o else bits 0

open Classical in
noncomputable def Cell.granted (seen : ValueId → Prop) : Cell → Cell
  | byte b => byte b
  | part r o i => if seen r then part r o i else byte 0

/-- As many lanes as the type has, each admitted. -/
noncomputable def Ty.granted (seen : ValueId → Prop) (t : Ty) (xs : List Lane) : List Lane :=
  (List.range t.numLanes).map fun i => (xs.getD i (.bits 0)).granted seen t.elemKind

variable {seen : ValueId → Prop}

theorem Lane.granted_spec (x : Lane) : (x.granted seen k).Fits k ∧
    ∀ r, (x.granted seen k).region? = some r → seen r := by
  cases x with
  | bits w => exact ⟨Kind.cut_cut k w, fun r hr => by cases hr⟩
  | address r o =>
    by_cases h : seen r ∧ k.size ≠ 0
    · rw [granted, if_pos h]
      exact ⟨h.2, fun q hq => by obtain rfl := Option.some.inj hq; exact h.1⟩
    · rw [granted, if_neg h]
      exact ⟨Kind.cut_zero k, fun q hq => by cases hq⟩

theorem Cell.granted_region {c : Cell} (h : (c.granted seen).region? = some r) : seen r := by
  cases c with
  | byte b => cases h
  | part q o i =>
    by_cases hq : seen q
    · rw [granted, if_pos hq] at h
      obtain rfl := Option.some.inj h
      exact hq
    · rw [granted, if_neg hq] at h
      cases h

theorem Ty.holds_granted : t.Holds (t.granted seen xs) := by
  refine ⟨by simp [granted], fun x hx => ?_⟩
  obtain ⟨i, -, rfl⟩ := List.mem_map.mp hx
  exact (Lane.granted_spec _).1

theorem Ty.leadsTo_granted (h : LeadsTo r (t.granted seen xs)) : seen r := by
  obtain ⟨x, hx, hr⟩ := h
  obtain ⟨i, -, rfl⟩ := List.mem_map.mp hx
  exact (Lane.granted_spec _).2 r hr

end values

/-! ## The outside and the memory -/

/-- What instructions do beyond regions: what they make of their operands, of the regions that are seen,
and of a memory of their own. -/
structure Outside where
  Mem : Type
  Stop : Type
  exec : ValueId → Value → List Ty → List (List Lane) → (ValueId → List Cell) → Mem →
    Except Stop (List Lane × (ValueId → List Cell) × Mem)

namespace Outside

/-- The arguments of a function, its regions, those of them that the outside has had an address of, and
the memory outside. -/
structure Memory (W : Outside) where
  args : List (List UInt64)
  cells : ValueId → List Cell
  shared : ValueId → Prop
  outside : W.Mem

namespace Memory

variable {W : Outside} {m : W.Memory} {t : Ty} {r q v : ValueId} {o : UInt64} {y : Value}
  {ts : List Ty} {xs : List (List Lane)} {z : List Lane × W.Memory}

/-- The memory with other cells in a region. -/
def put (m : W.Memory) (r : ValueId) (cs : List Cell) : W.Memory :=
  { m with cells := Function.update m.cells r cs }

/-- The lanes at a place in a region, if the region has room for them there. -/
def load (m : W.Memory) (t : Ty) (r : ValueId) (o : UInt64) : Option (List Lane) :=
  if o.toNat + t.size ≤ (m.cells r).length then lanesIn t.elemKind t.numLanes ((m.cells r).drop o.toNat)
  else none

/-- Lanes put at a place in a region. -/
def store (m : W.Memory) (t : Ty) (x : List Lane) (r : ValueId) (o : UInt64) : Option W.Memory :=
  let cs := cellsOf t.elemKind x
  if o.toNat + cs.length ≤ (m.cells r).length then
    some (m.put r ((m.cells r).take o.toNat ++ cs ++ (m.cells r).drop (o.toNat + cs.length)))
  else none

/-- The regions that the outside sees when it is handed the operands. -/
inductive Sees (m : W.Memory) (xs : List (List Lane)) : ValueId → Prop
  | shared {r : ValueId} : m.shared r → Sees m xs r
  | handed {r : ValueId} {x : List Lane} : x ∈ xs → LeadsTo r x → Sees m xs r
  | held {q r : ValueId} {c : Cell} : Sees m xs q → c ∈ m.cells q → c.region? = some r → Sees m xs r

/-- What an instruction does inside, if that is all it does. -/
noncomputable def inside? (m : W.Memory) (v : ValueId) (y : Value) (ts : List Ty)
    (xs : List (List Lane)) : Option (List Lane × W.Memory) :=
  match y.op, xs with
  | .param, _ =>
    some (y.type.granted (fun _ => False) ((m.args.getD y.aux.toNatClampNeg []).map .bits), m)
  | .alloca, _ => some ([.address v 0], m.put v (List.replicate y.aux.toNatClampNeg (.byte 0)))
  | .load, [[.address r o]] => (m.load y.type r o).map fun x => (x, m)
  | .store, [x, [.address r o]] => (m.store (ts.headD .void) x r o).map fun m' => ([], m')
  | _, _ => none

open Classical in
/-- The regions as the outside sees them. -/
noncomputable def view (m : W.Memory) (xs : List (List Lane)) (r : ValueId) : List Cell :=
  if m.Sees xs r then m.cells r else []

open Classical in
/-- What the outside does, with the regions that it sees. -/
noncomputable def visit (m : W.Memory) (v : ValueId) (y : Value) (ts : List Ty)
    (xs : List (List Lane)) : Except W.Stop (List Lane × W.Memory) :=
  (W.exec v y ts xs (m.view xs) m.outside).map fun x =>
    (y.type.granted (m.Sees xs) x.1,
      { m with
        cells := fun r => if m.Sees xs r then (x.2.1 r).map (Cell.granted (m.Sees xs)) else m.cells r
        shared := m.Sees xs
        outside := x.2.2 })

noncomputable def exec (m : W.Memory) (v : ValueId) (y : Value) (ts : List Ty)
    (xs : List (List Lane)) : Except W.Stop (List Lane × W.Memory) :=
  match m.inside? v y ts xs with
  | some z => .ok z
  | none => m.visit v y ts xs

/-- The memory without what lies in some regions. -/
def without (m : W.Memory) (l : List ValueId) : W.Memory :=
  { m with cells := fun r => if r ∈ l then [] else m.cells r }

end Memory

/-- The meaning of instructions on regions, with the outside for all else. -/
noncomputable abbrev interp (W : Outside) : Interp where
  Val := List Lane
  Mem := W.Memory
  Stop := W.Stop
  blank := []
  const y := (y.constLanes.getD []).map .bits
  exec v y ts xs m := m.exec v y ts xs
  holds x := (x.headD (.bits 0)).isSet
  holds_const y hop hty := by
    rw [← Value.bit_constLanes hop hty]
    cases y.bare.constLanes.getD [] <;> rfl

/-- The state in which a function begins: no region has been made. What has no result yet, or never has
one like a store, reads as the one lane of void. -/
def start (W : Outside) (args : List (List UInt64)) (w : W.Mem) : W.interp.State where
  env _ := [.bits 0]
  mem := { args, cells := fun _ => [], shared := fun _ => False, outside := w }

end Outside

/-- The same end of a run, with regions left out of the memory. -/
def Interp.Halt.without {W : Outside} (l : List ValueId) : W.interp.Halt → W.interp.Halt
  | .returned x m => .returned x (m.without l)
  | .unreachable m => .unreachable (m.without l)
  | .stopped why m => .stopped why (m.without l)
  | .lost m => .lost (m.without l)

/-! ## Regions that nothing leads to -/

namespace Outside.Memory

variable {W : Outside} {m : W.Memory} {t : Ty} {r q v : ValueId} {o : UInt64} {y : Value}
  {ts : List Ty} {xs : List (List Lane)} {z : List Lane × W.Memory}

/-- Nothing outside the region leads into it. -/
structure Apart (m : W.Memory) (r : ValueId) : Prop where
  shared : ¬ m.shared r
  held : ∀ q ≠ r, ∀ c ∈ m.cells q, c.region? ≠ some r

@[simp] theorem cells_put : (m.put q cs).cells r = if r = q then cs else m.cells r := by
  simp [put, Function.update_apply]

theorem cells_without {l : List ValueId} : (m.without l).cells r = if r ∈ l then [] else m.cells r := rfl

theorem without_without {l l' : List ValueId} : (m.without l).without l' = m.without (l ++ l') := by
  simp only [without, Memory.mk.injEq, true_and, and_true]
  funext r
  by_cases hl : r ∈ l <;> simp [hl]

theorem without_nil : m.without [] = m := by simp [without]

theorem without_put : (m.put r cs).without [r] = m.without [r] := by
  simp only [without, put, Memory.mk.injEq, true_and, and_true]
  funext q
  by_cases hq : q = r <;> simp [hq]

theorem put_without (h : q ≠ r) : (m.without [r]).put q cs = (m.put q cs).without [r] := by
  simp only [without, put, Memory.mk.injEq, true_and, and_true]
  funext p
  by_cases hp : p = q
  · subst hp
    simp [h]
  · simp [hp]

theorem Apart.put (h : m.Apart r) (hcs : q = r ∨ ∀ c ∈ cs, c.region? ≠ some r) : (m.put q cs).Apart r where
  shared := h.shared
  held p hp c hc := by
    rw [cells_put] at hc
    split at hc
    · next heq => exact (hcs.resolve_left fun hq => hp (heq.trans hq)) c hc
    · exact h.held p hp c hc

variable (hm : m.Apart r) (hxs : ∀ x ∈ xs, ¬ LeadsTo r x)
include hm hxs

theorem Apart.ne_of_sees (h : m.Sees xs q) : q ≠ r := by
  induction h with
  | shared h => exact fun heq => hm.shared (heq ▸ h)
  | handed hx h => exact fun heq => hxs _ hx (heq ▸ h)
  | held _ hc hr ih => exact fun heq => hm.held _ ih _ hc (heq ▸ hr)

theorem Apart.sees_without : (m.without [r]).Sees xs = m.Sees xs := by
  funext q
  refine propext ⟨fun h => ?_, fun h => ?_⟩
  · induction h with
    | shared h => exact .shared h
    | handed hx h => exact .handed hx h
    | @held p q c _ hc hr ih =>
      refine .held ih ?_ hr
      rwa [cells_without, if_neg (by simpa using hm.ne_of_sees hxs ih)] at hc
  · induction h with
    | shared h => exact .shared h
    | handed hx h => exact .handed hx h
    | @held p q c hp hc hr ih =>
      refine .held ih ?_ hr
      rwa [cells_without, if_neg (by simpa using hm.ne_of_sees hxs hp)]

/-- The outside does not notice a region that nothing leads to. -/
theorem Apart.visit_without : (m.without [r]).visit v y ts xs =
    (m.visit v y ts xs).map fun z => (z.1, z.2.without [r]) := by
  have hview : (m.without [r]).view xs = m.view xs := by
    funext q
    unfold view
    rw [hm.sees_without hxs]
    by_cases hq : m.Sees xs q
    · rw [if_pos hq, if_pos hq, cells_without, if_neg (by simpa using hm.ne_of_sees hxs hq)]
    · rw [if_neg hq, if_neg hq]
  unfold visit
  rw [hview, hm.sees_without hxs]
  change (W.exec v y ts xs _ m.outside).map _ = ((W.exec v y ts xs _ m.outside).map _).map _
  cases W.exec v y ts xs (m.view xs) m.outside with
  | error why => rfl
  | ok x =>
    refine congrArg Except.ok (Prod.ext rfl ?_)
    simp only [without, Memory.mk.injEq, true_and, and_true]
    funext q
    by_cases hq : q = r
    · subst hq
      have hnot : ¬ m.Sees xs q := fun h => hm.ne_of_sees hxs h rfl
      simp [hnot]
    · simp [hq]

theorem Apart.visit_spec (h : m.visit v y ts xs = .ok z) :
    ¬ LeadsTo r z.1 ∧ z.2.Apart r ∧ z.2.cells r = m.cells r := by
  unfold visit at h
  cases hx : W.exec v y ts xs (m.view xs) m.outside with
  | error why => rw [hx] at h; cases h
  | ok x =>
    rw [hx] at h
    obtain rfl := Except.ok.inj h
    have hr : ¬ m.Sees xs r := fun h => hm.ne_of_sees hxs h rfl
    refine ⟨fun h => hr (Ty.leadsTo_granted h), ⟨hr, fun q hq c hc heq => ?_⟩, if_neg hr⟩
    simp only at hc
    split at hc
    · obtain ⟨c, -, rfl⟩ := List.mem_map.mp hc
      exact hr (Cell.granted_region heq)
    · exact hm.held q hq c hc heq

omit hxs in
theorem Apart.load (hq : q ≠ r) : (m.without [r]).load t q o = m.load t q o ∧
    ∀ x, m.load t q o = some x → ¬ LeadsTo r x := by
  have hcells : (m.without [r]).cells q = m.cells q := by
    rw [cells_without, if_neg (by simpa using hq)]
  unfold Memory.load
  refine ⟨by rw [hcells], fun x hx hr => ?_⟩
  split at hx
  · next hlen =>
    obtain ⟨-, -, hleads⟩ := lanesIn_spec hx (by rw [List.length_drop, ← Ty.size]; omega)
    obtain ⟨c, hc, hcr⟩ := hleads r hr
    exact hm.held q hq c (List.mem_of_mem_drop hc) hcr
  · cases hx

omit hxs in
theorem Apart.store {x : List Lane} (hq : q ≠ r) (hx : ¬ LeadsTo r x) :
    (m.without [r]).store t x q o = (m.store t x q o).map (·.without [r]) ∧
      ∀ m', m.store t x q o = some m' → m'.Apart r ∧ m'.cells r = m.cells r := by
  have hcells : (m.without [r]).cells q = m.cells q := by
    rw [cells_without, if_neg (by simpa using hq)]
  unfold Memory.store
  rw [hcells]
  refine ⟨?_, fun m' hm' => ?_⟩
  · dsimp only
    split
    · rw [put_without hq]
      rfl
    · rfl
  · dsimp only at hm'
    split at hm'
    · obtain rfl := Option.some.inj hm'
      refine ⟨hm.put (.inr fun c hc hr => ?_), by rw [cells_put, if_neg hq.symm]⟩
      rw [List.mem_append, List.mem_append] at hc
      rcases hc with (hc | hc) | hc
      · exact hm.held q hq c (List.mem_of_mem_take hc) hr
      · exact hx (leadsTo_of_cellsOf hc hr)
      · exact hm.held q hq c (List.mem_of_mem_drop hc) hr
    · cases hm'

/-- What is done inside leaves the region alone, unless it makes it. -/
theorem Apart.inside? (hv : v ≠ r) : (m.without [r]).inside? v y ts xs =
      (m.inside? v y ts xs).map (fun z => (z.1, z.2.without [r])) ∧
    ∀ z, m.inside? v y ts xs = some z → ¬ LeadsTo r z.1 ∧ z.2.Apart r ∧ z.2.cells r = m.cells r := by
  have hne : ∀ {q o}, [.address q o] ∈ xs → q ≠ r := by
    rintro q o hx rfl
    exact hxs _ hx ⟨_, List.mem_singleton_self _, rfl⟩
  unfold Memory.inside?
  split
  · refine ⟨rfl, fun z hz => ?_⟩
    obtain rfl := Option.some.inj hz
    exact ⟨fun h => Ty.leadsTo_granted h, hm, rfl⟩
  · refine ⟨by rw [put_without hv]; rfl, fun z hz => ?_⟩
    obtain rfl := Option.some.inj hz
    refine ⟨?_, hm.put (.inr fun c hc => ?_), by rw [cells_put, if_neg hv.symm]⟩
    · rintro ⟨x, hx, hr⟩
      obtain rfl := List.mem_singleton.mp hx
      exact hv (Option.some.inj hr)
    · rw [List.eq_of_mem_replicate hc]
      simp [Cell.region?]
  · next q o _ =>
    obtain ⟨hsame, hleads⟩ := hm.load (t := y.type) (o := o) (hne (q := q) List.mem_cons_self)
    rw [hsame]
    refine ⟨by rw [Option.map_map]; rfl, fun z hz => ?_⟩
    obtain ⟨x, hx, rfl⟩ := Option.map_eq_some_iff.mp hz
    exact ⟨hleads x hx, hm, rfl⟩
  · next x q o _ =>
    obtain ⟨hsame, hstore⟩ := hm.store (t := ts.headD .void) (o := o)
      (hne (q := q) (List.mem_cons_of_mem _ List.mem_cons_self)) (hxs x List.mem_cons_self)
    rw [hsame]
    refine ⟨by rw [Option.map_map, Option.map_map]; rfl, fun z hz => ?_⟩
    obtain ⟨m', hm', rfl⟩ := Option.map_eq_some_iff.mp hz
    exact ⟨by simp [LeadsTo], hstore m' hm'⟩
  · exact ⟨rfl, fun z hz => by cases hz⟩

theorem Apart.exec_without (hv : v ≠ r) : (m.without [r]).exec v y ts xs =
    (m.exec v y ts xs).map fun z => (z.1, z.2.without [r]) := by
  unfold Memory.exec
  rw [(hm.inside? hxs hv).1]
  cases m.inside? v y ts xs with
  | some z => rfl
  | none => exact hm.visit_without hxs

theorem Apart.exec_spec (hv : v ≠ r) (h : m.exec v y ts xs = .ok z) :
    ¬ LeadsTo r z.1 ∧ z.2.Apart r ∧ z.2.cells r = m.cells r := by
  unfold Memory.exec at h
  cases hin : m.inside? v y ts xs with
  | some z' =>
    rw [hin] at h
    obtain rfl := Except.ok.inj h
    exact (hm.inside? hxs hv).2 z' hin
  | none =>
    rw [hin] at h
    exact hm.visit_spec hxs h

omit hm hxs in
/-- Results have the lanes of their type. -/
theorem exec_holds (hstore : y.op ≠ .store) (halloca : y.op = .alloca → y.type = .ptr)
    (h : m.exec v y ts xs = .ok z) : y.type.Holds z.1 := by
  unfold Memory.exec at h
  split at h
  · next z' hin =>
    obtain rfl := Except.ok.inj h
    unfold Memory.inside? at hin
    split at hin
    · obtain rfl := Option.some.inj hin
      exact Ty.holds_granted
    · next hop =>
      obtain rfl := Option.some.inj hin
      rw [halloca hop]
      refine ⟨rfl, fun x hx => ?_⟩
      obtain rfl := List.mem_singleton.mp hx
      simp [Lane.Fits, Ty.elemKind, Kind.size]
    · obtain ⟨x, hx, rfl⟩ := Option.map_eq_some_iff.mp hin
      unfold Memory.load at hx
      split at hx
      · obtain ⟨hlen, hfits, -⟩ := lanesIn_spec hx (by rw [List.length_drop, ← Ty.size]; omega)
        exact ⟨hlen, hfits⟩
      · cases hx
    · next hop => exact absurd hop hstore
    · cases hin
  · unfold Memory.visit at h
    cases hx : W.exec v y ts xs (m.view xs) m.outside with
    | error why => rw [hx] at h; cases h
    | ok x =>
      rw [hx] at h
      obtain rfl := Except.ok.inj h
      exact Ty.holds_granted

end Outside.Memory

end SsaJit
