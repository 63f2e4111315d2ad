import Mathlib.Data.List.Forall2
import SsaJit.Cache.Basic
import SsaJit.Proofs.Bytes

/-! Keys tell states apart. The shapes that a cache accepts are the ones of fixed size, built by arrays
and records from fixed-size leaf fields; a key is what the serialiser writes for the leaf fields, each
in as many bytes as it has, one after another. So keys of a shape have one length, and they are equal
just if the same was written. What is written for a field is what it holds, but for blank fields and
for singles inside a larger state that are signalling NaNs. -/

namespace SsaJit.Cache

/-! ## Accepted shapes -/

/-- Built by arrays and records from truth values, integers, floats and complex numbers of fixed size. -/
inductive Shape.Plain : Shape → Prop
  | fixed (n : Nat) : Plain (.fixed n)
  | singles (n : Nat) : Plain (.singles n)
  | doubles (n : Nat) : Plain (.doubles n)
  | array (n : Nat) {elem : Shape} (h : Plain elem) : Plain (.array n elem)
  | record {fields : List (String × Shape)} (h : ∀ f ∈ fields, Plain f.2) : Plain (.record fields)

mutual

/-- The widths in bytes of the leaf fields, in the order of their declaration. -/
def Shape.widths : Shape → List Nat
  | .fixed n => [n]
  | .singles n => List.replicate n 4
  | .doubles n => List.replicate n 8
  | .array n elem => (List.replicate n elem.widths).flatten
  | .record fields => fieldWidths fields
  | .platform _ | .reference _ => []

def fieldWidths : List (String × Shape) → List Nat
  | [] => []
  | (_, shape) :: rest => shape.widths ++ fieldWidths rest

end

mutual

theorem Shape.unkeyed_eq_none : ∀ shape : Shape, shape.unkeyed = none ↔ shape.Plain
  | .fixed n => ⟨fun _ => .fixed n, fun _ => rfl⟩
  | .singles n => ⟨fun _ => .singles n, fun _ => rfl⟩
  | .doubles n => ⟨fun _ => .doubles n, fun _ => rfl⟩
  | .array n elem => by
    rw [Shape.unkeyed, elem.unkeyed_eq_none]
    exact ⟨.array n, fun | .array _ h => h⟩
  | .record fields => by
    rw [Shape.unkeyed, unkeyedField_eq_none fields]
    exact ⟨.record, fun | .record h => h⟩
  | .platform k => ⟨nofun, nofun⟩
  | .reference k => ⟨nofun, nofun⟩

theorem unkeyedField_eq_none :
    ∀ fields : List (String × Shape), unkeyedField fields = none ↔ ∀ f ∈ fields, f.2.Plain
  | [] => ⟨fun _ => nofun, fun _ => rfl⟩
  | (name, shape) :: rest => by
    have hrest := unkeyedField_eq_none rest
    have hshape := shape.unkeyed_eq_none
    rw [unkeyedField, List.forall_mem_cons, ← hrest, ← hshape]
    cases shape.unkeyed with
    | none => simp
    | some u => simp

end

mutual

/-- The serialiser knows the size of just the shapes that are accepted. -/
theorem Shape.Plain.size? : ∀ {shape : Shape}, shape.Plain → shape.size? = some shape.widths.sum
  | .fixed n, _ => by simp [Shape.size?, Shape.widths]
  | .singles n, _ => by simp [Shape.size?, Shape.widths]
  | .doubles n, _ => by simp [Shape.size?, Shape.widths]
  | .array n elem, .array _ h => by
    rw [Shape.size?, Shape.widths, h.size?, Option.map_some]
    induction n with
    | zero => simp
    | succ n ih =>
      rw [List.replicate_succ, List.flatten_cons, List.sum_append, ← Option.some.inj ih, Nat.succ_mul,
        Nat.add_comm]
  | .record fields, .record h => by
    rw [Shape.size?, fieldsSize?_plain h, Shape.widths]

theorem fieldsSize?_plain : ∀ {fields : List (String × Shape)}, (∀ f ∈ fields, f.2.Plain) →
    fieldsSize? fields = some (fieldWidths fields).sum
  | [], _ => rfl
  | (_, shape) :: rest, h => by
    obtain ⟨hshape, hrest⟩ := List.forall_mem_cons.mp h
    simp [fieldsSize?, fieldWidths, hshape.size?, fieldsSize?_plain hrest]

end

/-! ## Patterns one after another -/

/-- The pattern takes no more than `n` bytes. -/
def Within (n : Nat) (w : UInt64) : Prop := w.toNat < 256 ^ n

instance (n : Nat) (w : UInt64) : Decidable (Within n w) := inferInstanceAs (Decidable (w.toNat < 256 ^ n))

/-- The bytes are those of the patterns, each of its own width. -/
structure Spelled (widths : List Nat) (patterns : List UInt64) (key : Key) : Prop where
  within : List.Forall₂ Within widths patterns
  bytes : key = (List.zipWith leBytes widths patterns).flatten

theorem leBytes_injective {n : Nat} {w v : UInt64} (hw : Within n w) (hv : Within n v)
    (h : leBytes n w = leBytes n v) : w = v := by
  have hnat := congrArg natOfBytes h
  rw [natOfBytes_leBytes, natOfBytes_leBytes, Nat.mod_eq_of_lt hw, Nat.mod_eq_of_lt hv] at hnat
  exact UInt64.toNat.inj hnat

namespace Spelled

variable {ns ms : List Nat} {ws vs : List UInt64} {k l : Key}

theorem nil : Spelled [] [] [] := ⟨.nil, rfl⟩

theorem one {n : Nat} {w : UInt64} (h : Within n w) : Spelled [n] [w] (leBytes n w) :=
  ⟨.cons h .nil, by simp⟩

theorem append (h : Spelled ns ws k) (h' : Spelled ms vs l) :
    Spelled (ns ++ ms) (ws ++ vs) (k ++ l) where
  within := List.rel_append h.within h'.within
  bytes := by
    rw [h.bytes, h'.bytes, List.zipWith_append h.within.length_eq, List.flatten_append]

theorem replicate {n : Nat} (h : ∀ w ∈ ws, Within n w) :
    Spelled (List.replicate ws.length n) ws (ws.flatMap (leBytes n)) := by
  induction ws with
  | nil => exact .nil
  | cons w ws ih =>
    obtain ⟨hw, hws⟩ := List.forall_mem_cons.mp h
    exact (one hw).append (ih hws)

theorem zeros : Spelled ns (ns.map fun _ => 0) (List.replicate ns.sum 0) := by
  induction ns with
  | nil => exact .nil
  | cons n ns ih =>
    have hzero : Within n 0 := Nat.pow_pos (by decide)
    have happ := (one hzero).append ih
    rwa [leBytes_zero, List.replicate_append_replicate] at happ

theorem length_eq (h : Spelled ns ws k) : k.length = ns.sum := by
  rw [h.bytes]
  have hin := h.within
  clear h
  induction hin with
  | nil => rfl
  | cons _ _ ih => simp [ih]

/-- Equal keys spell equal patterns. -/
theorem injective (h : Spelled ns ws k) (h' : Spelled ns vs k) : ws = vs := by
  have hkey := h.bytes.symm.trans h'.bytes
  have hw := h.within
  have hv := h'.within
  clear h h'
  induction hw generalizing vs with
  | nil => cases hv with | nil => rfl
  | cons hn hw ih =>
    cases hv with
    | cons hm hv =>
      obtain ⟨hhead, htail⟩ := List.append_inj hkey (by simp)
      rw [leBytes_injective hn hm hhead, ih htail hv]

end Spelled

/-! ## States of a shape -/

mutual

/-- The patterns of the leaf fields. -/
def State.leaves : State → List UInt64
  | .leaf w => [w]
  | .parts ps => leavesOf ps

def leavesOf : List State → List UInt64
  | [] => []
  | s :: rest => s.leaves ++ leavesOf rest

end

/-- A number of one part is a leaf, one of several parts has a leaf for each. -/
def State.IsNumber (parts bytes : Nat) : State → Prop
  | .leaf w => parts = 1 ∧ Within bytes w
  | .parts ps => parts ≠ 1 ∧ ∃ ws : List UInt64, ps = ws.map .leaf ∧ ws.length = parts ∧
      ∀ w ∈ ws, Within bytes w

mutual

/-- The state is one of the shape. -/
def Shape.Fits : Shape → State → Prop
  | .fixed n, .leaf w => Within n w
  | .singles n, s => s.IsNumber n 4
  | .doubles n, s => s.IsNumber n 8
  | .array n elem, .parts ps => ps.length = n ∧ ∀ s ∈ ps, elem.Fits s
  | .record fields, .parts ps => fieldsFit fields ps
  | _, _ => False

def fieldsFit : List (String × Shape) → List State → Prop
  | [], [] => True
  | (_, shape) :: fields, s :: rest => shape.Fits s ∧ fieldsFit fields rest
  | _, _ => False

end

mutual

/-- The patterns that the serialiser writes for the leaf fields of a part of a state. -/
def Shape.writtenPart : Shape → State → List UInt64
  | .singles _, s => s.leaves.map widened
  | .array _ elem, .parts ps => ps.flatMap elem.writtenPart
  | .record fields, .parts ps => writtenFields fields ps
  | _, s => s.leaves

def writtenFields : List (String × Shape) → List State → List UInt64
  | (name, shape) :: fields, s :: rest =>
    (if name = "_" then shape.widths.map fun _ => 0 else shape.writtenPart s) ++ writtenFields fields rest
  | _, _ => []

end

/-- The patterns that the serialiser writes for a state. A state that is one single is written as it
is. -/
def Shape.written : Shape → State → List UInt64
  | .singles _, .leaf w => [w]
  | shape, s => shape.writtenPart s

/-! ## What a key spells -/

@[simp] theorem leavesOf_map (ws : List UInt64) : leavesOf (ws.map .leaf) = ws := by
  induction ws with
  | nil => rfl
  | cons w ws ih => simp [leavesOf, State.leaves, ih]

theorem widened_within {w : UInt64} (h : Within 4 w) : Within 4 (widened w) := by
  simp only [widened]
  split
  · exact UInt32.toNat_lt _
  · exact h

section

variable {n : Nat} {s : State}

theorem doubles_spelled (h : s.IsNumber n 8) :
    Spelled (List.replicate n 8) s.leaves (Shape.partKey (.doubles n) s) := by
  cases s with
  | leaf w =>
    obtain ⟨rfl, hw⟩ := h
    exact .one hw
  | parts ps =>
    obtain ⟨-, ws, rfl, rfl, hws⟩ := h
    have hkey := Spelled.replicate hws
    simpa [Shape.partKey, State.leaves, List.flatMap_map] using hkey

theorem singles_spelled (h : s.IsNumber n 4) :
    Spelled (List.replicate n 4) (s.leaves.map widened) (Shape.partKey (.singles n) s) := by
  cases s with
  | leaf w =>
    obtain ⟨rfl, hw⟩ := h
    exact .one (widened_within hw)
  | parts ps =>
    obtain ⟨-, ws, rfl, rfl, hws⟩ := h
    have hwithin : ∀ w ∈ ws.map widened, Within 4 w :=
      List.forall_mem_map.mpr fun w hw => widened_within (hws w hw)
    have hkey := Spelled.replicate hwithin
    simpa [Shape.partKey, State.leaves, List.flatMap_map] using hkey

theorem array_spelled {elem : Shape} {ps : List State}
    (h : ∀ s ∈ ps, Spelled elem.widths (elem.writtenPart s) (elem.partKey s)) :
    Spelled (List.replicate ps.length elem.widths).flatten (ps.flatMap elem.writtenPart)
      (arrayKey elem ps.length ps) := by
  induction ps with
  | nil => exact .nil
  | cons s ps ih =>
    obtain ⟨hs, hps⟩ := List.forall_mem_cons.mp h
    exact hs.append (ih hps)

end

mutual

theorem Shape.Plain.spelled : ∀ {shape : Shape} {s : State}, shape.Plain → shape.Fits s →
    Spelled shape.widths (shape.writtenPart s) (shape.partKey s)
  | .fixed n, .leaf w, _, h => .one h
  | .singles n, s, _, h => singles_spelled h
  | .doubles n, s, _, h => doubles_spelled h
  | .array n elem, .parts ps, .array _ hplain, h => by
    obtain ⟨rfl, hfits⟩ := h
    exact array_spelled fun s hs => hplain.spelled (hfits s hs)
  | .record fields, .parts ps, .record hplain, h => fields_spelled hplain h

theorem fields_spelled : ∀ {fields : List (String × Shape)} {ps : List State},
    (∀ f ∈ fields, f.2.Plain) → fieldsFit fields ps →
      Spelled (fieldWidths fields) (writtenFields fields ps) (recordKey fields ps)
  | [], [], _, _ => .nil
  | (name, shape) :: fields, s :: rest, hplain, h => by
    obtain ⟨hshape, hfields⟩ := List.forall_mem_cons.mp hplain
    have hrest := fields_spelled hfields h.2
    rw [fieldWidths, writtenFields, recordKey]
    by_cases hname : name = "_"
    · rw [if_pos hname, if_pos hname, hshape.size?]
      exact Spelled.zeros.append hrest
    · rw [if_neg hname, if_neg hname]
      exact (hshape.spelled h.1).append hrest

end

/-- A key is what the serialiser writes. -/
theorem Shape.Plain.key_spelled {shape : Shape} {s : State} (hplain : shape.Plain) (h : shape.Fits s) :
    Spelled shape.widths (shape.written s) (shape.key s) := by
  have hpart := hplain.spelled h
  cases shape with
  | singles n =>
    cases s with
    | leaf w =>
      obtain ⟨rfl, hw⟩ := h
      exact .one hw
    | parts ps => exact hpart
  | _ => exact hpart

/-! ## States that are written as they are -/

mutual

/-- No field is blank, and no single is changed by going through double precision. -/
def Shape.Verbatim : Shape → State → Prop
  | .singles _, s => ∀ w ∈ s.leaves, widened w = w
  | .array _ elem, .parts ps => ∀ s ∈ ps, elem.Verbatim s
  | .record fields, .parts ps => fieldsVerbatim fields ps
  | _, _ => True

def fieldsVerbatim : List (String × Shape) → List State → Prop
  | (name, shape) :: fields, s :: rest => name ≠ "_" ∧ shape.Verbatim s ∧ fieldsVerbatim fields rest
  | _, _ => True

end

theorem leavesOf_eq_flatMap (ps : List State) : leavesOf ps = ps.flatMap State.leaves := by
  induction ps with
  | nil => rfl
  | cons s ps ih => rw [leavesOf, ih, List.flatMap_cons]

mutual

theorem Shape.Verbatim.writtenPart : ∀ {shape : Shape} {s : State}, shape.Fits s → shape.Verbatim s →
    shape.writtenPart s = s.leaves
  | .fixed _, .leaf w, _, _ => rfl
  | .singles _, s, _, h => by
    rw [Shape.writtenPart, List.map_congr_left h, List.map_id']
  | .doubles _, s, _, _ => rfl
  | .array _ elem, .parts ps, hfits, h => by
    rw [Shape.writtenPart, State.leaves, leavesOf_eq_flatMap]
    exact List.flatMap_congr fun s hs => Shape.Verbatim.writtenPart (hfits.2 s hs) (h s hs)
  | .record fields, .parts ps, hfits, h => writtenFields_verbatim hfits h

theorem writtenFields_verbatim : ∀ {fields : List (String × Shape)} {ps : List State},
    fieldsFit fields ps → fieldsVerbatim fields ps → writtenFields fields ps = leavesOf ps
  | [], [], _, _ => rfl
  | (name, shape) :: fields, s :: rest, hfits, ⟨hname, hs, hrest⟩ => by
    rw [writtenFields, if_neg hname, hs.writtenPart hfits.1, writtenFields_verbatim hfits.2 hrest,
      leavesOf]

end

/-- What is written for the state is what its leaf fields hold. -/
def Shape.Faithful (shape : Shape) (s : State) : Prop := shape.written s = s.leaves

theorem Shape.Verbatim.faithful {shape : Shape} {s : State} (hfits : shape.Fits s)
    (h : shape.Verbatim s) : shape.Faithful s := by
  have hpart := h.writtenPart hfits
  cases shape with
  | singles n =>
    cases s with
    | leaf w => rfl
    | parts ps => exact hpart
  | _ => exact hpart

/-! ## Keys -/

theorem forStates_plain {name : String} {shape : Shape} (h : shape.Plain) (capacity : Int) :
    Cache.forStates name shape capacity = Cache.new capacity := by
  rw [Cache.forStates, Shape.check, shape.unkeyed_eq_none.mpr h]
  rfl

theorem forStates_refused {name : String} {shape : Shape} (h : ¬ shape.Plain) (capacity : Int) :
    ∃ u, shape.unkeyed = some u ∧
      Cache.forStates name shape capacity = .fail (.referenceState name u.text) := by
  cases hu : shape.unkeyed with
  | none => exact absurd (shape.unkeyed_eq_none.mp hu) h
  | some u =>
    refine ⟨u, rfl, ?_⟩
    rw [Cache.forStates, Shape.check, hu]
    rfl

/-- Below what no memory holds, every capacity will do. -/
theorem new_ok {capacity : Int} (h : capacity ≤ 0x100000000000) : ∃ c, Cache.new capacity = .ok c := by
  unfold Cache.new
  split
  · exact ⟨_, rfl⟩
  · rw [if_neg (Int.not_lt.mpr h)]
    exact ⟨_, rfl⟩

theorem Shape.Plain.keyOf {name : String} {shape : Shape} (h : shape.Plain) (s : State) :
    shape.keyOf name s = .ok (shape.key s) := by
  rw [Shape.keyOf, h.size?]

/-- A cache is made for just the shapes that are built from leaf fields of fixed size. For these every
state has a key, all keys have the leaf fields' bytes and no more, and two keys are equal just if the
same was written for both states: where the serialiser writes what the fields hold, if the fields hold
the same. -/
theorem keys_exact (name : String) (shape : Shape) :
    (∀ capacity, capacity ≤ 0x100000000000 →
      ((∃ c, Cache.forStates name shape capacity = .ok c) ↔ shape.Plain)) ∧
    (∀ capacity, ¬ shape.Plain → ∃ u, shape.unkeyed = some u ∧
      Cache.forStates name shape capacity = .fail (.referenceState name u.text)) ∧
    (shape.Plain → ∀ s, shape.Fits s →
      ∃ k, shape.keyOf name s = .ok k ∧ k.length = shape.widths.sum) ∧
    (shape.Plain → ∀ s t, shape.Fits s → shape.Fits t →
      (shape.keyOf name s = shape.keyOf name t ↔ shape.written s = shape.written t) ∧
      (shape.Faithful s → shape.Faithful t →
        (shape.keyOf name s = shape.keyOf name t ↔ s.leaves = t.leaves))) := by
  refine ⟨fun capacity hcap => ⟨?_, fun hplain => ?_⟩, fun capacity h => forStates_refused h capacity,
    fun hplain s hs => ?_, fun hplain s t hs ht => ?_⟩
  · rintro ⟨c, hc⟩
    by_contra hplain
    obtain ⟨u, -, hu⟩ : ∃ u, shape.unkeyed = some u ∧ Cache.forStates name shape capacity = _ :=
      forStates_refused hplain capacity
    exact nomatch hc.symm.trans hu
  · rw [forStates_plain hplain]
    exact new_ok hcap
  · exact ⟨shape.key s, hplain.keyOf s, (hplain.key_spelled hs).length_eq⟩
  · have hkeys : shape.keyOf name s = shape.keyOf name t ↔ shape.written s = shape.written t := by
      have hspelled := hplain.key_spelled hs
      have hspelled' := hplain.key_spelled ht
      rw [hplain.keyOf, hplain.keyOf, Except.ok.injEq]
      constructor
      · intro hkey
        rw [hkey] at hspelled
        exact hspelled.injective hspelled'
      · intro hwritten
        rw [hspelled.bytes, hspelled'.bytes, hwritten]
    refine ⟨hkeys, fun hfs hft => ?_⟩
    rw [hkeys, hfs, hft]

/-- A format and two weights. -/
def weighted : Shape := .record [("Format", .fixed 4), ("Weights", .array 2 (.singles 1))]

def weights (x y : UInt64) : State := .parts [.leaf 1, .parts [.leaf x, .leaf y]]

/-- The two zeros are different states. -/
theorem keys_exact_zeros : weighted.Plain ∧ weighted.Fits (weights 0 0x3F800000) ∧
    weighted.Fits (weights 0x80000000 0x3F800000) ∧
    weighted.keyOf "main.weighted" (weights 0 0x3F800000) ≠
      weighted.keyOf "main.weighted" (weights 0x80000000 0x3F800000) := by
  have hplain : weighted.Plain := weighted.unkeyed_eq_none.mp (by decide)
  have hfits : ∀ x y : UInt64, Within 4 x → Within 4 y → weighted.Fits (weights x y) := by
    intro x y hx hy
    have hone : Within 4 1 := by decide
    simp [weighted, weights, Shape.Fits, fieldsFit, State.IsNumber, hone, hx, hy]
  have hfaithful : ∀ x y : UInt64, Within 4 x → Within 4 y → widened x = x → widened y = y →
      weighted.Faithful (weights x y) := by
    intro x y hx hy hwx hwy
    refine Shape.Verbatim.faithful (hfits x y hx hy) ?_
    simp [weighted, weights, Shape.Verbatim, fieldsVerbatim, State.leaves, hwx, hwy]
  have hs := hfits 0 0x3F800000 (by decide) (by decide)
  have ht := hfits 0x80000000 0x3F800000 (by decide) (by decide)
  have hkeys := ((keys_exact "main.weighted" weighted).2.2.2 hplain _ _ hs ht).2
    (hfaithful _ _ (by decide) (by decide) (by decide) (by decide))
    (hfaithful _ _ (by decide) (by decide) (by decide) (by decide))
  exact ⟨hplain, hs, ht, fun h => absurd (hkeys.mp h) (by decide)⟩

/-- A signalling NaN has the key of its quiet twin. -/
example : weighted.key (weights 0x7F800001 0) = weighted.key (weights 0x7FC00001 0) := by decide

end SsaJit.Cache
