import Mathlib.Data.List.Induction
import SsaJit.Proofs.Bytes
import SsaJit.Proofs.X86.Encoding

/-! Code addresses in finished code. Whatever is done while code is put together, an operand that names
a label is an open field in the last four bytes of its instruction. Finishing fills it with the distance
from its end to the place where the label was bound last, and leaves all other bytes alone. -/

namespace SsaJit.X86

open Outcome

/-! ## Operations on code under construction -/

/-- An operation on code under construction. Jumps and operands that name code are instructions. -/
inductive Directive
  | instr (i : Instr Label)
  | newLabel
  | bind (l : Label)
  | align (n : Int) (fill : UInt8)
  | data (bytes : List UInt8)

/-- Carry out an operation. -/
def Assembler.apply (a : Assembler) : Directive → Outcome Assembler
  | .instr i => .ok (a.emit i)
  | .newLabel => .ok a.newLabel.1
  | .bind l => .ok (a.bind l)
  | .align n fill => a.align n fill
  | .data bytes => .ok (a.data bytes)

def Assembler.applyAll (a : Assembler) (ds : List Directive) : Outcome Assembler := ds.foldlM apply a

/-- The bytes that an operation puts behind code of some length, code addresses as zeros. -/
def Directive.bytes (length : Nat) : Directive → List UInt8
  | .instr i => i.encode fun _ => 0
  | .align n fill => List.replicate ((-(length : Int)) % n).toNat fill
  | .data bytes => bytes
  | .newLabel | .bind _ => []

/-- The bytes of operations one after the other. -/
def text (ds : List Directive) : List UInt8 :=
  ds.foldl (fun code d => code ++ d.bytes code.length) []

/-- An instruction that names the label ends at `e`. -/
def Refers (ds : List Directive) (l : Label) (e : Nat) : Prop :=
  ∃ before i after, ds = before ++ .instr i :: after ∧ i.target? = some l ∧
    e = (text (before ++ [Directive.instr i])).length

/-- The label was bound last at `place`. -/
def BoundLast (ds : List Directive) (l : Label) (place : Nat) : Prop :=
  ∃ before after, ds = before ++ .bind l :: after ∧ .bind l ∉ after ∧ place = (text before).length

/-- The operation can be carried out: padding is to a multiple of something. -/
def Directive.Possible (d : Directive) : Prop := ∀ n fill, d = .align n fill → n ≠ 0

variable {ds es : List Directive} {d : Directive} {a a' : Assembler} {l : Label} {e p : Nat}
  {f : Fixup} {fs : List Fixup} {code code' code'' : Array UInt8}

theorem text_concat (ds : List Directive) (d : Directive) :
    text (ds ++ [d]) = text ds ++ d.bytes (text ds).length := by
  rw [text, List.foldl_append]
  rfl

theorem length_text_le (ds es : List Directive) : (text ds).length ≤ (text (ds ++ es)).length := by
  induction es generalizing ds with
  | nil => rw [List.append_nil]
  | cons d es ih =>
    have hrest := ih (ds ++ [d])
    rw [text_concat, List.length_append, List.append_assoc] at hrest
    exact Nat.le_trans (Nat.le_add_right _ _) hrest

/-- A list with one more element at its end, split before some element. -/
theorem concat_eq_split {α : Type} {l before after : List α} {x y : α}
    (h : l ++ [x] = before ++ y :: after) :
    (after = [] ∧ l = before ∧ x = y) ∨ ∃ rest, after = rest ++ [x] ∧ l = before ++ y :: rest := by
  rcases List.eq_nil_or_concat after with rfl | ⟨rest, z, rfl⟩
  · obtain ⟨h, heq⟩ := List.append_inj' h rfl
    exact .inl ⟨rfl, h, (List.cons.inj heq).1⟩
  · rw [List.concat_eq_append, ← List.cons_append, ← List.append_assoc] at h
    obtain ⟨hl, heq⟩ := List.append_inj' h rfl
    obtain rfl := (List.cons.inj heq).1
    exact .inr ⟨rest, List.concat_eq_append, hl⟩

theorem refers_concat : Refers (ds ++ [d]) l e ↔
    Refers ds l e ∨ ∃ i, d = .instr i ∧ i.target? = some l ∧ e = (text (ds ++ [d])).length := by
  constructor
  · rintro ⟨before, i, after, hds, hi, he⟩
    rcases concat_eq_split hds with ⟨-, rfl, rfl⟩ | ⟨rest, -, rfl⟩
    · exact .inr ⟨i, rfl, hi, he⟩
    · exact .inl ⟨before, i, rest, rfl, hi, he⟩
  · rintro (⟨before, i, after, rfl, hi, he⟩ | ⟨i, rfl, hi, he⟩)
    · exact ⟨before, i, after ++ [d], by rw [List.append_assoc, List.cons_append], hi, he⟩
    · exact ⟨ds, i, [], rfl, hi, he⟩

theorem boundLast_concat : BoundLast (ds ++ [d]) l p ↔
    (d = .bind l ∧ p = (text ds).length) ∨ (d ≠ .bind l ∧ BoundLast ds l p) := by
  constructor
  · rintro ⟨before, after, hds, hafter, hp⟩
    rcases concat_eq_split hds with ⟨-, rfl, rfl⟩ | ⟨rest, rfl, rfl⟩
    · exact .inl ⟨rfl, hp⟩
    · rw [List.mem_append, not_or, List.mem_singleton] at hafter
      exact .inr ⟨fun h => hafter.2 h.symm, before, rest, rfl, hafter.1, hp⟩
  · rintro (⟨rfl, hp⟩ | ⟨hd, before, after, rfl, hafter, hp⟩)
    · exact ⟨ds, [], rfl, List.not_mem_nil, hp⟩
    · refine ⟨before, after ++ [d], by rw [List.append_assoc, List.cons_append], ?_, hp⟩
      rw [List.mem_append, not_or, List.mem_singleton]
      exact ⟨hafter, fun h => hd h.symm⟩

theorem BoundLast.le (h : BoundLast ds l p) : p ≤ (text ds).length := by
  obtain ⟨before, after, rfl, -, rfl⟩ := h
  exact length_text_le _ _

theorem Refers.le (h : Refers ds l e) : e ≤ (text ds).length := by
  obtain ⟨before, i, after, rfl, -, rfl⟩ := h
  have hle := length_text_le (before ++ [Directive.instr i]) after
  rwa [List.append_assoc, List.singleton_append] at hle

/-- A label that is bound is bound last somewhere. -/
theorem exists_boundLast (h : .bind l ∈ ds) : ∃ p, BoundLast ds l p := by
  induction ds using List.reverseRecOn with
  | nil => exact absurd h List.not_mem_nil
  | append_singleton ds d ih =>
    by_cases hd : d = .bind l
    · exact ⟨_, boundLast_concat.mpr (.inl ⟨hd, rfl⟩)⟩
    · rw [List.mem_append, List.mem_singleton] at h
      obtain ⟨p, hp⟩ := ih (h.resolve_right fun h => hd h.symm)
      exact ⟨p, boundLast_concat.mpr (.inr ⟨hd, hp⟩)⟩

theorem BoundLast.mem (h : BoundLast ds l p) : .bind l ∈ ds := by
  obtain ⟨before, after, rfl, -, -⟩ := h
  exact List.mem_append_right _ List.mem_cons_self

/-! ## What an assembler knows of its code -/

/-- A code address is the last four bytes of its instruction. -/
theorem Instr.encode_target {τ : Type} (field : τ → UInt32) {i : Instr τ} {t : τ}
    (h : i.target? = some t) : ∃ front, i.encode field = front ++ bytes32 (field t) := by
  have hmem : ∀ mandatory w force opcode reg,
      ∃ front, onMem field mandatory w force opcode reg (.code t) = front ++ bytes32 (field t) :=
    fun mandatory w force opcode reg =>
      ⟨leading mandatory w force reg 0 ++ opcode ++ [modrm 0 reg 5], by
        rw [onMem, memOperand, ← List.singleton_append, List.append_assoc _ [_]]⟩
  cases i with
  | jmp _ =>
    cases h
    exact ⟨[0xE9], rfl⟩
  | jcc cc _ =>
    cases h
    exact ⟨_, rfl⟩
  | load _ m _ | lea _ m | movdquLoad _ m | movdquStore m _ | movssLoad _ m | movssStore m _ =>
    cases m with
    | based _ _ => cases h
    | code _ =>
      cases h
      exact hmem ..
  | store m _ w =>
    cases m with
    | based _ _ => cases h
    | code _ =>
      cases h
      cases w <;> exact hmem ..
  | _ => cases h

/-- What an assembler knows after operations: the bytes, the fields that are open, last first, and where
each label was bound last. -/
structure Assembled (ds : List Directive) (a : Assembler) : Prop where
  code : a.code.toList = text ds
  fixups : ∀ l e, Refers ds l e ↔ ∃ f ∈ a.fixups, f.target = l ∧ f.offset + 4 = e
  apart : a.fixups.Pairwise fun f g => g.offset + 4 ≤ f.offset
  labels : ∀ l p, a.labels.lookup l = some p ↔ BoundLast ds l p

namespace Assembled

theorem length (h : Assembled ds a) : a.length = (text ds).length := by
  rw [← h.code, Array.length_toList]
  rfl

theorem start : Assembled [] {} where
  code := rfl
  fixups l e := by
    constructor
    · rintro ⟨before, i, after, h, -⟩
      exact absurd h (by simp)
    · rintro ⟨f, hf, -⟩
      exact absurd hf List.not_mem_nil
  apart := .nil
  labels l p := by
    constructor
    · intro h
      cases h
    · rintro ⟨before, after, h, -⟩
      exact absurd h (by simp)

/-- An operation that only appends bytes. -/
theorem appends (h : Assembled ds a) (hcode : a'.code.toList = text (ds ++ [d]))
    (hfixups : a'.fixups = a.fixups) (hlabels : a'.labels = a.labels)
    (hinstr : ∀ i, d = .instr i → i.target? = none) (hbind : ∀ l, d ≠ .bind l) :
    Assembled (ds ++ [d]) a' where
  code := hcode
  fixups l e := by
    rw [refers_concat, hfixups, h.fixups, or_iff_left]
    rintro ⟨i, hi, ht, -⟩
    rw [hinstr i hi] at ht
    cases ht
  apart := hfixups ▸ h.apart
  labels l p := by
    rw [boundLast_concat, hlabels, h.labels, or_iff_right fun hd => hbind l hd.1]
    exact ⟨fun hl => ⟨hbind l, hl⟩, fun hl => hl.2⟩

theorem inside (h : Assembled ds a) (hf : f ∈ a.fixups) : f.offset + 4 ≤ a.length := by
  rw [h.length]
  exact Refers.le ((h.fixups _ _).mpr ⟨f, hf, rfl, rfl⟩)

theorem emit (h : Assembled ds a) (i : Instr Label) :
    Assembled (ds ++ [Directive.instr i]) (a.emit i) := by
  have hcode : (a.emit i).code.toList = text (ds ++ [Directive.instr i]) := by
    rw [Assembler.code_emit, text_concat, h.code]
    rfl
  cases ht : i.target? with
  | none =>
    have hemit : a.emit i = a.data (i.encode fun _ => 0) := by
      unfold Assembler.emit
      rw [ht]
    refine h.appends hcode ?_ ?_ (fun j hj => ?_) (fun _ hb => by cases hb)
    · rw [hemit]
      rfl
    · rw [hemit]
      rfl
    · cases hj
      exact ht
  | some t =>
    have hfixups : (a.emit i).fixups = ⟨(a.emit i).length - 4, t⟩ :: a.fixups := by
      unfold Assembler.emit
      rw [ht]
      rfl
    have hlabels : (a.emit i).labels = a.labels := by
      unfold Assembler.emit
      rw [ht]
      rfl
    have hlength : (a.emit i).length = (text (ds ++ [Directive.instr i])).length := by
      rw [← hcode, Array.length_toList]
      rfl
    have hroom : a.length + 4 ≤ (a.emit i).length := by
      obtain ⟨front, hfront⟩ := Instr.encode_target (fun _ => 0) ht
      rw [hlength, h.length, text_concat, List.length_append, Directive.bytes, hfront,
        List.length_append, bytes32, length_leBytes]
      omega
    refine ⟨hcode, fun l e => ?_, ?_, fun l p => ?_⟩
    · rw [refers_concat, hfixups, h.fixups, List.exists_mem_cons_iff, or_comm, ← hlength]
      refine or_congr ⟨?_, ?_⟩ .rfl
      · rintro ⟨j, hj, hl, he⟩
        cases hj
        rw [ht] at hl
        exact ⟨Option.some.inj hl, by dsimp only; omega⟩
      · rintro ⟨rfl, he⟩
        exact ⟨i, rfl, ht, by dsimp only at he; omega⟩
    · rw [hfixups]
      refine .cons (fun g hg => ?_) h.apart
      have hg := h.inside hg
      dsimp only
      omega
    · have hd : Directive.instr i ≠ .bind l := fun hb => by cases hb
      rw [boundLast_concat, hlabels, h.labels, or_iff_right fun h => hd h.1]
      exact ⟨fun hl => ⟨hd, hl⟩, fun hl => hl.2⟩

theorem bind (h : Assembled ds a) (k : Label) : Assembled (ds ++ [Directive.bind k]) (a.bind k) where
  code := by
    rw [text_concat, Directive.bytes, List.append_nil]
    exact h.code
  fixups l e := by
    rw [refers_concat, or_iff_left]
    · exact h.fixups l e
    · rintro ⟨i, hi, -⟩
      cases hi
  apart := h.apart
  labels l p := by
    rw [boundLast_concat, Assembler.bind, List.lookup_cons]
    by_cases hl : l = k
    · subst hl
      simp [h.length, eq_comm]
    · have hne : (l == k) = false := beq_eq_false_iff_ne.mpr hl
      simp [hne, h.labels, Ne.symm hl]

/-- One operation. -/
theorem apply (h : Assembled ds a) (hd : d.Possible) :
    ∃ a', a.apply d = .ok a' ∧ Assembled (ds ++ [d]) a' := by
  have hdata : ∀ bs, d.bytes (text ds).length = bs →
      (a.data bs).code.toList = text (ds ++ [d]) := fun bs hbs => by
    rw [text_concat, hbs, ← h.code]
    simp [Assembler.data]
  cases d with
  | instr i => exact ⟨_, rfl, h.emit i⟩
  | newLabel =>
    refine ⟨_, rfl, h.appends ?_ rfl rfl (fun _ hi => by cases hi) (fun _ hb => by cases hb)⟩
    rw [text_concat, Directive.bytes, List.append_nil]
    exact h.code
  | bind k => exact ⟨_, rfl, h.bind k⟩
  | align n fill =>
    have hpad := hdata (List.replicate ((-((text ds).length : Int)) % n).toNat fill) rfl
    rw [Assembler.apply, Assembler.align, if_neg (hd n fill rfl), h.length]
    exact ⟨_, rfl, h.appends hpad rfl rfl (fun _ hi => by cases hi) (fun _ hb => by cases hb)⟩
  | data bs =>
    exact ⟨_, rfl, h.appends (hdata bs rfl) rfl rfl (fun _ hi => by cases hi) (fun _ hb => by cases hb)⟩

end Assembled

/-- All operations, one after the other. -/
theorem assembled_of_possible (h : ∀ d ∈ ds, d.Possible) :
    ∃ a, Assembler.applyAll {} ds = .ok a ∧ Assembled ds a :=
  foldlM_keeps_done (P := Assembled)
    (fun _ d _ _ hds ha => ha.apply (h d (by rw [hds]; exact List.mem_append_right _ List.mem_cons_self)))
    .start

/-! ## Fields that are filled -/

/-- The fields hold the distances to their labels, and the other bytes are as they were. -/
structure Filled (a : Assembler) (fs : List Fixup) (code code' : Array UInt8) : Prop where
  size : code'.size = code.size
  field : ∀ f ∈ fs, ∃ place, a.labels.lookup f.target = some place ∧ ∀ i < 4,
    code'[f.offset + i]? = (bytes32 (Assembler.distance f.offset place))[i]?
  others : ∀ k, (∀ f ∈ fs, k < f.offset ∨ f.offset + 4 ≤ k) → code'[k]? = code[k]?

/-- Put the distance to its label into a field. -/
def Assembler.fillField (a : Assembler) (code : Array UInt8) (f : Fixup) : Outcome (Array UInt8) :=
  match a.labels.lookup f.target with
  | some place => .ok (patch code f.offset (bytes32 (distance f.offset place)))
  | none => .fail (.unboundLabel f.target)

theorem fillField_eq_ok (h : a.fillField code f = .ok code') : ∃ place,
    a.labels.lookup f.target = some place ∧
      code' = overwritten code f.offset (bytes32 (Assembler.distance f.offset place)) := by
  unfold Assembler.fillField at h
  split at h
  · next place hplace => exact ⟨place, hplace, (Except.ok.inj h).symm⟩
  · cases h

theorem Filled.fill (h : Filled a fs code code') (hf : a.fillField code' f = .ok code'')
    (hapart : ∀ g ∈ fs, g.offset + 4 ≤ f.offset) (hin : f.offset + 4 ≤ code.size) :
    Filled a (fs ++ [f]) code code'' := by
  obtain ⟨place, hplace, rfl⟩ := fillField_eq_ok hf
  have hlen : (bytes32 (Assembler.distance f.offset place)).length = 4 := length_leBytes 4 _
  refine ⟨?_, fun g hg => ?_, fun k hk => ?_⟩
  · rw [size_overwritten, h.size]
  · rcases List.mem_append.mp hg with hg | hg
    · obtain ⟨q, hq, hbytes⟩ := h.field g hg
      refine ⟨q, hq, fun i hi => ?_⟩
      have hbefore := hapart g hg
      rw [getElem?_overwritten, if_neg (by omega)]
      exact hbytes i hi
    · obtain rfl := List.mem_singleton.mp hg
      refine ⟨place, hplace, fun i hi => ?_⟩
      rw [getElem?_overwritten, hlen, h.size, if_pos (by omega), Nat.add_sub_cancel_left]
  · obtain ⟨hfs, hf⟩ := List.forall_mem_append.mp hk
    have hout := hf f List.mem_cons_self
    rw [getElem?_overwritten, hlen, if_neg (by omega)]
    exact h.others k hfs

theorem Filled.foldlM {done : List Fixup} (h : Filled a done code code')
    (hrun : fs.foldlM a.fillField code' = .ok code'')
    (hapart : (done ++ fs).Pairwise fun f g => f.offset + 4 ≤ g.offset)
    (hin : ∀ f ∈ fs, f.offset + 4 ≤ code.size) : Filled a (done ++ fs) code code'' := by
  induction fs generalizing done code' with
  | nil =>
    obtain rfl := Except.ok.inj hrun
    rwa [List.append_nil]
  | cons f fs ih =>
    rw [List.foldlM_cons, bind_eq_ok] at hrun
    obtain ⟨code₁, hstep, hrun⟩ := hrun
    rw [← List.singleton_append, ← List.append_assoc] at hapart ⊢
    refine ih (h.fill hstep (fun g hg => ?_) (hin f List.mem_cons_self)) hrun hapart fun g hg =>
      hin g (List.mem_cons_of_mem _ hg)
    exact (List.pairwise_append.mp (List.pairwise_append.mp hapart).1).2.2 g hg f
      (List.mem_singleton.mpr rfl)

/-- A field that is not filled names a label that is not bound. -/
theorem foldlM_fillField_error {err : Fault} (h : fs.foldlM a.fillField code = .error err) :
    ∃ f ∈ fs, a.labels.lookup f.target = none ∧ err = .failure (.unboundLabel f.target) := by
  induction fs generalizing code with
  | nil => cases h
  | cons f fs ih =>
    rw [List.foldlM_cons] at h
    cases hstep : a.fillField code f with
    | ok code₁ =>
      rw [hstep] at h
      obtain ⟨g, hg, hunbound⟩ := ih h
      exact ⟨g, List.mem_cons_of_mem _ hg, hunbound⟩
    | error err' =>
      rw [hstep] at h
      obtain rfl := Except.error.inj h
      unfold Assembler.fillField at hstep
      split at hstep
      · cases hstep
      · next hnone => exact ⟨f, List.mem_cons_self, hnone, (Except.error.inj hstep).symm⟩

theorem Assembled.filled (h : Assembled ds a) (hsize : code.size = a.length)
    (hfinish : ({ a with code := code } : Assembler).finish = .ok code') :
    Filled a a.fixups.reverse code code' := by
  have hin : ∀ f ∈ a.fixups.reverse, f.offset + 4 ≤ code.size := fun f hf => by
    rw [hsize]
    exact h.inside (List.mem_reverse.mp hf)
  have hapart : a.fixups.reverse.Pairwise fun f g => f.offset + 4 ≤ g.offset :=
    List.pairwise_reverse.mpr h.apart
  have hnone : Filled a [] code code := ⟨rfl, nofun, fun _ _ => rfl⟩
  exact hnone.foldlM hfinish hapart hin

/-- Fields that are filled are not changed by filling them. -/
theorem Filled.unique (h : Filled a fs code code') (h' : Filled a fs code' code'') : code'' = code' := by
  refine Array.ext_getElem? fun k => ?_
  by_cases hk : ∀ f ∈ fs, k < f.offset ∨ f.offset + 4 ≤ k
  · exact h'.others k hk
  · push Not at hk
    obtain ⟨f, hf, hle, hlt⟩ := hk
    obtain ⟨place, hplace, hbytes⟩ := h.field f hf
    obtain ⟨place', hplace', hbytes'⟩ := h'.field f hf
    obtain rfl := Option.some.inj (hplace.symm.trans hplace')
    have hat := (hbytes' (k - f.offset) (by omega)).trans (hbytes (k - f.offset) (by omega)).symm
    rwa [Nat.add_sub_cancel' hle] at hat

/-- What a field holds, read as a signed number. -/
theorem Filled.read (h : Filled a fs code code') (hf : f ∈ fs)
    (hp : a.labels.lookup f.target = some p) (hplace : p < 2147483648)
    (hoffset : f.offset + 4 < 2147483648) :
    ∃ disp rest, readInt32 (code'.toList.drop f.offset) = some (disp, rest) ∧
      disp.toInt + (f.offset + 4 : Nat) = p := by
  obtain ⟨place, hplace', hbytes⟩ := h.field f hf
  obtain rfl := Option.some.inj (hp.symm.trans hplace')
  set w := Assembler.distance f.offset p with hw
  have hlen : (bytes32 w).length = 4 := length_leBytes 4 _
  have hdrop : code'.toList.drop f.offset = bytes32 w ++ code'.toList.drop (f.offset + 4) := by
    refine List.ext_getElem? fun i => ?_
    rw [List.getElem?_drop, List.getElem?_append, hlen, Array.getElem?_toList]
    split
    · next hi => exact hbytes i hi
    · next hi =>
      rw [List.getElem?_drop, Array.getElem?_toList, Nat.add_assoc, Nat.add_sub_cancel' (by omega)]
  refine ⟨w.toInt32, _, by rw [hdrop, readInt32_bytes32], ?_⟩
  rw [hw, Assembler.distance, Int32.toInt32_toUInt32, Int32.toInt_ofInt_of_le (by omega) (by omega)]
  omega

/-! ## Finished code -/

/-- Finished code: every field holds the distance from its end to the place its label was bound to last,
and the bytes outside the fields are those of the operations. -/
structure Relocated (ds : List Directive) (code : Array UInt8) : Prop where
  size : code.size = (text ds).length
  field : ∀ l e, Refers ds l e → 4 ≤ e ∧ ∃ place disp rest, BoundLast ds l place ∧
    readInt32 (code.toList.drop (e - 4)) = some (disp, rest) ∧ disp.toInt + e = place
  others : ∀ k, (∀ l e, Refers ds l e → k < e - 4 ∨ e ≤ k) → code[k]? = (text ds)[k]?

/-- A field whose label was not bound. -/
theorem Assembled.unbound (h : Assembled ds a) (hf : f ∈ a.fixups)
    (hnone : a.labels.lookup f.target = none) :
    Refers ds f.target (f.offset + 4) ∧ .bind f.target ∉ ds := by
  refine ⟨(h.fixups _ _).mpr ⟨f, hf, rfl, rfl⟩, fun hbind => ?_⟩
  obtain ⟨place, hplace⟩ := exists_boundLast hbind
  rw [(h.labels _ _).mpr hplace] at hnone
  cases hnone

theorem Assembled.relocated (h : Assembled ds a) (hsize : (text ds).length < 2147483648)
    (hfilled : Filled a a.fixups.reverse a.code code) : Relocated ds code := by
  have hcode : a.code.size = (text ds).length := h.length
  refine ⟨hfilled.size.trans hcode, fun l e hl => ?_, fun k hk => ?_⟩
  · obtain ⟨f, hf, rfl, rfl⟩ := (h.fixups l e).mp hl
    have hfill := List.mem_reverse.mpr hf
    obtain ⟨place, hplace, -⟩ := hfilled.field f hfill
    have hbound := (h.labels _ _).mp hplace
    have hle := hbound.le
    have hin := h.inside hf
    rw [h.length] at hin
    obtain ⟨disp, rest, hread, hsum⟩ := hfilled.read hfill hplace (by omega) (by omega)
    exact ⟨Nat.le_add_left _ _, place, disp, rest, hbound, by rwa [Nat.add_sub_cancel], hsum⟩
  · rw [← h.code, Array.getElem?_toList]
    refine hfilled.others k fun f hf => ?_
    have hout := hk f.target (f.offset + 4) ((h.fixups _ _).mpr ⟨f, List.mem_reverse.mp hf, rfl, rfl⟩)
    rwa [Nat.add_sub_cancel] at hout

/-- Finishing what operations put together fails exactly if a label is named that was never bound, and
says which. Otherwise every code address is exact, no other byte changes, and finishing once more changes
nothing. -/
theorem relocation_exact (hds : ∀ d ∈ ds, d.Possible) (hsize : (text ds).length < 2147483648) :
    ∃ a, Assembler.applyAll {} ds = .ok a ∧ a.code.toList = text ds ∧
      ((∃ err, a.finish = .error err) ↔ ∃ l e, Refers ds l e ∧ .bind l ∉ ds) ∧
      (∀ err, a.finish = .error err →
        ∃ l e, Refers ds l e ∧ .bind l ∉ ds ∧ err = .failure (.unboundLabel l)) ∧
      ∀ code, a.finish = .ok code →
        Relocated ds code ∧ ({ a with code := code } : Assembler).finish = .ok code := by
  obtain ⟨a, ha, h⟩ := assembled_of_possible hds
  have hfault : ∀ (code : Array UInt8) err, ({ a with code := code } : Assembler).finish = .error err →
      ∃ l e, Refers ds l e ∧ .bind l ∉ ds ∧ err = .failure (.unboundLabel l) := fun code err herr => by
    obtain ⟨f, hf, hnone, rfl⟩ := foldlM_fillField_error herr
    obtain ⟨hrefers, hbind⟩ := h.unbound (List.mem_reverse.mp hf) hnone
    exact ⟨f.target, _, hrefers, hbind, rfl⟩
  have hdone : ∀ code, a.finish = .ok code → Filled a a.fixups.reverse a.code code :=
    fun code hcode => h.filled rfl hcode
  refine ⟨a, ha, h.code, ⟨?_, ?_⟩, hfault a.code,
    fun code hcode => ⟨h.relocated hsize (hdone code hcode), ?_⟩⟩
  · rintro ⟨err, herr⟩
    obtain ⟨l, e, hrefers, hbind, -⟩ := hfault a.code err herr
    exact ⟨l, e, hrefers, hbind⟩
  · rintro ⟨l, e, hrefers, hbind⟩
    cases hcode : a.finish with
    | error err => exact ⟨err, rfl⟩
    | ok code =>
      obtain ⟨-, place, -, -, hplace, -⟩ := (h.relocated hsize (hdone code hcode)).field l e hrefers
      exact absurd hplace.mem hbind
  · have hfirst := hdone code hcode
    cases hagain : ({ a with code := code } : Assembler).finish with
    | ok code' => rw [hfirst.unique (h.filled hfirst.size hagain)]
    | error err =>
      obtain ⟨l, e, hrefers, hbind, -⟩ := hfault code err hagain
      obtain ⟨-, place, -, -, hplace, -⟩ := (h.relocated hsize hfirst).field l e hrefers
      exact absurd hplace.mem hbind

/-- A label named from both sides of it, and one that is bound again behind padding. -/
def crossing : List Directive :=
  [.newLabel, .newLabel, .instr (.jmp 0), .bind 1, .bind 0, .instr (.jcc .e 0),
    .instr (.lea .rax (.code 1)), .align 8 0, .bind 1, .data [1, 2, 3, 4]]

/-- It is finished: all labels that are named are bound. -/
theorem relocation_exact_crossing :
    ∃ a code, Assembler.applyAll {} crossing = .ok a ∧ a.finish = .ok code ∧ Relocated crossing code := by
  have hpossible : ∀ d ∈ crossing, d.Possible := by simp [crossing, Directive.Possible]
  obtain ⟨a, ha, -, -, hfail, hcode⟩ := relocation_exact hpossible (by decide)
  cases hfinish : a.finish with
  | ok code => exact ⟨a, code, ha, hfinish, (hcode code hfinish).1⟩
  | error err =>
    obtain ⟨l, e, ⟨before, i, after, hsplit, htarget, -⟩, hbind, -⟩ := hfail err hfinish
    have hi : .instr i ∈ crossing := by
      rw [hsplit]
      exact List.mem_append_right _ List.mem_cons_self
    simp only [crossing, List.mem_cons, Directive.instr.injEq, reduceCtorEq, List.not_mem_nil, false_or,
      or_false] at hi
    rcases hi with rfl | rfl | rfl <;> cases htarget <;> exact absurd (by simp [crossing]) hbind

end SsaJit.X86
