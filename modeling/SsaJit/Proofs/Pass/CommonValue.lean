import SsaJit.Pass.CommonValue
import SsaJit.Proofs.Pass.Basic

/-! Sharing common values keeps functions good, and leaves no repeats. The table that goes down the
dominator tree holds the values of dominating blocks and the values met earlier in the same block, under
the keys that they still have: what they read was met before them and is not replaced any more, and work
on one subtree leaves the pure values outside it alone. So a value is replaced by one that dominates it
and does the same work on the same operands; and as the table holds them all, with no two under one key,
what is left of a block repeats nothing that comes before it. -/

namespace SsaJit

/-- The same operation with the same data, whatever the operands are. Read-only data is told apart by
its place in the module. -/
structure Value.SameWork (y z : Value) : Prop where
  op : y.op = z.op
  type : y.type = z.type
  aux : y.aux = z.aux
  lanes : y.lanes = z.lanes
  mask : y.mask = z.mask
  global : y.global.map Global.id = z.global.map Global.id

theorem Value.SameWork.refl (y : Value) : y.SameWork y := ⟨rfl, rfl, rfl, rfl, rfl, rfl⟩

theorem Value.SameWork.trans {x y z : Value} (h₁ : x.SameWork y) (h₂ : y.SameWork z) :
    x.SameWork z :=
  ⟨h₁.op.trans h₂.op, h₁.type.trans h₂.type, h₁.aux.trans h₂.aux, h₁.lanes.trans h₂.lanes,
    h₁.mask.trans h₂.mask, h₁.global.trans h₂.global⟩

namespace Func

variable {f g : Func} {b c d : BlockId} {u v w x : ValueId} {o : Operand}

/-! ## Keys -/

/-- The numbers of the operands, in order if the operation does not mind. -/
def ordered (op : Op) (l : List Nat) : List Nat :=
  match l with
  | [a, b] => if op.isCommutative && b < a then [b, a] else [a, b]
  | l => l

/-- The key of a value that reads these values. -/
def keyOf (y : Value) (l : List ValueId) : ValueKey where
  op := y.op
  type := y.type
  aux := y.aux
  args := ordered y.op l
  lanes := y.lanes
  mask := y.mask
  global := y.global.map Global.id

theorem valueKey_eq {y : Value} {l : List ValueId} (hargs : y.args = l.map .value) :
    f.valueKey y = .ok (keyOf y l) := by
  have hns : y.args.mapM f.number = .ok l := by
    rw [hargs, Outcome.mapM_eq_ok, List.forall₂_map_left_iff, List.forall₂_same]
    exact fun _ _ => rfl
  simp only [valueKey, hns, Outcome.ok_bind]
  rfl

theorem ordered_inj {op : Op} {l m : List Nat} (h : ordered op l = ordered op m) :
    l = m ∨ op.isCommutative = true ∧ ∃ a c, l = [a, c] ∧ m = [c, a] := by
  have hlen : ∀ l : List Nat, (ordered op l).length = l.length := by
    intro l
    unfold ordered
    split
    · split <;> rfl
    · rfl
  have hll : l.length = m.length := by rw [← hlen l, h, hlen]
  unfold ordered at h
  split at h
  · next a c =>
    obtain ⟨a', c', rfl⟩ := List.length_eq_two.mp hll.symm
    simp only [Bool.and_eq_true, decide_eq_true_eq] at h
    split at h <;> split at h <;> simp_all
  · next hno =>
    split at h
    · next a c => exact absurd (List.length_eq_two.mp hll) fun ⟨a', c', hl⟩ => hno a' c' hl
    · exact .inl h

theorem keyOf_inj {y z : Value} {l m : List ValueId} (h : keyOf y l = keyOf z m) :
    y.SameWork z ∧ (l = m ∨ z.op.isCommutative = true ∧ ∃ a c, l = [a, c] ∧ m = [c, a]) := by
  simp only [keyOf, ValueKey.mk.injEq] at h
  obtain ⟨hop, htype, haux, hargs, hlanes, hmask, hglobal⟩ := h
  exact ⟨⟨hop, htype, haux, hlanes, hmask, hglobal⟩, ordered_inj (hop ▸ hargs)⟩

theorem Ssa.exists_args (h : f.Ssa) (hb : b ∈ f.layout) (hv : v ∈ (f.block b).values)
    (hpure : (f.value v).isPure = true) : ∃ l : List ValueId, (f.value v).args = l.map .value := by
  obtain ⟨hphi, hparam, _⟩ := isPure_op hpure
  exact exists_values fun o ho => (h.before hb hv hphi hparam ho).isValue

/-! ## One value for another -/

/-- `g` has the graph of `f` and no values that `f` does not list, and those that were pure still are. -/
structure Sheds (f g : Func) : Prop where
  graph : SameGraph f g
  mem : ∀ d, ∀ x ∈ (g.block d).values, x ∈ (f.block d).values
  pure : ∀ x, (g.value x).isPure = (f.value x).isPure

theorem Sheds.refl (f : Func) : Sheds f f := ⟨.refl f, fun _ _ hx => hx, fun _ => rfl⟩

theorem Sheds.trans {k : Func} (h₁ : Sheds f g) (h₂ : Sheds g k) : Sheds f k :=
  ⟨h₁.graph.trans h₂.graph, fun d x hx => h₁.mem d x (h₂.mem d x hx),
    fun x => (h₂.pure x).trans (h₁.pure x)⟩

/-- The value `v` in `b` can give way to `w`, which comes before it and does the same work on the same
operands, in the same order if that matters. -/
structure Shares (f : Func) (b : BlockId) (v w : ValueId) : Prop where
  mem : v ∈ (f.block b).values
  reached : f.Reached b
  before : f.Before (.value w) v b
  pure : (f.value v).isPure = true
  source : (f.value w).isPure = true
  work : (f.value w).SameWork (f.value v)
  args : ∃ l m : List ValueId, (f.value w).args = l.map .value ∧ (f.value v).args = m.map .value ∧
    (l = m ∨ (f.value v).op.isCommutative = true ∧ ∃ a c, l = [a, c] ∧ m = [c, a])

namespace Shares

variable (h : f.Shares b v w) (hs : f.Ssa)
include h

theorem noStore : (f.value v).op ≠ .store := (isPure_op h.pure).2.2.1

theorem source_noStore : (f.value w).op ≠ .store := (isPure_op h.source).2.2.1

include hs

theorem block_mem : b ∈ f.layout := hs.flow.reached_mem h.reached

theorem ne : w ≠ v := h.before.ne hs.listing (h.block_mem hs) h.reached h.mem h.noStore

theorem covers : f.Covers w v :=
  .of_before hs.listing (h.block_mem hs) h.mem h.noStore h.work.type h.before

theorem ssa : (f.replaceValue v (.value w)).Ssa :=
  hs.replaceValue (h.block_mem hs) h.mem (h.ne hs) (h.covers hs)

theorem keeps : Keeps f (f.replaceValue v (.value w)) :=
  .replaceValue hs (h.block_mem hs) h.mem (h.covers hs)

theorem sheds : Sheds f (f.replaceValue v (.value w)) where
  graph := (h.keeps hs).graph
  mem _ _ hx := mem_of_mem_replaceValue hs (h.block_mem hs) h.mem hx
  pure x := by
    obtain ⟨a, ha⟩ := replaceValue_head (w := w) hs (h.block_mem hs) h.mem x
    rw [ha]
    rfl

theorem values : ((f.replaceValue v (.value w)).block b).values = (f.block b).values.erase v := by
  rw [values_replaceValue hs (h.block_mem hs) h.mem, if_pos rfl]

/-- A value that does not read the one replaced is left alone. -/
theorem value_of_unread (hd : d ∈ f.layout) (hx : x ∈ (f.block d).values) (hne : x ≠ v)
    (hunread : .value v ∉ (f.value x).args) :
    (f.replaceValue v (.value w)).value x = f.value x := by
  have hargs : (f.value x).args.map (swap (.value v) (.value w)) = (f.value x).args := by
    refine (List.map_congr_left fun o ho => ?_).trans (List.map_id _)
    exact if_neg fun heq : o = .value v => hunread (heq ▸ ho)
  rw [value_replaceValue_of_mem hs (h.block_mem hs) h.mem hd hx, hargs, if_neg hne]

/-- A value that comes before the one replaced is left alone. -/
theorem value_of_before (hx : f.Before (.value x) v b) (hpure : (f.value x).isPure = true) :
    (f.replaceValue v (.value w)).value x = f.value x := by
  obtain ⟨hphi, hparam, hstore, -⟩ := isPure_op hpure
  obtain ⟨d, hd, hxd⟩ := (hx.listed hs.listing).resolve_left hstore
  refine h.value_of_unread hs hd hxd
    (hx.ne hs.listing (h.block_mem hs) h.reached h.mem h.noStore) fun hread => ?_
  have hloop := (hs.before hd hxd hphi hparam hread).trans hs.listing (h.block_mem hs) hd hxd hstore hx
  exact hloop.ne hs.listing (h.block_mem hs) h.reached h.mem h.noStore rfl

/-- A pure value that the block of the one replaced does not dominate is left alone. -/
theorem value_outside (hx : (f.value x).block = some d) (hr : f.Reached d)
    (hout : ¬ f.Dominates b d) (hpure : (f.value x).isPure = true) :
    (f.replaceValue v (.value w)).value x = f.value x := by
  obtain ⟨hphi, hparam, -⟩ := isPure_op hpure
  obtain ⟨hd, hxd⟩ := (hs.listing.listed x d).mp hx
  have hblock := (hs.listing.listed v b).mpr ⟨h.block_mem hs, h.mem⟩
  refine h.value_of_unread hs hd hxd (fun heq => ?_) fun hread => ?_
  · subst heq
    obtain rfl : b = d := Option.some.inj (hblock.symm.trans hx)
    exact hout (.refl _ _ _)
  · obtain ⟨y, hy, hbefore⟩ := hs.before hd hxd hphi hparam hread
    obtain rfl : v = y := by simpa using hy
    obtain ⟨e, he, hor⟩ := (hbefore.resolve_left h.noStore).2 hr
    obtain rfl : b = e := Option.some.inj (hblock.symm.trans he)
    rcases hor with ⟨rfl, -⟩ | ⟨-, hdom⟩
    · exact hout (.refl _ _ _)
    · exact hout hdom

end Shares

/-! ## The values that are left -/

/-- `g` is `f` with values given up for others that come before them and do the same work: `σ` sends
each value to the one that stands for it. -/
structure Substituted (f g : Func) (σ : ValueId → ValueId) : Prop where
  kept : ∀ v, σ (σ v) = σ v
  earlier : ∀ v, σ v ≠ v → ∃ b, f.Reached b ∧ v ∈ (f.block b).values ∧ f.Earlier (σ v) v b
  pure : ∀ v, σ v ≠ v → (f.value v).isPure = true ∧ (f.value (σ v)).isPure = true
  work : ∀ v, (f.value (σ v)).SameWork (f.value v)
  value : ∀ b ∈ f.layout, ∀ v ∈ (f.block b).values, σ v = v →
    g.value v = { f.value v with args := (f.value v).args.map (rename σ) }
  values : ∀ b ∈ f.layout, (g.block b).values = (f.block b).values.filter (fun v => σ v = v)
  control : ∀ b ∈ f.layout, (g.block b).control = rename σ (f.block b).control

namespace Substituted

theorem refl (f : Func) : Substituted f f id where
  kept _ := rfl
  earlier _ h := absurd rfl h
  pure _ h := absurd rfl h
  work _ := .refl _
  value b _ v _ _ := by
    rw [show rename id = id from funext rename_id, List.map_id]
  values b _ := by simp
  control b _ := (rename_id _).symm

variable {k : Func} {σ : ValueId → ValueId}

/-- Only operands of what is left change. -/
theorem mem (h : Substituted f k σ) (hfk : SameGraph f k) (hd : d ∈ k.layout)
    (hx : x ∈ (k.block d).values) : d ∈ f.layout ∧ x ∈ (f.block d).values ∧ σ x = x ∧
      k.value x = { f.value x with args := (f.value x).args.map (rename σ) } := by
  have hdf : d ∈ f.layout := hfk.layout ▸ hd
  rw [h.values d hdf, List.mem_filter, decide_eq_true_iff] at hx
  exact ⟨hdf, hx.1, hx.2, h.value d hdf x hx.1 hx.2⟩

/-- What one value more is given up for comes before it in `f` too, and does the same work there. -/
theorem stands (h : Substituted f k σ) (hfk : SameGraph f k) (hs : k.Ssa) (hsh : k.Shares b v w) :
    f.Earlier w v b ∧ ((f.value v).isPure = true ∧ (f.value w).isPure = true) ∧
      (f.value w).SameWork (f.value v) := by
  obtain ⟨hb, -, -, hkv⟩ := h.mem hfk (hsh.block_mem hs) hsh.mem
  obtain ⟨d, hdk, hwd⟩ := (hsh.before.listed hs.listing).resolve_left hsh.source_noStore
  obtain ⟨-, -, -, hkw⟩ := h.mem hfk hdk hwd
  refine ⟨?_, ⟨?_, ?_⟩, ?_⟩
  · obtain ⟨w', hw', hbefore⟩ := hsh.before
    obtain rfl : w = w' := by simpa using hw'
    obtain ⟨e, he, hor⟩ := (hbefore.resolve_left hsh.source_noStore).2 hsh.reached
    rw [hkw] at he
    refine ⟨e, he, hor.imp (fun ⟨heq, hsub⟩ => ⟨heq, ?_⟩) fun ⟨heq, hdom⟩ =>
      ⟨heq, hfk.dominates.mp hdom⟩⟩
    rw [h.values b hb] at hsub
    exact hsub.trans List.filter_sublist
  · have hv := hsh.pure
    rwa [hkv] at hv
  · have hw := hsh.source
    rwa [hkw] at hw
  · obtain ⟨h₁, h₂, h₃, h₄, h₅, h₆⟩ := hsh.work
    rw [hkv, hkw] at h₁ h₂ h₃ h₄ h₅ h₆
    exact ⟨h₁, h₂, h₃, h₄, h₅, h₆⟩

/-- What stands for itself when `v` is given up for `w`, which does so now. -/
theorem fixed_iff (hσw : σ w = w) (hne : w ≠ v) (x : ValueId) :
    (if σ x = v then w else σ x) = x ↔ σ x = x ∧ x ≠ v := by
  split
  · next heq =>
    refine ⟨?_, fun hx => absurd (hx.1.symm.trans heq) hx.2⟩
    rintro rfl
    exact absurd (hσw.symm.trans heq) hne
  · next hxv => exact ⟨fun heq => ⟨heq, heq ▸ hxv⟩, And.left⟩

/-- What a block lists is what it listed without the value that goes. -/
theorem values_share (h : Substituted f k σ) (hfk : SameGraph f k) (hs : k.Ssa)
    (hsh : k.Shares b v w) (hσw : σ w = w) (hd : d ∈ f.layout) :
    ((k.replaceValue v (.value w)).block d).values =
      (f.block d).values.filter fun x => (if σ x = v then w else σ x) = x := by
  have hbk := hsh.block_mem hs
  have hfilter : ((f.block d).values.filter fun x => decide ((if σ x = v then w else σ x) = x)) =
      ((f.block d).values.filter fun x => σ x = x).filter (· != v) := by
    rw [List.filter_filter]
    refine List.filter_congr fun x _ => ?_
    rw [Bool.eq_iff_iff, decide_eq_true_iff, fixed_iff hσw (hsh.ne hs)]
    simp [and_comm]
  rw [hfilter, ← h.values d hd, values_replaceValue hs hbk hsh.mem]
  split
  · next heq => rw [heq, (hs.listing.nodup b hbk).erase_eq_filter]
  · next hdb =>
    refine (List.filter_eq_self.mpr fun x hx => ?_).symm
    have hdk : d ∈ k.layout := hfk.layout ▸ hd
    simpa using fun heq : x = v => hdb (hs.listing.unique hdk hbk (heq ▸ hx) hsh.mem)

/-- One value more gives way. -/
theorem share (h : Substituted f k σ) (hfk : SameGraph f k) (hf : f.Ssa) (hs : k.Ssa)
    (hsh : k.Shares b v w) : Substituted f (k.replaceValue v (.value w))
      fun x => if σ x = v then w else σ x := by
  have hbk := hsh.block_mem hs
  obtain ⟨hb, hvb, -, -⟩ := h.mem hfk hbk hsh.mem
  obtain ⟨d, hdk, hwd⟩ := (hsh.before.listed hs.listing).resolve_left hsh.source_noStore
  obtain ⟨-, -, hσw, -⟩ := h.mem hfk hdk hwd
  obtain ⟨hearly, hpure, hwork⟩ := h.stands hfk hs hsh
  have hne := hsh.ne hs
  refine ⟨fun x => ?_, fun x hx => ?_, fun x hx => ?_, fun x => ?_, fun c hc x hx hσx => ?_,
    fun c hc => h.values_share hfk hs hsh hσw hc, fun c hc => ?_⟩
  · split
    · rw [hσw, if_neg hne]
    · next hxv => rw [h.kept, if_neg hxv]
  · split at hx
    · next heq =>
      rw [if_pos heq]
      by_cases hxv : σ x = x
      · obtain rfl : x = v := hxv.symm.trans heq
        exact ⟨b, hfk.reached.mp hsh.reached, hvb, hearly⟩
      · obtain ⟨c, hrc, hxc, hvx⟩ := h.earlier x hxv
        rw [heq] at hvx
        exact ⟨c, hrc, hxc, hearly.trans hf.listing (hf.flow.reached_mem hrc) hrc
          ((hf.listing.listed v b).mpr ⟨hb, hvb⟩) hvx⟩
    · next hxv =>
      rw [if_neg hxv]
      exact h.earlier x hx
  · split at hx
    · next heq =>
      rw [if_pos heq]
      by_cases hxv : σ x = x
      · obtain rfl : x = v := hxv.symm.trans heq
        exact hpure
      · exact ⟨(h.pure x hxv).1, hpure.2⟩
    · next hxv =>
      rw [if_neg hxv]
      exact h.pure x hx
  · split
    · next heq => exact hwork.trans (heq ▸ h.work x)
    · exact h.work x
  · obtain ⟨hσ, hxv⟩ := (fixed_iff hσw hne x).mp hσx
    have hck : c ∈ k.layout := hfk.layout ▸ hc
    have hxk : x ∈ (k.block c).values := by
      rw [h.values c hc, List.mem_filter]
      exact ⟨hx, by simpa using hσ⟩
    rw [value_replaceValue_of_mem hs hbk hsh.mem hck hxk, h.value c hc x hx hσ, if_neg hxv,
      List.map_map, show swap (.value v) (.value w) ∘ rename σ = _ from funext (swap_rename σ v w)]
  · rw [(control_replaceValue hs hbk hsh.mem (hfk.layout ▸ hc)).1, h.control c hc, swap_rename]

end Substituted

/-! ## The table -/

/-- An entry of the table holds a pure value of block `d` under its key. -/
structure Entered (f : Func) (e : ValueKey × ValueId) (d : BlockId) : Prop where
  block : (f.value e.2).block = some d
  pure : (f.value e.2).isPure = true
  key : ∃ l : List ValueId, (f.value e.2).args = l.map .value ∧ keyOf (f.value e.2) l = e.1

theorem Entered.of_eq {e : ValueKey × ValueId} (h : Entered f e d)
    (heq : g.value e.2 = f.value e.2) : Entered g e d :=
  ⟨heq ▸ h.block, heq ▸ h.pure, heq ▸ h.key⟩

theorem Entered.valueKey {e : ValueKey × ValueId} (h : Entered f e d) :
    f.valueKey (f.value e.2) = .ok e.1 := by
  obtain ⟨l, hargs, hkey⟩ := h.key
  rw [valueKey_eq hargs, hkey]

theorem Ssa.entered (h : f.Ssa) (hd : d ∈ f.layout) (hx : x ∈ (f.block d).values)
    (hpure : (f.value x).isPure = true) : ∃ key, Entered f (key, x) d := by
  obtain ⟨l, hargs⟩ := h.exists_args hd hx hpure
  exact ⟨keyOf (f.value x) l, (h.listing.listed x d).mpr ⟨hd, hx⟩, hpure, l, hargs, rfl⟩

/-- The table holds the pure values that `R` names with their blocks, each under its key, and no two
under one key. -/
structure Table (f : Func) (seen : Available) (R : BlockId → ValueId → Prop) : Prop where
  nodup : (seen.map Prod.fst).Nodup
  mem_iff : ∀ e, e ∈ seen ↔ ∃ d, R d e.2 ∧ Entered f e d

theorem Table.congr {seen : Available} {R S : BlockId → ValueId → Prop} (h : Table f seen R)
    (hRS : ∀ d x, (f.value x).block = some d → (f.value x).isPure = true → (R d x ↔ S d x)) :
    Table f seen S :=
  ⟨h.nodup, fun e => (h.mem_iff e).trans <| exists_congr fun d =>
    and_congr_left fun he => hRS d e.2 he.block he.pure⟩

/-- No pure value of `b` has the key of another one, there or in a block that dominates `b`. -/
def Unrepeated (f : Func) (b : BlockId) : Prop :=
  ∀ key d v w, f.Dominates d b → Entered f (key, w) d → Entered f (key, v) b → w = v

/-- A block has no repeats once the table holds its values and those of the blocks above it. -/
theorem Table.unrepeated {seen : Available} (h : Table f seen fun d _ => f.Dominates d b) :
    f.Unrepeated b := by
  intro key d v w hdom hw hv
  have hsame := List.inj_on_of_nodup_map h.nodup ((h.mem_iff (key, w)).mpr ⟨d, hdom, hw⟩)
    ((h.mem_iff (key, v)).mpr ⟨b, .refl _ _ _, hv⟩) rfl
  exact (Prod.mk.inj hsame).2

/-- The pure values of `f` in blocks that control comes to and where `Q` does not hold are in `g` as they
were. -/
def Within (f g : Func) (Q : BlockId → Prop) : Prop :=
  ∀ x d, (f.value x).block = some d → f.Reached d → ¬ Q d → (f.value x).isPure = true →
    g.value x = f.value x

namespace Within

variable {Q R : BlockId → Prop}

theorem refl (f : Func) (Q : BlockId → Prop) : Within f f Q := fun _ _ _ _ _ _ => rfl

theorem trans {k : Func} (h₁ : Within f g Q) (hfg : SameGraph f g) (h₂ : Within g k Q) :
    Within f k Q := by
  intro x d hd hr hQ hpure
  have h := h₁ x d hd hr hQ hpure
  exact (h₂ x d (h ▸ hd) (hfg.reached.mpr hr) hQ (h ▸ hpure)).trans h

theorem mono (h : Within f g Q) (hQR : ∀ d, Q d → R d) : Within f g R :=
  fun x d hd hr hR => h x d hd hr fun hQ => hR (hQR d hQ)

variable (h : Within f g Q) (hk : Sheds f g) (hf : f.Ssa) (hg : g.Ssa)
include h hk hf hg

/-- A block where `Q` does not hold has the entries it had. -/
theorem entered_iff {e : ValueKey × ValueId} (hr : f.Reached d) (hQ : ¬ Q d) :
    Entered g e d ↔ Entered f e d := by
  refine ⟨fun he => ?_, fun he => he.of_eq (h e.2 d he.block hr hQ he.pure)⟩
  obtain ⟨hd, hx⟩ := (hg.listing.listed e.2 d).mp he.block
  have hblock := (hf.listing.listed e.2 d).mpr ⟨hk.graph.layout ▸ hd, hk.mem d e.2 hx⟩
  exact he.of_eq (h e.2 d hblock hr hQ ((hk.pure e.2).symm.trans he.pure)).symm

theorem table {seen : Available} {S : BlockId → ValueId → Prop} (ht : Table f seen S)
    (hS : ∀ d x, S d x → f.Reached d ∧ ¬ Q d) : Table g seen S :=
  ⟨ht.nodup, fun e => (ht.mem_iff e).trans <| exists_congr fun d =>
    and_congr_right fun hd => (h.entered_iff hk hf hg (hS d e.2 hd).1 (hS d e.2 hd).2).symm⟩

theorem unrepeated (hb : f.Unrepeated b) (hr : f.Reached b) (hQ : ∀ d, f.Dominates d b → ¬ Q d) :
    g.Unrepeated b := by
  intro key d v w hdom hw hv
  have hdom := hk.graph.dominates.mp hdom
  exact hb key d v w hdom ((h.entered_iff hk hf hg (hdom.reach hr) (hQ d hdom)).mp hw)
    ((h.entered_iff hk hf hg hr (hQ b (.refl _ _ _))).mp hv)

end Within

/-! ## Runs -/

/-- What is kept when a value gives way to one that does the same. -/
def KeptByShares (P : Func → Prop) : Prop :=
  ∀ k b v w, k.Ssa → P k → k.Shares b v w → P (k.replaceValue v (.value w))

/-- In a function that `P` holds of, a value can give way. -/
def CanShare (P : Func → Prop) : Prop := ∃ k b v w, k.Ssa ∧ P k ∧ k.Shares b v w

/-- What a run that shares the values of the blocks of `Q` makes of `f`; `ch` reports a change. -/
structure Sharing (P : Func → Prop) (f g : Func) (Q : BlockId → Prop) (ch : Bool) : Prop where
  ssa : g.Ssa
  kept : P g
  sheds : Sheds f g
  within : Within f g Q
  reported : ch = true → CanShare P

section runs

variable {P : Func → Prop} {Q R : BlockId → Prop} {k : Func} {ch ch' : Bool}

theorem Sharing.refl (hf : f.Ssa) (hP : P f) (Q : BlockId → Prop) : Sharing P f f Q false :=
  ⟨hf, hP, .refl f, .refl f Q, nofun⟩

theorem Sharing.trans (h₁ : Sharing P f g Q ch) (h₂ : Sharing P g k Q ch') :
    Sharing P f k Q (ch || ch') where
  ssa := h₂.ssa
  kept := h₂.kept
  sheds := h₁.sheds.trans h₂.sheds
  within := h₁.within.trans h₁.sheds.graph h₂.within
  reported hch := (Bool.or_eq_true_iff.mp hch).elim h₁.reported h₂.reported

theorem Sharing.mono (h : Sharing P f g Q ch) (hQR : ∀ d, Q d → R d) : Sharing P f g R ch :=
  ⟨h.ssa, h.kept, h.sheds, h.within.mono hQR, h.reported⟩

end runs

/-! ## One block -/

/-- The values met before the rest of block `b`: those of blocks passed before, and `done` of `b`. -/
def Met (f : Func) (b : BlockId) (done : List ValueId) (d : BlockId) (x : ValueId) : Prop :=
  f.Dominates d b ∧ (d = b → x ∈ done)

theorem Met.mono {done : List ValueId} (h : f.Met b done d x) :
    f.Met b (done ++ [v]) d x :=
  ⟨h.1, fun hd => List.mem_append_left _ (h.2 hd)⟩

theorem Met.of_ne {done : List ValueId} (h : f.Met b (done ++ [v]) d x) (hne : x ≠ v) :
    f.Met b done d x :=
  ⟨h.1, fun hd => (List.mem_append.mp (h.2 hd)).resolve_right (by simpa using hne)⟩

/-- What holds of the function `k` and the table when the values `done` of a block of `f` are
shared. -/
structure Underway (P : Func → Prop) (f : Func) (b : BlockId) (done : List ValueId) (k : Func)
    (seen : Available) (ch : Bool) : Prop extends Sharing P f k (f.Dominates b) ch where
  values : ∃ p : ValueId → Bool, (k.block b).values = (f.block b).values.filter p ∧
    ∀ x ∈ (f.block b).values, x ∉ done → p x = true
  table : Table k seen (f.Met b done)

section block

variable {P : Func → Prop} {done rest : List ValueId} {k : Func} {seen : Available} {ch : Bool}

/-- The next value is still there. -/
theorem Underway.mem (h : Underway P f b done k seen ch) (hf : f.Ssa) (hb : b ∈ f.layout)
    (hl : (f.block b).values = done ++ v :: rest) : v ∈ (k.block b).values ∧ v ∉ done := by
  have hnd := hf.listing.nodup b hb
  have hvd : v ∉ done := by
    rw [hl] at hnd
    exact fun hm => (List.disjoint_of_nodup_append hnd) hm List.mem_cons_self
  obtain ⟨p, hp, hkeep⟩ := h.values
  have hm : v ∈ (f.block b).values := by simp [hl]
  rw [hp, List.mem_filter]
  exact ⟨⟨hm, hkeep v hm hvd⟩, hvd⟩

/-- What was met comes before the next value. -/
theorem Underway.before (h : Underway P f b done k seen ch) (hf : f.Ssa) (hb : b ∈ f.layout)
    (hl : (f.block b).values = done ++ v :: rest) (hx : (k.value x).block = some d)
    (hmet : f.Met b done d x) : k.Before (.value x) v b := by
  obtain ⟨hvk, hvd⟩ := h.mem hf hb hl
  refine ⟨x, rfl, .inr ⟨by rw [hx]; rfl, fun _ => ⟨d, hx, ?_⟩⟩⟩
  by_cases hdb : d = b
  · subst hdb
    refine .inl ⟨rfl, ?_⟩
    have hmem := ((h.ssa.listing.listed x d).mp hx).2
    obtain ⟨p, hp, _⟩ := h.values
    rw [hp] at hmem hvk ⊢
    have hsub : [x, v].Sublist (f.block d).values := by
      rw [hl]
      exact (List.singleton_sublist.mpr (hmet.2 rfl)).append
        (List.singleton_sublist.mpr List.mem_cons_self)
    simpa [(List.mem_filter.mp hmem).2, (List.mem_filter.mp hvk).2] using hsub.filter p
  · exact .inr ⟨hdb, h.sheds.graph.dominates.mpr hmet.1⟩

/-- One step through the values of a block. -/
def shareStep (s : Func × Available × Bool) (v : ValueId) : Outcome (Func × Available × Bool) :=
  if !(s.1.value v).isPure then .ok s
  else s.1.valueKey (s.1.value v) >>= fun key =>
    match s.2.1.lookup key with
    | some w => .ok (s.1.replaceValue v (.value w), s.2.1, true)
    | none => .ok (s.1, (key, v) :: s.2.1, s.2.2)

theorem shareBlock_eq {seen : Available} :
    f.shareBlock seen b = (f.block b).values.foldlM shareStep (f, seen, false) := rfl

/-- A value whose key is in the table can give way to the one there. -/
theorem Underway.shares (h : Underway P f b done k seen ch) (hf : f.Ssa) (hr : f.Reached b)
    (hl : (f.block b).values = done ++ v :: rest) (hpure : (k.value v).isPure = true)
    {l : List ValueId} (hargs : (k.value v).args = l.map .value)
    (he : (keyOf (k.value v) l, w) ∈ seen) : k.Shares b v w := by
  have hb := hf.flow.reached_mem hr
  obtain ⟨d, hmet, hent⟩ := (h.table.mem_iff _).mp he
  obtain ⟨m, hm, hkey⟩ := hent.key
  obtain ⟨hwork, hor⟩ := keyOf_inj hkey
  exact ⟨(h.mem hf hb hl).1, h.sheds.graph.reached.mpr hr, h.before hf hb hl hent.block hmet, hpure,
    hent.pure, hwork, m, l, hm, hargs, hor⟩

theorem Underway.replace (h : Underway P f b done k seen ch) (hP : KeptByShares P) (hf : f.Ssa)
    (hr : f.Reached b) (hl : (f.block b).values = done ++ v :: rest) (hsh : k.Shares b v w) :
    Underway P f b (done ++ [v]) (k.replaceValue v (.value w)) seen true := by
  have hb := hf.flow.reached_mem hr
  have hsheds := hsh.sheds h.ssa
  have hstep : Sharing P k (k.replaceValue v (.value w)) (f.Dominates b) true :=
    ⟨hsh.ssa h.ssa, hP k b v w h.ssa h.kept hsh, hsheds, fun x d hd hrd hbd hpure =>
      hsh.value_outside h.ssa hd hrd (fun hdom => hbd (h.sheds.graph.dominates.mp hdom)) hpure,
      fun _ => ⟨k, b, v, w, h.ssa, h.kept, hsh⟩⟩
  obtain ⟨p, hp, hkeep⟩ := h.values
  refine ⟨by simpa using h.toSharing.trans hstep, ⟨fun x => p x && x != v, ?_, fun x hx hn => ?_⟩,
    h.table.nodup, fun e => (h.table.mem_iff e).trans (exists_congr fun d => ⟨?_, ?_⟩)⟩
  · rw [hsh.values h.ssa, (h.ssa.listing.nodup b (hsh.block_mem h.ssa)).erase_eq_filter, hp,
      List.filter_filter]
    exact List.filter_congr fun x _ => Bool.and_comm _ _
  · have hxd : x ∉ done := fun hm => hn (List.mem_append_left _ hm)
    have hxv : x ≠ v := fun heq => hn (by simp [heq])
    simp [hkeep x hx hxd, hxv]
  · rintro ⟨hmet, he⟩
    exact ⟨hmet.mono, he.of_eq
      (hsh.value_of_before h.ssa (h.before hf hb hl he.block hmet) he.pure)⟩
  · rintro ⟨hmet, he⟩
    obtain ⟨a, ha⟩ := replaceValue_head (w := w) h.ssa (hsh.block_mem h.ssa) hsh.mem e.2
    have hblock := he.block
    -- the value that gave way stands in no block any more
    rw [ha] at hblock
    obtain ⟨hne, hblock⟩ : e.2 ≠ v ∧ (k.value e.2).block = some d := by simpa using hblock
    have hmet := hmet.of_ne hne
    exact ⟨hmet, he.of_eq (hsh.value_of_before h.ssa (h.before hf hb hl hblock hmet)
      ((hsheds.pure e.2).symm.trans he.pure)).symm⟩

/-- A value that the table does not know goes into it. -/
theorem Table.enter {key : ValueKey} (h : Table k seen (f.Met b done))
    (hlook : seen.lookup key = none) (hv : Entered k (key, v) b) :
    Table k ((key, v) :: seen) (f.Met b (done ++ [v])) := by
  refine ⟨List.nodup_cons.mpr ⟨fun hm => ?_, h.nodup⟩, fun e => ⟨fun he => ?_, ?_⟩⟩
  · obtain ⟨e, he, rfl⟩ := List.mem_map.mp hm
    simpa using List.lookup_eq_none_iff.mp hlook e he
  · rcases List.mem_cons.mp he with rfl | he
    · exact ⟨b, ⟨.refl _ _ _, fun _ => by simp⟩, hv⟩
    · obtain ⟨d, hmet, hent⟩ := (h.mem_iff e).mp he
      exact ⟨d, hmet.mono, hent⟩
  · rintro ⟨d, hmet, hent⟩
    by_cases hev : e.2 = v
    · have hkey := hent.valueKey
      rw [hev] at hkey
      have heq : e = (key, v) := Prod.ext (Except.ok.inj (hkey.symm.trans hv.valueKey)) hev
      exact heq ▸ List.mem_cons_self
    · exact List.mem_cons_of_mem _ ((h.mem_iff e).mpr ⟨d, hmet.of_ne hev, hent⟩)

theorem Underway.step (h : Underway P f b done k seen ch) (hP : KeptByShares P) (hf : f.Ssa)
    (hr : f.Reached b) (hl : (f.block b).values = done ++ v :: rest) :
    ∃ s, shareStep (k, seen, ch) v = .ok s ∧ Underway P f b (done ++ [v]) s.1 s.2.1 s.2.2 := by
  have hb := hf.flow.reached_mem hr
  obtain ⟨hvk, hvd⟩ := h.mem hf hb hl
  have hbk : b ∈ k.layout := h.sheds.graph.layout ▸ hb
  have hvals : ∃ p : ValueId → Bool, (k.block b).values = (f.block b).values.filter p ∧
      ∀ x ∈ (f.block b).values, x ∉ done ++ [v] → p x = true := by
    obtain ⟨p, hp, hkeep⟩ := h.values
    exact ⟨p, hp, fun x hx hn => hkeep x hx fun hm => hn (List.mem_append_left _ hm)⟩
  unfold shareStep
  cases hpure : (k.value v).isPure with
  | false =>
    refine ⟨_, rfl, h.toSharing, hvals, h.table.congr fun d x _ hx => ⟨Met.mono, fun hp => ?_⟩⟩
    exact hp.of_ne fun heq => by simp [heq, hpure] at hx
  | true =>
    obtain ⟨l, hargs⟩ := h.ssa.exists_args hbk hvk hpure
    simp only [Bool.not_true, Bool.false_eq_true, if_false, valueKey_eq hargs, Outcome.ok_bind]
    cases hlook : seen.lookup (keyOf (k.value v) l) with
    | none =>
      exact ⟨_, rfl, h.toSharing, hvals, h.table.enter hlook
        ⟨(h.ssa.listing.listed v b).mpr ⟨hbk, hvk⟩, hpure, l, hargs, rfl⟩⟩
    | some w =>
      have he : (keyOf (k.value v) l, w) ∈ seen := by
        obtain ⟨l₁, l₂, rfl, _⟩ := List.lookup_eq_some_iff.mp hlook
        simp
      exact ⟨_, rfl, h.replace hP hf hr hl (h.shares hf hr hl hpure hargs he)⟩

/-- Sharing the values of a block fills the table up with those that are left. -/
theorem shareBlock_spec (hP : KeptByShares P) (hf : f.Ssa) (hPf : P f) (hr : f.Reached b)
    (ht : Table f seen fun d _ => f.Dominates d b ∧ d ≠ b) : ∃ s, f.shareBlock seen b = .ok s ∧
      Sharing P f s.1 (f.Dominates b) s.2.2 ∧ Table s.1 s.2.1 fun d _ => f.Dominates d b := by
  have hrun := Outcome.foldlM_keeps_done (l := (f.block b).values) (b := (f, seen, false))
    (P := fun done s => Underway P f b done s.1 s.2.1 s.2.2) (g := shareStep) ?_ ?_
  · obtain ⟨s, hs, hsh⟩ := hrun
    refine ⟨s, hs, hsh.toSharing, hsh.table.congr fun d x hx _ => ⟨And.left, fun hd => ⟨hd, ?_⟩⟩⟩
    rintro rfl
    exact hsh.sheds.mem d x ((hsh.ssa.listing.listed x d).mp hx).2
  · rintro done v rest ⟨k, seen, ch⟩ hl hsh
    exact hsh.step hP hf hr hl
  · exact ⟨.refl hf hPf _, ⟨fun _ => true, by simp, fun _ _ _ => rfl⟩,
      ht.congr fun d x _ _ => and_congr_right fun _ => by simp⟩

/-! ## The tree -/

/-- What holds when a block `b` and the blocks under its children `done` are shared: the table is still
that of the block, and no value repeats another under those children. -/
structure Descent (P : Func → Prop) (f₀ f : Func) (b : BlockId) (seen : Available)
    (done : List BlockId) (g : Func) (ch : Bool) : Prop
    extends Sharing P f g (f₀.Dominates b) ch where
  table : Table g seen fun d _ => f₀.Dominates d b
  below : ∀ c ∈ done, ∀ e, f₀.Reached e → f₀.Dominates c e → g.Unrepeated e

variable {t : DomTree} {f₀ : Func}

/-- One child more. -/
theorem Descent.child {cs cs' : List BlockId} {ch' : Bool} (h : Descent P f₀ f b seen cs k ch)
    (ht : t.Of f₀ f₀.start) (hg : SameGraph f₀ f) (hr : f₀.Reached b)
    (hcs : t.childrenOf b = cs ++ c :: cs') (hsh : Sharing P k g (f₀.Dominates c) ch')
    (hnone : ∀ e, f₀.Reached e → f₀.Dominates c e → g.Unrepeated e) :
    Descent P f₀ f b seen (cs ++ [c]) g (ch || ch') := by
  have hc : c ∈ t.childrenOf b := by simp [hcs]
  obtain ⟨hrc, hbc, hne⟩ := ht.child_spec hr hc
  have hgk := hg.trans h.sheds.graph
  refine ⟨h.toSharing.trans (hsh.mono fun d hcd => hbc.trans hcd),
    hsh.within.table hsh.sheds h.ssa hsh.ssa h.table fun d _ hdb => ⟨hgk.reached.mpr (hdb.reach hr),
      fun hcd => hne (hbc.antisymm hrc (hcd.trans hdb))⟩, fun c' hc' e hre hce => ?_⟩
  rcases List.mem_append.mp hc' with hold | hnew
  · refine hsh.within.unrepeated hsh.sheds h.ssa hsh.ssa (h.below c' hold e hre hce) (hgk.reached.mpr hre)
      fun d hde hcd => ?_
    have hnd := ht.nodup_childrenOf hr
    rw [hcs] at hnd
    have heq := ht.child_unique hr (by simp [hcs, hold]) hc hre hce
      (hcd.trans (hgk.dominates.mp hde))
    exact (List.disjoint_of_nodup_append hnd) hold (heq ▸ List.mem_cons_self)
  · obtain rfl : c' = c := by simpa using hnew
    exact hnone e hre hce

theorem shareTree_spec (hP : KeptByShares P) (ht : t.Of f₀ f₀.start) (fuel : Nat) :
    ∀ (f : Func) (seen : Available) (b : BlockId), f.Ssa → P f → SameGraph f₀ f → f₀.Reached b →
      f₀.numBlocks ≤ t.rpo.idxOf b + fuel →
      (Table f seen fun d _ => f₀.Dominates d b ∧ d ≠ b) →
      ∃ g ch, shareTree t fuel f seen b = .ok (g, ch) ∧ Sharing P f g (f₀.Dominates b) ch ∧
        ∀ e, f₀.Reached e → f₀.Dominates b e → g.Unrepeated e := by
  induction fuel with
  | zero =>
    intro f seen b _ _ _ hr hfuel _
    have := ht.idxOf_lt hr
    omega
  | succ fuel ih =>
    intro f seen b hf hPf hg hr hfuel htable
    obtain ⟨⟨k, seen', ch⟩, hk, hsh, htab⟩ := shareBlock_spec hP hf hPf (hg.reached.mpr hr)
      (htable.congr fun d x _ _ => and_congr_left' hg.dominates.symm)
    have hrun := Outcome.foldlM_keeps_done (l := t.childrenOf b) (b := (k, ch))
      (P := fun cs s => Descent P f₀ f b seen' cs s.1 s.2)
      (g := fun s c => shareTree t fuel s.1 seen' c >>= fun r => .ok (r.1, s.2 || r.2)) ?_ ?_
    · obtain ⟨⟨g, ch'⟩, hg', hdone⟩ := hrun
      refine ⟨g, ch', by rw [shareTree, hk]; exact hg', hdone.toSharing, fun e hre hbe => ?_⟩
      by_cases heq : b = e
      · subst heq
        exact (hdone.table.congr fun d x _ _ =>
          (hg.trans hdone.sheds.graph).dominates.symm).unrepeated
      · obtain ⟨c, hc, hce⟩ := ht.exists_child hre hbe heq
        exact hdone.below c hc e hre hce
    · rintro cs c cs' ⟨m, ch'⟩ hcs hdesc
      have hc : c ∈ t.childrenOf b := by simp [hcs]
      obtain ⟨hrc, -, hidom⟩ := ht.mem_childrenOf hr hc
      have hlt := ht.idxOf_idom hidom
      obtain ⟨g, ch'', hg', hshc, hnone⟩ := ih m seen' c hdesc.ssa hdesc.kept
        (hg.trans hdesc.sheds.graph) hrc (by omega)
        (hdesc.table.congr fun d x _ _ => (ht.dom_child_iff hr hc).symm)
      exact ⟨(g, ch' || ch''), by simp [hg'], hdesc.child ht hg hr hcs hshc hnone⟩
    · exact ⟨hsh.mono fun d hbd => hg.dominates.mp hbd,
        htab.congr fun d x _ _ => hg.dominates, by simp⟩

end block

/-- Sharing common values comes to an answer in which no value repeats one that was passed before. -/
theorem shareCommon_spec {P : Func → Prop} (hP : KeptByShares P) (h : f.Ssa) (hPf : P f) :
    ∃ g ch, f.shareCommon = .ok (g, ch) ∧ Sharing P f g (f.Dominates f.start) ch ∧
      ∀ b, g.Reached b → g.Unrepeated b := by
  obtain ⟨t, ht, hof⟩ := h.flow.domTree
  have htable : Table f [] fun d _ => f.Dominates d f.start ∧ d ≠ f.start :=
    ⟨.nil, fun e => ⟨nofun, fun ⟨d, ⟨hdom, hne⟩, _⟩ => absurd hdom.eq_start hne⟩⟩
  obtain ⟨g, ch, hg, hsh, hnone⟩ := shareTree_spec hP hof (f.numBlocks + 1) f [] f.start h hPf
    (.refl f) (.refl _ _) (by omega) htable
  exact ⟨g, ch, by simp [shareCommon, ht, h.flow.entry_eq, hg], hsh, fun b hb =>
    hnone b (hsh.sheds.graph.reached.mp hb) (.start _ _ _)⟩

/-- Sharing common values keeps what is kept when one value gives way to another that does the same. -/
theorem shareCommon_keeps {P : Func → Prop} (hP : KeptByShares P) (h : f.Ssa) (hPf : P f) :
    ∃ g ch, f.shareCommon = .ok (g, ch) ∧ g.Ssa ∧ SameGraph f g ∧ P g := by
  obtain ⟨g, ch, hg, hsh, -⟩ := shareCommon_spec hP h hPf
  exact ⟨g, ch, hg, hsh.ssa, hsh.sheds.graph, hsh.kept⟩

theorem shareCommon_good {strict : Prop} (h : f.Good strict) :
    ∃ g ch, f.shareCommon = .ok (g, ch) ∧ g.Good strict := by
  obtain ⟨g, ch, hg, hssa, -, htidy⟩ := shareCommon_keeps (P := fun k => k.Tidy strict)
    (fun k b v w hk htidy hsh => htidy.replaceValue hk (hsh.block_mem hk) hsh.mem (hsh.covers hk)
      hsh.source_noStore) h.ssa h.tidy
  exact ⟨g, ch, hg, hssa, htidy⟩

end Func
end SsaJit
