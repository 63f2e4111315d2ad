import SsaJit.Proofs.Lower.Bits
import SsaJit.Proofs.Lower.Places
import SsaJit.Proofs.Pass.Basic

/-! Along every course of a function's code, the slot of a one-bit value holds 0 or 1 once the value has
been computed. At the label of a block the slots of what every way there has computed hold bits, and the
second slots of the block's phis do; within a block each value adds its own. -/

namespace SsaJit

/-! ## What has been computed -/

namespace Func

variable {f : Func} {b s : BlockId} {v w u : ValueId} {i j : Nat}

/-- Whenever control comes to the block, the value has been computed: it is a parameter, or a value of
another block that all control has passed before. -/
def Passed (f : Func) (b : BlockId) (v : ValueId) : Prop :=
  (f.value v).op = .param ∨ ∃ d ∈ f.layout, d ≠ b ∧ v ∈ (f.block d).values ∧ f.Dominates d b

/-- Whenever control stands behind the first `i` values of the block, the value has been computed. The
phis of a block are taken before its other values. -/
def Done (f : Func) (b : BlockId) (i : Nat) (v : ValueId) : Prop :=
  f.Passed b v ∨ v ∈ (f.block b).values.take i ∨ v ∈ (f.block b).values ∧ (f.value v).op = .phi

theorem Done.mono (h : f.Done b i v) (hij : i ≤ j) : f.Done b j v :=
  h.imp_right (Or.imp_left fun hv => List.take_subset_take_left _ hij hv)

theorem Done.by_end (h : f.Done b i v) : f.Done b (f.block b).values.length v :=
  h.imp_right (Or.imp_left fun hv => by
    rw [List.take_length]
    exact List.mem_of_mem_take hv)

/-- What every way to a block has computed, the end of its predecessor has. -/
theorem Passed.of_edge (h : f.Passed s v) (hs : s ∈ f.next b) :
    f.Done b (f.block b).values.length v := by
  rcases h with hp | ⟨d, hd, hne, hv, hdom⟩
  · exact .inl (.inl hp)
  · by_cases hdb : d = b
    · subst hdb
      exact .inr (.inl (by rwa [List.take_length]))
    · exact .inl (.inr ⟨d, hd, hdb, hv, hdom.of_edge hs hne⟩)

theorem done_of_before (hl : f.Listing) (hb : f.Reached b) (hu : (f.block b).values[i]? = some u)
    (h : f.Before (.value w) u b) (hw : (f.value w).op ≠ .store) : f.Done b i w := by
  obtain ⟨w', hval, h⟩ := h
  cases hval
  obtain ⟨d, hd, h⟩ := (h.resolve_left hw).2 hb
  obtain ⟨hdl, hwd⟩ := (hl.listed w d).mp hd
  rcases h with ⟨rfl, hsub⟩ | ⟨hne, hdom⟩
  · refine .inr (.inl ((List.mem_take_iff_idxOf_lt hwd).mpr ?_))
    exact (idxOf_lt_iff_sublist (hl.nodup d hdl) hu hwd).mpr hsub
  · exact .inl (.inr ⟨d, hdl, hne, hwd, hdom⟩)

theorem done_of_atEnd (hl : f.Listing) (hb : f.Reached b) (h : f.AtEnd (.value w) b)
    (hw : (f.value w).op ≠ .store) : f.Done b (f.block b).values.length w := by
  obtain ⟨w', hval, h⟩ := h
  cases hval
  obtain ⟨d, hd, hdom⟩ := h.resolve_left hw
  obtain ⟨hdl, hwd⟩ := (hl.listed w d).mp hd
  by_cases hdb : d = b
  · subst hdb
    exact .inr (.inl (by rwa [List.take_length]))
  · exact .inl (.inr ⟨d, hdl, hdb, hwd, hdom hb⟩)

/-! ## Promises about parameters and bits -/

/-- The parameters are listed values of the types that are passed, and all of them are passed. -/
def ParamsHeld (f : Func) : Prop :=
  (∀ x ∈ f.params.zip f.paramValues,
    (∃ b ∈ f.layout, x.2 ∈ (f.block b).values) ∧ (f.value x.2).type = x.1) ∧
  ∀ b ∈ f.layout, ∀ v ∈ (f.block b).values, (f.value v).op = .param →
    ∃ x ∈ f.params.zip f.paramValues, x.2 = v

instance : Decidable f.ParamsHeld := inferInstanceAs (Decidable (_ ∧ _))

/-- No one-bit value is a whole byte reinterpreted, or the result of a vector instruction. -/
def BitsMade (f : Func) : Prop :=
  ∀ b ∈ f.layout, ∀ v ∈ (f.block b).values, (f.value v).type = .i1 →
    (f.value v).op ≠ .intrinsic ∧
      ((f.value v).op = .bitcast → f.argTypes (f.value v) = [.i1])

instance : Decidable f.BitsMade := inferInstanceAs (Decidable (∀ b ∈ f.layout, _))

end Func

namespace Lower

open X86

/-! ## Code that keeps and leaves bits -/

section pieces

variable {f : Func} {fr : Frame} {n w : Nat} {K : Set (ValueId × Use)} {key : ValueId × Use}
  {A : Code → Machine → Prop} {E : Label → Machine → Prop} {code rest : Code} {m : Machine} {d : Int32}

/-- Code that leaves a bit in a room is safe if what follows is, with one room more. -/
theorem LeavesBit.safe (h : LeavesBit f fr K (fr.offset key) code) (hkey : key ∈ bitRooms f)
    (hK : K ⊆ bitRooms f) (hlaid : fr.Laid n (roomsIn f)) (hm : Bits fr K m)
    (hA : ∀ c₁ c₂ m, code = c₁ ++ c₂ → c₂ ≠ [] → Bits fr K m → A (c₂ ++ rest) m)
    (hend : ∀ m, Bits fr (insert key K) m → Safe (bitCells f fr) A E rest m) :
    Safe (bitCells f fr) A E (code ++ rest) m := by
  obtain ⟨is, r, rfl, hc, hbit⟩ := h
  have hnothing : ∀ k ∈ K, Misses 0 0 (fr.offset k) := fun k hk => misses_nothing hlaid (hK hk)
  refine safe_straight (fun i hi => ?_) (fun js ks m' heq hne hrun => ?_) fun m' hrun => ?_
  · rcases List.mem_append.mp hi with hi | hi
    · exact hc.jump?_eq_none hi
    · rw [List.mem_singleton.mp hi]
      rfl
  · -- before the last instruction nothing has been stored
    have hjs : js ⊆ is := by
      obtain ⟨t, ht⟩ := List.prefix_append js ks
      have hpre : js <+: is ++ [.store (inFrame (fr.offset key)) r .b1] := ⟨ks, heq.symm⟩
      rcases List.prefix_concat_iff.mp hpre with heq' | hpre
      · rw [heq'] at heq
        exact absurd (List.self_eq_append_right.mp heq) hne
      · exact hpre.subset
    refine hA (straight js) (straight ks) m' (by rw [heq, straight_append]) ?_
      (hm.carried hK (hc.subset hjs) hrun hnothing)
    simpa [straight] using hne
  · obtain ⟨m₁, his, hstore⟩ := carried_append.mp hrun
    have hstore := carried_one.mp hstore
    have hbits := hm.carried hK hc his hnothing
    refine hend m' fun k hk => ?_
    by_cases heq : k = key
    · subst heq
      have hstored : m₁.inline (.store (inFrame (fr.offset k)) r .b1) =
          .ok { m₁ with mem := m₁.mem.writeWord (cellAt m₁ (fr.offset k)) 1 (m₁.reg r) } := rfl
      rw [hstore.unique hstored]
      change ((m₁.mem.writeWord (cellAt m₁ (fr.offset k)) 1 (m₁.reg r)).get
        (cellAt m₁ (fr.offset k))).toNat < 2
      rw [stored_byte]
      exact hbit m m₁ hm his
    · obtain ⟨room, hroom, rfl, hpos, -⟩ := hkey
      have hkeep : Keeps (fr.offset room.key) 1
          (.store (inFrame (fr.offset room.key)) r .b1 : Instr Label) :=
        (Keeps.store rfl (.self (Nat.le_refl 1))).1
      have hothers : Bits fr {k ∈ K | k ≠ room.key} m' :=
        (hbits.mono (Set.sep_subset ..)).keep ((Set.sep_subset ..).trans hK) hkeep hstore
          fun k hk => misses_room hlaid hroom hpos (hK hk.1) hk.2
      exact hothers k ⟨Set.mem_of_mem_insert_of_ne hk heq, heq⟩

/-- Code that is confined to bytes away from the bits is safe if what follows is. So is its end. -/
theorem Confined.safe {whole : Code} (h : Confined d w whole) (hsuf : code <:+ whole)
    (hK : K ⊆ bitRooms f) (hmiss : ∀ k ∈ K, Misses d w (fr.offset k)) (hm : Bits fr K m)
    (hE : ∀ l ∈ marks whole, ∀ m, Bits fr K m → E l m)
    (hA : ∀ c₁ c₂ m, code = c₁ ++ c₂ → c₂ ≠ [] → Bits fr K m → A (c₂ ++ rest) m)
    (hend : ∀ m, Bits fr K m → Safe (bitCells f fr) A E rest m) :
    Safe (bitCells f fr) A E (code ++ rest) m :=
  safe_code hm (fun i hi _ _ hbits hc => hbits.keep hK (h.keeps i (hsuf.subset hi)) hc hmiss)
    (fun i l hi hl => hE l (h.jumps i l (hsuf.subset hi) hl))
    (fun l hl => hE l (mem_marks.mpr (hsuf.subset (mem_marks.mp hl)))) hA hend

theorem LeavesBit.mono {K' : Set (ValueId × Use)} (h : LeavesBit f fr K d code) (hKK' : K ⊆ K') :
    LeavesBit f fr K' d code := by
  obtain ⟨is, r, hcode, hc, hbit⟩ := h
  exact ⟨is, r, hcode, hc, fun m m' hm => hbit m m' (hm.mono hKK')⟩

/-- Code for one room, which leaves a bit there if the room is to hold one and spares all others. -/
def Fills (f : Func) (fr : Frame) (K : Set (ValueId × Use)) (key : ValueId × Use) (code : Code) : Prop :=
  key ∈ bitRooms f ∧ LeavesBit f fr K (fr.offset key) code ∨
  key ∉ bitRooms f ∧ ∃ d w, Confined d w code ∧ ∀ k ∈ bitRooms f, Misses d w (fr.offset k)

theorem Fills.safe (h : Fills f fr K key code) (hK : K ⊆ bitRooms f)
    (hlaid : fr.Laid n (roomsIn f)) (hm : Bits fr K m)
    (hE : ∀ l ∈ marks code, ∀ m, Bits fr K m → E l m)
    (hA : ∀ c₁ c₂ m, code = c₁ ++ c₂ → c₂ ≠ [] → Bits fr K m → A (c₂ ++ rest) m)
    (hend : ∀ m, Bits fr (insert key K ∩ bitRooms f) m → Safe (bitCells f fr) A E rest m) :
    Safe (bitCells f fr) A E (code ++ rest) m := by
  rcases h with ⟨hkey, hleaves⟩ | ⟨hkey, d, w, hconf, hmiss⟩
  · exact hleaves.safe hkey hK hlaid hm hA fun m hm => hend m (hm.mono Set.inter_subset_left)
  · refine hconf.safe List.suffix_rfl hK (fun k hk => hmiss k (hK hk)) hm hE hA fun m hm =>
      hend m (hm.mono fun k hk => hk.1.resolve_left fun heq => hkey (heq ▸ hk.2))

/-- Code for a room that is none of a bit. -/
theorem fills_other {r : Room} (hlaid : fr.Laid n (roomsIn f)) (hr : r ∈ roomsIn f)
    (hw : w ≤ r.bytes) (hnot : r.key ∉ bitRooms f) (hc : Confined (fr.offset r.key) w code) :
    Fills f fr K r.key code := by
  refine .inr ⟨hnot, _, w, hc, fun k hk => misses_room hlaid hr hw hk ?_⟩
  rintro rfl
  exact hnot hk

/-- The rooms that are to hold bits, of those written. -/
def written (f : Func) (keys : List (ValueId × Use)) : Set (ValueId × Use) :=
  {k ∈ bitRooms f | k ∈ keys}

/-- Pieces of code without labels, one after the other, each for one room. -/
theorem safe_fills {pieces : List ((ValueId × Use) × Code)} (hlaid : fr.Laid n (roomsIn f))
    (hK : K ⊆ bitRooms f) (hfills : ∀ x ∈ pieces, marks x.2 = [] ∧ Fills f fr K x.1 x.2)
    (hm : Bits fr K m)
    (hA : ∀ c₁ c₂ m, (pieces.map Prod.snd).flatten = c₁ ++ c₂ → c₂ ≠ [] → Bits fr K m →
      A (c₂ ++ rest) m)
    (hend : ∀ m, Bits fr (K ∪ written f (pieces.map Prod.fst)) m → Safe (bitCells f fr) A E rest m) :
    Safe (bitCells f fr) A E ((pieces.map Prod.snd).flatten ++ rest) m := by
  induction pieces generalizing K m with
  | nil => exact hend m (hm.mono fun k hk => hk.resolve_right fun hk => nomatch hk.2)
  | cons x pieces ih =>
    obtain ⟨⟨hmarks, hx⟩, hfills⟩ := List.forall_mem_cons.mp hfills
    rw [List.map_cons, List.flatten_cons] at hA
    rw [List.map_cons, List.flatten_cons, List.append_assoc]
    have hKK' : K ⊆ insert x.1 K ∩ bitRooms f := fun k hk => ⟨.inr hk, hK hk⟩
    refine hx.safe hK hlaid hm (fun l hl => by rw [hmarks] at hl; cases hl)
      (fun c₁ c₂ m heq hne hm => ?_) fun m hm => ?_
    · rw [← List.append_assoc]
      refine hA c₁ _ m ?_ (List.append_ne_nil_of_left_ne_nil hne _) hm
      rw [heq, List.append_assoc]
    · -- what is known by now is known of the pieces that are left
      refine ih Set.inter_subset_right (fun y hy => (hfills y hy).imp_right fun hy => ?_) hm
        (fun c₁ c₂ m heq hne hm => ?_) fun m hm => hend m (hm.mono fun k hk => ?_)
      · exact hy.imp (And.imp_right fun h => h.mono hKK') id
      · exact hA (x.2 ++ c₁) c₂ m (by rw [heq, List.append_assoc]) hne (hm.mono hKK')
      · rcases hk with hk | ⟨hroom, hk⟩
        · exact .inl (hKK' hk)
        · rcases List.mem_cons.mp hk with rfl | hk
          · exact .inl ⟨.inl rfl, hroom⟩
          · exact .inr ⟨hroom, hk⟩

/-- Moves leave bits in the rooms of bits if they take them from such. -/
theorem safe_moves {l : List Transfer} (hlaid : fr.Laid n (roomsIn f)) (hK : K ⊆ bitRooms f)
    (hrooms : ∀ x ∈ l, x.target ∈ roomsIn f ∧ x.bytes ≤ x.target.bytes)
    (hbits : ∀ x ∈ l, x.target.key ∈ bitRooms f → x.bytes = 1 ∧ x.source.key ∈ K)
    (hm : Bits fr K m)
    (hA : ∀ c₁ c₂ m, (l.map (Transfer.move fr)).flatMap Move.code = c₁ ++ c₂ → c₂ ≠ [] →
      Bits fr K m → A (c₂ ++ rest) m)
    (hend : ∀ m, Bits fr (K ∪ written f (l.map fun x => x.target.key)) m →
      Safe (bitCells f fr) A E rest m) :
    Safe (bitCells f fr) A E ((l.map (Transfer.move fr)).flatMap Move.code ++ rest) m := by
  let pieces := l.map fun x => (x.target.key, (x.move fr).code)
  have hcode : (l.map (Transfer.move fr)).flatMap Move.code = (pieces.map Prod.snd).flatten := by
    simp only [pieces, List.flatMap_def, List.map_map, Function.comp_def]
  have hkeys : (l.map fun x => x.target.key) = pieces.map Prod.fst := by
    simp only [pieces, List.map_map, Function.comp_def]
  rw [hcode] at hA ⊢
  rw [hkeys] at hend
  refine safe_fills hlaid hK (fun y hy => ?_) hm hA hend
  obtain ⟨x, hx, rfl⟩ := List.mem_map.mp hy
  obtain ⟨htarget, hle⟩ := hrooms x hx
  refine ⟨marks_copy .., ?_⟩
  by_cases hbit : x.target.key ∈ bitRooms f
  · obtain ⟨hone, hsource⟩ := hbits x hx hbit
    have hleaves : LeavesBit f fr K (fr.offset x.target.key) (x.move fr).code := by
      rw [Move.code, Transfer.move, hone]
      exact leavesBit_copy hsource
    exact .inl ⟨hbit, hleaves⟩
  · exact fills_other hlaid htarget hle hbit (confined_copy (.self (Nat.le_refl _)))

end pieces

/-! ## What holds where -/

section places

variable {c : Context} {entry body code code₁ code₂ : Code} {P : BlockId → Parts}
  {S : Set (ValueId × Use)} {b d s : BlockId} {u v : ValueId} {i j n : Nat} {m : Machine}
  {k : ValueId × Use}

/-- The rooms that hold bits behind the first `i` values of a block, if those in `S` do anyhow. -/
def known (f : Func) (S : Set (ValueId × Use)) (b : BlockId) (i : Nat) : Set (ValueId × Use) :=
  {k ∈ bitRooms f | k ∈ S ∨ k.2 = .slot ∧ f.Done b i k.1}

/-- The rooms that hold bits at the label of a block: its phis have theirs in their second slots. -/
def entering (f : Func) (S : Set (ValueId × Use)) (b : BlockId) : Set (ValueId × Use) :=
  {k ∈ bitRooms f | k ∈ S ∨ k.2 = .slot ∧ f.Passed b k.1 ∨
    k.2 = .stage ∧ k.1 ∈ (f.block b).values ∧ (f.value k.1).op = .phi}

/-- The rooms that hold bits when control leaves a block: it has left values for the phis of the next. -/
def leaving (f : Func) (S : Set (ValueId × Use)) (b : BlockId) : Set (ValueId × Use) :=
  known f S b (f.block b).values.length ∪
    written f ((leavesAll f (edgesOf f b)).map fun x => x.target.key)

theorem known_subset (f : Func) (S : Set (ValueId × Use)) (b : BlockId) (i : Nat) :
    known f S b i ⊆ bitRooms f := Set.sep_subset ..

theorem entering_subset (f : Func) (S : Set (ValueId × Use)) (b : BlockId) :
    entering f S b ⊆ bitRooms f := Set.sep_subset ..

theorem known_mono {f : Func} (hij : i ≤ j) : known f S b i ⊆ known f S b j :=
  fun _ hk => ⟨hk.1, hk.2.imp_right (And.imp_right fun h => h.mono hij)⟩

theorem known_by_end (f : Func) (S : Set (ValueId × Use)) (b : BlockId) (i : Nat) :
    known f S b i ⊆ known f S b (f.block b).values.length :=
  fun _ hk => ⟨hk.1, hk.2.imp_right (And.imp_right fun h => h.by_end)⟩

/-- A value more. -/
theorem known_succ {f : Func} (hu : (f.block b).values[i]? = some u) :
    known f S b (i + 1) ⊆ insert (u, .slot) (known f S b i) := by
  rintro ⟨w, r⟩ ⟨hroom, hk⟩
  rcases hk with hS | ⟨rfl, hp | hw | hphi⟩
  · exact .inr ⟨hroom, .inl hS⟩
  · exact .inr ⟨hroom, .inr ⟨rfl, .inl hp⟩⟩
  · rw [List.take_add_one, hu] at hw
    rcases List.mem_append.mp hw with hw | hw
    · exact .inr ⟨hroom, .inr ⟨rfl, .inr (.inl hw)⟩⟩
    · obtain rfl := List.mem_singleton.mp hw
      exact .inl rfl
  · exact .inr ⟨hroom, .inr ⟨rfl, .inr (.inr hphi)⟩⟩

theorem type_of_bitRoom {f : Func} {r : Use} (h : (v, r) ∈ bitRooms f) : (f.value v).type = .i1 := by
  obtain ⟨room, -, heq, -, -, htype⟩ := h
  cases heq
  exact htype

theorem written_subset (f : Func) (keys : List (ValueId × Use)) : written f keys ⊆ bitRooms f :=
  Set.sep_subset ..

theorem leaving_subset (f : Func) (S : Set (ValueId × Use)) (b : BlockId) :
    leaving f S b ⊆ bitRooms f := Set.union_subset (known_subset ..) (written_subset ..)

theorem not_isVoid {t : Ty} (h : t = .i1) : t.isVoid = false := by
  rw [h]
  rfl

theorem size_of_bit {t : Ty} (ht : t = .i1) : t.size = 1 := by
  rw [ht]
  rfl

/-- A successor is entered with the bits that it is to have. -/
theorem entering_of_edge {f : Func} (hf : f.Flow) (hb : b ∈ f.layout) (hs : s ∈ (f.block b).succs) :
    entering f S s ⊆ leaving f S b := by
  rintro ⟨v, r⟩ ⟨hroom, hS | ⟨rfl, hp⟩ | ⟨rfl, hv, hphi⟩⟩
  · exact .inl ⟨hroom, .inl hS⟩
  · exact .inl ⟨hroom, .inr ⟨rfl, hp.of_edge hs⟩⟩
  · obtain ⟨j, hj⟩ := exists_predIndex hf hb hs
    have hmem : v ∈ phiIds f s := mem_phiIds.mpr ⟨hv, hphi, not_isVoid (type_of_bitRoom hroom)⟩
    have hleft := mem_leavesAll.mpr ⟨(s, j), mem_edgesOf.mpr ⟨hs, hj⟩, v, hmem, rfl⟩
    exact .inr ⟨hroom, List.mem_map.mpr ⟨_, hleft, rfl⟩⟩

/-- When its phis have been taken, a block has the bits that it is to have. -/
theorem known_of_taken {f : Func} :
    known f S b 0 ⊆ entering f S b ∪ written f ((takings f b).map fun x => x.target.key) := by
  rintro ⟨v, r⟩ ⟨hroom, hS | ⟨rfl, hp | hv | ⟨hv, hphi⟩⟩⟩
  · exact .inl ⟨hroom, .inl hS⟩
  · exact .inl ⟨hroom, .inr (.inl ⟨rfl, hp⟩)⟩
  · cases hv
  · have hmem : v ∈ phiIds f b := mem_phiIds.mpr ⟨hv, hphi, not_isVoid (type_of_bitRoom hroom)⟩
    exact .inr ⟨hroom, List.mem_map.mpr ⟨_, List.mem_map_of_mem hmem, rfl⟩⟩

/-- A place in the values of a block has the bits that are known there. -/
def BitsBehind (c : Context) (P : BlockId → Parts) (S : Set (ValueId × Use)) (code : Code) (m : Machine) :
    Prop :=
  ∀ b i, c.func.Reached b → code = (P b).behind i → Bits c.frame (known c.func S b i) m

/-- A label has the bits that are known there: that of a block, or one within the code of a value. -/
def BitsAt (c : Context) (P : BlockId → Parts) (S : Set (ValueId × Use)) (l : Label) (m : Machine) :
    Prop :=
  (∃ b, c.func.Reached b ∧ l = blockMark b ∧ Bits c.frame (entering c.func S b) m) ∨
  ∃ b i code, c.func.Reached b ∧ (P b).values[i]? = some code ∧ l ∈ marks code ∧
    Bits c.frame (known c.func S b i) m

/-- A function's code as it is laid out, and what is promised of the function. -/
structure Compiled (c : Context) (n : Nat) (entry body : Code) (P : BlockId → Parts) : Prop where
  consistent : c.func.Consistent
  types : c.func.TypesValid
  consts : c.func.ConstsFit
  params : c.func.ParamsHeld
  bits : c.func.BitsMade
  laid : c.frame.Laid n (roomsIn c.func)
  nodup : (marks (entry ++ body)).Nodup
  prologue : c.prologue = .ok entry
  head : ∃ code, body = .mark (blockMark c.func.start) :: code
  places : ∀ b, c.func.Reached b → Places c body b (P b)

/-- From before the code on, the known bits are there wherever control comes before the next label, and
at that label. -/
abbrev SafeFrom (c : Context) (P : BlockId → Parts) (S : Set (ValueId × Use)) (code : Code)
    (m : Machine) : Prop :=
  Safe (bitCells c.func c.frame) (BitsBehind c P S) (BitsAt c P S) code m

theorem Parts.length_behind_le (p : Parts) (hij : i ≤ j) :
    (p.behind j).length ≤ (p.behind i).length := by
  have hdrop : p.values.drop j = (p.values.drop i).drop (j - i) := by
    rw [List.drop_drop, Nat.add_sub_cancel' hij]
  have hsplit : (p.values.drop i).flatten =
      ((p.values.drop i).take (j - i)).flatten ++ (p.values.drop j).flatten := by
    rw [hdrop, ← List.flatten_append, List.take_append_drop]
  rw [Parts.behind, Parts.behind, hsplit, List.append_assoc]
  exact (List.suffix_append _ _).length_le

theorem Parts.length_rest_le (p : Parts) (i : Nat) :
    (p.term ++ p.rest).length ≤ (p.behind i).length :=
  (List.suffix_append (p.values.drop i).flatten _).length_le

namespace Compiled

variable (h : Compiled c n entry body P)
include h

theorem ssa : c.func.Ssa := h.consistent.ssa

theorem mem (hb : c.func.Reached b) : b ∈ c.func.layout := h.ssa.flow.reached_mem hb

theorem lt (hb : c.func.Reached b) : b < c.func.numBlocks := h.ssa.flow.lt b (h.mem hb)

theorem length_values (hb : c.func.Reached b) :
    (P b).values.length = (c.func.block b).values.length := (h.places b hb).values.length_eq.symm

/-! ### Places that are told apart by what follows -/

/-- Code of a block that is also behind some values of a block: it is the same block. -/
theorem same_block (hb : c.func.Reached b) (hd : c.func.Reached d) (hin : InBlock c body b code)
    (heq : code = (P d).behind j) : d = b := by
  subst heq
  exact ((h.places d hd).inBlock_behind j).unique hin (h.lt hd) (h.lt hb)

/-- Within the code of a value. -/
theorem holds_within (hb : c.func.Reached b) (hi : (P b).values[i]? = some (code₁ ++ code₂))
    (hne : code₂ ≠ []) (hm : Bits c.frame (known c.func S b i) m) :
    BitsBehind c P S (code₂ ++ (P b).behind (i + 1)) m := by
  intro d j hd heq
  obtain ⟨hlt, hget⟩ := List.getElem?_eq_some_iff.mp hi
  have hpl := h.places b hb
  have hin : InBlock c body b (code₂ ++ (P b).behind (i + 1)) := by
    have hall := hpl.inBlock_behind i
    rw [Places.behind_succ hlt, hget, List.append_assoc] at hall
    refine hall.drop fun l hl => hpl.fresh _ (hget ▸ List.getElem_mem hlt) l ?_
    rw [marks_append]
    exact List.mem_append_left _ hl
  obtain rfl := h.same_block hb hd hin heq
  refine hm.mono (known_mono (Nat.le_of_not_lt fun hlt => ?_))
  have hshort : ((P d).behind j).length ≤ ((P d).behind (i + 1)).length :=
    (P d).length_behind_le hlt
  rw [← heq, List.length_append] at hshort
  have hpos := List.length_pos_of_ne_nil hne
  omega

theorem inBlock_end (hb : c.func.Reached b) (hterm : (P b).term = code₁ ++ code₂) :
    InBlock c body b (code₂ ++ (P b).rest) := by
  have hall := (h.places b hb).inBlock_behind (P b).values.length
  rw [Places.behind_all, hterm, List.append_assoc] at hall
  refine hall.drop fun l hl => ?_
  obtain ⟨next, hcode, -⟩ := (h.places b hb).ends
  have hnone := unmarked_terminator c b next _ hcode
  rw [hterm, marks_append] at hnone
  rw [(List.append_eq_nil_iff.mp hnone).1] at hl
  cases hl

/-- Within the end of a block, where the bits are known. -/
theorem holds_end (hb : c.func.Reached b) (hterm : (P b).term = code₁ ++ code₂)
    (hm : Bits c.frame (known c.func S b (c.func.block b).values.length) m) :
    BitsBehind c P S (code₂ ++ (P b).rest) m := by
  intro d j hd heq
  obtain rfl := h.same_block hb hd (h.inBlock_end hb hterm) heq
  exact hm.mono (known_by_end ..)

/-- Within the end of a block, behind its beginning: no values are to come. -/
theorem holds_past (hb : c.func.Reached b) (hterm : (P b).term = code₁ ++ code₂) (hne : code₁ ≠ []) :
    BitsBehind c P S (code₂ ++ (P b).rest) m := by
  intro d j hd heq
  obtain rfl := h.same_block hb hd (h.inBlock_end hb hterm) heq
  have hlong := (P d).length_rest_le j
  rw [← heq, hterm, List.append_assoc, List.length_append] at hlong
  have hpos := List.length_pos_of_ne_nil hne
  omega

/-- Where a block takes its phis. -/
theorem holds_taking (hb : c.func.Reached b) (htakes : c.takes b = code₁ ++ code₂) (hne : code₂ ≠ []) :
    BitsBehind c P S (code₂ ++ (P b).behind 0) m := by
  intro d j hd heq
  have hin : InBlock c body b (code₂ ++ (P b).behind 0) := by
    have hall := (h.places b hb).inBlock
    rw [htakes, List.append_assoc] at hall
    refine hall.drop fun l hl => ?_
    have hnone := marks_takes c b
    rw [htakes, marks_append] at hnone
    rw [(List.append_eq_nil_iff.mp hnone).1] at hl
    cases hl
  obtain rfl := h.same_block hb hd hin heq
  have hshort := (P d).length_behind_le (Nat.zero_le j)
  rw [← heq, List.length_append] at hshort
  have hpos := List.length_pos_of_ne_nil hne
  omega

/-- Before all blocks. -/
theorem holds_before (code : Code) : BitsBehind c P S (code ++ body) m := by
  intro d j hd heq
  obtain ⟨pre, hbody⟩ := (h.places d hd).stands
  have hshort := (P d).length_behind_le (Nat.zero_le j)
  have hlen := congrArg List.length hbody
  rw [← heq, List.length_append] at hshort
  rw [List.length_append, List.length_cons, List.length_append] at hlen
  omega

/-! ### Values -/

/-- A listed one-bit value is no store. -/
theorem op_ne_store (hb : b ∈ c.func.layout) (hv : v ∈ (c.func.block b).values)
    (htype : (c.func.value v).type = .i1) : (c.func.value v).op ≠ .store := by
  intro hop
  have hwell := h.ssa.typed hb hv (by rw [hop]; decide)
  rw [Func.WellTyped, hop] at hwell
  have hvoid : (c.func.value v).type = .void := hwell.1
  rw [htype] at hvoid
  cases hvoid

/-- Operands that are to be bits are known to be. -/
theorem arg_known (hb : c.func.Reached b) (hu : (c.func.block b).values[i]? = some u)
    (hphi : (c.func.value u).op ≠ .phi) (hparam : (c.func.value u).op ≠ .param) {o : Operand}
    (ho : o ∈ (c.func.value u).args) (htype : c.func.OfType o .i1) :
    ∃ w, o = .value w ∧ (w, .slot) ∈ known c.func S b i := by
  have hbl := h.mem hb
  have hul := List.mem_of_getElem? hu
  obtain ⟨w, d, rfl, hd⟩ := Func.args_listed h.consistent.verified hbl hul ho
  obtain ⟨hdl, hw⟩ := (h.ssa.listing.listed w d).mp hd
  obtain ⟨a, ha, htype⟩ := htype
  cases ha
  have hcomp := Func.done_of_before h.ssa.listing hb hu (h.ssa.before hbl hul hphi hparam ho)
    (h.op_ne_store hdl hw htype)
  exact ⟨w, rfl, slot_mem_bitRooms hdl hw htype, .inr ⟨rfl, hcomp⟩⟩

/-- Code that is confined to the slot of a value of more bits. -/
theorem fills_slot {K : Set (ValueId × Use)} (hb : b ∈ c.func.layout)
    (hv : v ∈ (c.func.block b).values) (htype : (c.func.value v).type ≠ .i1)
    (hconf : Confined (c.frame.offset (v, .slot)) (c.func.value v).type.size code) :
    Fills c.func c.frame K (v, .slot) code := by
  have hnot : (v, .slot) ∉ bitRooms c.func := fun hroom => htype (type_of_bitRoom hroom)
  cases hvoid : (c.func.value v).type.isVoid with
  | true =>
    rw [size_eq_zero_of_isVoid hvoid] at hconf
    exact .inr ⟨hnot, _, 0, hconf, fun k hk => misses_nothing h.laid hk⟩
  | false =>
    have hle : (c.func.value v).type.size ≤ (slotRoom c.func v).bytes :=
      size_le_slotBytes (h.types b hb v hv)
    exact fills_other (r := slotRoom c.func v) h.laid (slotRoom_mem hb hv hvoid) hle hnot hconf

/-- The code of a value, if there is any, is for its slot. -/
theorem emitted (hb : c.func.Reached b) (hu : (c.func.block b).values[i]? = some u)
    (hcode : (P b).values[i]? = some code) : code = [] ∧ c.func.Done b i u ∨
      Fills c.func c.frame (known c.func S b i) (u, .slot) code := by
  have hbl := h.mem hb
  have hul := List.mem_of_getElem? hu
  have hemits : c.Emits u code := by
    obtain ⟨hlt, hget⟩ := List.getElem?_eq_some_iff.mp hu
    obtain ⟨hlt', hget'⟩ := List.getElem?_eq_some_iff.mp hcode
    have hboth := (List.forall₂_iff_get.mp (h.places b hb).values).2 i hlt hlt'
    rwa [List.get_eq_getElem, List.get_eq_getElem, hget, hget'] at hboth
  unfold Context.Emits at hemits
  split at hemits
  · next hop =>
    exact .inl ⟨hemits, hop.elim (fun hphi => .inr (.inr ⟨hul, hphi⟩)) fun hparam => .inl (.inl hparam)⟩
  next hop =>
  obtain ⟨hphi, hparam⟩ := not_or.mp hop
  obtain ⟨ls, ls', hcode⟩ := hemits
  have hargs : ∀ o ∈ (c.func.value u).args, ∃ w, o = .value w ∧
      ∃ d ∈ c.func.layout, w ∈ (c.func.block d).values := fun o ho => by
    obtain ⟨w, d, hw, hd⟩ := Func.args_listed h.consistent.verified hbl hul ho
    exact ⟨w, hw, d, (h.ssa.listing.listed w d).mp hd⟩
  have hts : List.Forall₂ c.func.OfType _ _ := Func.ofType_argTypes fun o ho => by
    obtain ⟨w, hw, -⟩ := hargs o ho
    exact ⟨w, hw⟩
  have hty := h.ssa.typed hbl hul hphi
  refine .inr ?_
  by_cases htype : (c.func.value u).type = .i1
  · refine .inl ⟨slot_mem_bitRooms hbl hul htype, ?_⟩
    have hvalid : ∀ t ∈ c.func.argTypes (c.func.value u), t.Valid := fun t ht => by
      obtain ⟨o, ho, rfl⟩ := List.mem_map.mp ht
      obtain ⟨w, rfl, d, hd, hw⟩ := hargs o ho
      exact h.types d hd w hw
    obtain ⟨hintr, hcast⟩ := h.bits b hbl u hul htype
    refine value_leavesBit hts hty hvalid htype hcast hintr (fun lanes hlanes w hw => ?_)
      (known_subset ..) h.laid (fun o ho hbit => h.arg_known hb hu hphi hparam ho hbit) hcode
    have hcut := h.consts b hbl u hul lanes hlanes w hw
    rwa [htype] at hcut
  · exact h.fills_slot hbl hul htype (confined_value hts hty (.self (Nat.le_refl _)) hcode)

theorem getElem?_values (hb : c.func.Reached b) (hcode : (P b).values[i]? = some code) :
    ∃ u, (c.func.block b).values[i]? = some u := by
  obtain ⟨hlt, -⟩ := List.getElem?_eq_some_iff.mp hcode
  exact ⟨_, List.getElem?_eq_getElem (h.length_values hb ▸ hlt)⟩

theorem safe_value (hb : c.func.Reached b) (hcode : (P b).values[i]? = some code)
    (hend : ∀ m, Bits c.frame (known c.func S b (i + 1)) m → SafeFrom c P S ((P b).behind (i + 1)) m)
    (hm : Bits c.frame (known c.func S b i) m) : SafeFrom c P S ((P b).behind i) m := by
  obtain ⟨u, hu⟩ := h.getElem?_values hb hcode
  obtain ⟨hlt, hget⟩ := List.getElem?_eq_some_iff.mp hcode
  have hsucc : ∀ k ∈ known c.func S b (i + 1), k = (u, .slot) ∨ k ∈ known c.func S b i :=
    fun k hk => known_succ hu hk
  rw [Places.behind_succ hlt, hget]
  rcases h.emitted (S := S) hb hu hcode with ⟨rfl, hcomp⟩ | hfills
  · refine hend m (hm.mono fun k hk => (hsucc k hk).elim ?_ id)
    rintro rfl
    exact ⟨hk.1, .inr ⟨rfl, hcomp⟩⟩
  · exact hfills.safe (known_subset ..) h.laid hm (fun l hl m hm => .inr ⟨b, i, code, hb, hcode, hl, hm⟩)
      (fun c₁ c₂ m heq hne hm => h.holds_within hb (heq ▸ hcode) hne hm)
      fun m hm => hend m (hm.mono fun k hk => ⟨hsucc k hk, hk.1⟩)

/-- From a label within the code of a value. -/
theorem safe_inner {l : Label} (hb : c.func.Reached b)
    (hcode : (P b).values[i]? = some (code₁ ++ .mark l :: code₂))
    (hend : ∀ m, Bits c.frame (known c.func S b (i + 1)) m → SafeFrom c P S ((P b).behind (i + 1)) m)
    (hm : Bits c.frame (known c.func S b i) m) :
    SafeFrom c P S (code₂ ++ (P b).behind (i + 1)) m := by
  obtain ⟨u, hu⟩ := h.getElem?_values hb hcode
  have hsuf : code₂ <:+ code₁ ++ .mark l :: code₂ :=
    (List.suffix_cons _ _).trans (List.suffix_append _ _)
  rcases h.emitted (S := S) hb hu hcode with ⟨hnil, -⟩ | ⟨-, is, r, heq, -⟩ | ⟨hnot, e, w, hconf, hmiss⟩
  · exact absurd hnil (by simp)
  · -- the code of a bit has no labels
    have hmark : l ∈ marks (code₁ ++ .mark l :: code₂) := mem_marks.mpr (by simp)
    rw [heq, marks_straight] at hmark
    cases hmark
  · refine hconf.safe hsuf (known_subset ..) (fun k hk => hmiss k hk.1) hm
      (fun l hl m hm => .inr ⟨b, i, _, hb, hcode, hl, hm⟩) (fun c₁ c₂ m heq hne hm => ?_)
      fun m hm => hend m (hm.mono fun k hk => ?_)
    · have hsplit : (P b).values[i]? = some ((code₁ ++ .mark l :: c₁) ++ c₂) := by
        rw [hcode, heq, List.append_assoc, List.cons_append]
      exact h.holds_within hb hsplit hne hm
    · exact (known_succ hu hk).resolve_left fun heq => hnot (heq ▸ hk.1)

/-! ### Ends of blocks -/

/-- An end that control does not go on from. -/
theorem safe_halt {is : List (Instr Label)} {i : Instr Label} (hb : c.func.Reached b)
    (hterm : (P b).term = straight (is ++ [i])) (hjump : ∀ j ∈ is, j.jump? = none)
    (hlast : i.jump? = none) (hhalt : ∀ m m', ¬ Carries (bitCells c.func c.frame) i m m')
    (hm : Bits c.frame (known c.func S b (c.func.block b).values.length) m) :
    SafeFrom c P S ((P b).term ++ (P b).rest) m := by
  rw [hterm]
  refine safe_straight (fun j hj => ?_) (fun js ks m' heq hne hrun => ?_) fun m' hrun => ?_
  · rcases List.mem_append.mp hj with hj | hj
    · exact hjump j hj
    · rwa [List.mem_singleton.mp hj]
  · rw [heq, straight_append] at hterm
    cases js with
    | nil =>
      obtain rfl := hrun
      exact h.holds_end hb hterm hm
    | cons j js => exact h.holds_past hb hterm (List.cons_ne_nil _ _)
  · obtain ⟨m₁, -, hlast⟩ := carried_append.mp hrun
    exact absurd (carried_one.mp hlast) (hhalt m₁ m')

theorem safe_return {next : Option BlockId} (hb : c.func.Reached b)
    (hk : (c.func.block b).kind = .ret) (hterm : c.terminator b next = .ok (P b).term)
    (hm : Bits c.frame (known c.func S b (c.func.block b).values.length) m) :
    SafeFrom c P S ((P b).term ++ (P b).rest) m := by
  have hquiet : ∃ is, (P b).term = straight is ++ straight [.leave, .ret] ∧
      Confined 0 0 (straight is) := by
    simp only [Context.terminator, hk] at hterm
    split at hterm
    · exact ⟨[], (Except.ok.inj hterm).symm, .nil⟩
    · obtain ⟨x, -, hterm⟩ := Outcome.bind_eq_ok.mp hterm
      split at hterm
      · obtain ⟨result, hresult, hterm⟩ := Outcome.bind_eq_ok.mp hterm
        obtain ⟨is, rfl⟩ := straight_of_unmarked (unmarked_loadX _ _ _ _ hresult)
        exact ⟨is, (Except.ok.inj hterm).symm, confines_loadX _ _ _ _ hresult⟩
      · obtain ⟨result, hresult, hterm⟩ := Outcome.bind_eq_ok.mp hterm
        obtain ⟨is, rfl⟩ := straight_of_unmarked (unmarked_loadInt _ _ _ _ _ hresult)
        exact ⟨is, (Except.ok.inj hterm).symm, confines_loadInt (by decide) _ _ _ _ hresult⟩
  obtain ⟨is, heq, hconf⟩ := hquiet
  have hcode : (P b).term = straight ((is ++ [Instr.leave]) ++ [Instr.ret]) := by
    rw [heq, List.append_assoc, straight_append is]
    rfl
  refine h.safe_halt hb hcode (fun j hj => ?_) rfl (fun m m' hc => ?_) hm
  · rcases List.mem_append.mp hj with hj | hj
    · exact hconf.jump?_eq_none hj
    · rw [List.mem_singleton.mp hj]
      rfl
  · cases hc with
    | inline hc => cases isInline_of_ok hc

theorem safe_trap {next : Option BlockId} (hb : c.func.Reached b)
    (hk : (c.func.block b).kind = .unreachable) (hterm : c.terminator b next = .ok (P b).term)
    (hm : Bits c.frame (known c.func S b (c.func.block b).values.length) m) :
    SafeFrom c P S ((P b).term ++ (P b).rest) m := by
  simp only [Context.terminator, hk] at hterm
  have hcode : (P b).term = straight ([] ++ [Instr.ud2]) := (Except.ok.inj hterm).symm
  refine h.safe_halt hb hcode (fun j hj => by cases hj) rfl (fun m m' hc => ?_) hm
  cases hc with
  | inline hc => cases hc

/-! ### From block to block -/

/-- The values that a block leaves for phis. -/
theorem safe_leaves {tail : Code} (hb : c.func.Reached b) (hterm : (P b).term = leavesCode c b ++ tail)
    (hend : ∀ m, Bits c.frame (leaving c.func S b) m → SafeFrom c P S (tail ++ (P b).rest) m)
    (hm : Bits c.frame (known c.func S b (c.func.block b).values.length) m) :
    SafeFrom c P S ((P b).term ++ (P b).rest) m := by
  have hbl := h.mem hb
  have hlow := lowerable h.consistent
  have hedge : ∀ e ∈ edgesOf c.func b, e.1 ∈ c.func.layout ∧
      (c.func.block e.1).preds[e.2]? = some b := fun e he =>
    ⟨h.ssa.flow.succs_mem b hbl _ (mem_edgesOf.mp he).1, preds_of_predIndex (mem_edgesOf.mp he).2⟩
  rw [hterm, List.append_assoc]
  refine safe_moves h.laid (known_subset ..) (fun x hx => ?_) (fun x hx hroom => ?_) hm
    (fun c₁ c₂ m heq hne hm => ?_) hend
  · obtain ⟨e, he, v, hv, rfl⟩ := mem_leavesAll.mp hx
    obtain ⟨hv, hphi, hvoid⟩ := mem_phiIds.mp hv
    have hs := (hedge e he).1
    exact ⟨stageRoom_mem hs hv hvoid hphi, size_le_slotBytes (h.types e.1 hs v hv)⟩
  · obtain ⟨e, he, v, hv, rfl⟩ := mem_leavesAll.mp hx
    obtain ⟨hv, hphi, -⟩ := mem_phiIds.mp hv
    obtain ⟨hs, hj⟩ := hedge e he
    have htype : (c.func.value v).type = .i1 := type_of_bitRoom hroom
    obtain ⟨-, hsame, d, hd, hw⟩ := phi_arg hlow hs hv hphi hj
    have hbit := hsame.trans htype
    have hcomp := Func.done_of_atEnd h.ssa.listing hb (phi_atEnd hlow hs hv hphi hj)
      (h.op_ne_store hd hw hbit)
    exact ⟨size_of_bit htype, slot_mem_bitRooms hd hw hbit, .inr ⟨rfl, hcomp⟩⟩
  · have hsplit : (P b).term = c₁ ++ (c₂ ++ tail) := by
      rw [hterm, ← List.append_assoc, ← heq]
      rfl
    rw [← List.append_assoc]
    exact h.holds_end hb hsplit hm

theorem enters (hb : c.func.Reached b) (hs : s ∈ (c.func.block b).succs)
    (hm : Bits c.frame (leaving c.func S b) m) : BitsAt c P S (blockMark s) m :=
  .inl ⟨s, hb.step hs, rfl, hm.mono (entering_of_edge h.ssa.flow (h.mem hb) hs)⟩

/-- What is left of the end of a block after the values for phis. -/
theorem holds_leaving (hb : c.func.Reached b) (hterm : (P b).term = code₁ ++ code₂)
    (hm : Bits c.frame (leaving c.func S b) m) : BitsBehind c P S (code₂ ++ (P b).rest) m :=
  h.holds_end hb hterm (hm.mono Set.subset_union_left)

/-- Falling through to the next block. -/
theorem safe_fall {rest : Code} (hb : c.func.Reached b) (hs : s ∈ (c.func.block b).succs)
    (hrest : (P b).rest = .mark (blockMark s) :: rest) (hm : Bits c.frame (leaving c.func S b) m) :
    SafeFrom c P S (P b).rest m := by
  have hhere := h.holds_leaving hb (List.append_nil (P b).term).symm hm
  rw [List.nil_append, hrest] at hhere
  rw [hrest]
  exact ⟨hhere, h.enters hb hs hm⟩

theorem safe_jump (hb : c.func.Reached b) (hs : s ∈ (c.func.block b).succs)
    (hterm : (P b).term = code ++ straight [.jmp (blockMark s)])
    (hm : Bits c.frame (leaving c.func S b) m) :
    SafeFrom c P S (straight [.jmp (blockMark s)] ++ (P b).rest) m := by
  refine ⟨h.holds_leaving hb hterm hm, fun l hl => ?_, fun m' hc => ?_⟩
  · cases hl
    exact h.enters hb hs hm
  · cases hc with
    | inline hc => cases isInline_of_ok hc

/-- Reading a condition and going to one block if it is met. -/
theorem safe_test {x : Place} {cc : Cond} {js : List (Instr Label)} (hb : c.func.Reached b)
    (hs : s ∈ (c.func.block b).succs)
    (hterm : (P b).term = code ++
      straight ([.load .rax x .u8, .alu .test .rax .rax] ++ .jcc cc (blockMark s) :: js))
    (hend : ∀ m, Bits c.frame (leaving c.func S b) m → SafeFrom c P S (straight js ++ (P b).rest) m)
    (hm : Bits c.frame (leaving c.func S b) m) :
    SafeFrom c P S (straight ([.load .rax x .u8, .alu .test .rax .rax] ++
      .jcc cc (blockMark s) :: js) ++ (P b).rest) m := by
  have hquiet : Confined 0 0 (straight [.load .rax x .u8, .alu .test .rax .rax]) := .quiet rfl
  rw [straight_append, List.append_assoc] at *
  refine hquiet.safe List.suffix_rfl (leaving_subset ..)
    (fun k hk => misses_nothing h.laid (leaving_subset _ _ _ hk)) hm (fun l hl => by cases hl)
    (fun c₁ c₂ m heq hne hm => ?_) fun m hm => ?_
  · rw [heq, List.append_assoc, ← List.append_assoc code] at hterm
    rw [← List.append_assoc]
    exact h.holds_leaving hb hterm hm
  · rw [← List.append_assoc] at hterm
    refine ⟨h.holds_leaving hb hterm hm, fun l hl => ?_, fun m' hc => ?_⟩
    · cases hl
      exact h.enters hb hs hm
    · cases hc with
      | inline hc => cases isInline_of_ok hc
      | stays => exact hend m hm

theorem safe_end (hb : c.func.Reached b)
    (hm : Bits c.frame (known c.func S b (c.func.block b).values.length) m) :
    SafeFrom c P S ((P b).term ++ (P b).rest) m := by
  obtain ⟨next, hterm, hrest⟩ := (h.places b hb).ends
  have hbl := h.mem hb
  have hlow := lowerable h.consistent
  have hwell := h.ssa.ends b hbl
  cases hk : (c.func.block b).kind with
  | ret => exact h.safe_return hb hk hterm hm
  | unreachable => exact h.safe_trap hb hk hterm hm
  | jump =>
    rw [Func.EndsWell, hk] at hwell
    obtain ⟨s, hs⟩ := List.length_eq_one_iff.mp hwell
    have hsucc : s ∈ (c.func.block b).succs := by simp [hs]
    have hcode := jump_code hlow hbl hk hs hterm
    refine h.safe_leaves hb hcode (fun m hm => ?_) hm
    split
    · next hnext =>
      obtain ⟨rest, hrest⟩ := hrest s hnext
      exact h.safe_fall hb hsucc hrest hm
    · next hnext =>
      rw [if_neg hnext] at hcode
      exact h.safe_jump hb hsucc hcode hm
  | branch =>
    rw [Func.EndsWell, hk] at hwell
    obtain ⟨yes, no, hs⟩ := List.length_eq_two.mp hwell.1
    have hyes : yes ∈ (c.func.block b).succs := by simp [hs]
    have hno : no ∈ (c.func.block b).succs := by simp [hs]
    have hcode := branch_code hlow hbl hk hs hterm
    refine h.safe_leaves hb hcode (fun m hm => ?_) hm
    by_cases hnext : next = some no
    · rw [if_pos hnext] at hcode ⊢
      obtain ⟨rest, hrest⟩ := hrest no hnext
      exact h.safe_test hb hyes hcode (fun m hm => h.safe_fall hb hno hrest hm) hm
    · rw [if_neg hnext] at hcode ⊢
      by_cases hnext : next = some yes
      · rw [if_pos hnext] at hcode ⊢
        obtain ⟨rest, hrest⟩ := hrest yes hnext
        exact h.safe_test hb hno hcode (fun m hm => h.safe_fall hb hyes hrest hm) hm
      · rw [if_neg hnext] at hcode ⊢
        have hlast : (P b).term = (leavesCode c b ++ straight [.load .rax
            (c.slot (c.func.block b).control) .u8, .alu .test .rax .rax, .jcc .ne (blockMark yes)]) ++
            straight [.jmp (blockMark no)] := by
          rw [hcode, List.append_assoc]
          rfl
        exact h.safe_test hb hyes hcode (fun m hm => h.safe_jump hb hno hlast hm) hm
  | pending =>
    rw [Func.EndsWell, hk] at hwell
    exact hwell.elim
  | other k =>
    rw [Context.terminator, hk] at hterm
    cases hterm

/-! ### Whole blocks -/

theorem safe_behind (hb : c.func.Reached b) (i : Nat) (hm : Bits c.frame (known c.func S b i) m) :
    SafeFrom c P S ((P b).behind i) m := by
  -- downwards from the end of the block
  generalize hk : (P b).values.length - i = k
  induction k generalizing i m with
  | zero =>
    have hend : (P b).behind i = (P b).term ++ (P b).rest := by
      rw [Parts.behind, List.drop_eq_nil_of_le (Nat.le_of_sub_eq_zero hk)]
      rfl
    rw [hend]
    exact h.safe_end hb (hm.mono (known_mono (h.length_values hb ▸ Nat.le_of_sub_eq_zero hk)))
  | succ k ih =>
    have hlt : i < (P b).values.length := by omega
    exact h.safe_value hb (List.getElem?_eq_getElem hlt) (fun m hm => ih (i + 1) hm (by omega)) hm

/-- A block that is entered takes its phis and goes on. -/
theorem safe_block (hb : c.func.Reached b) (hm : Bits c.frame (entering c.func S b) m) :
    SafeFrom c P S (c.takes b ++ (P b).behind 0) m := by
  have hbl := h.mem hb
  rw [takes_eq]
  refine safe_moves h.laid (entering_subset ..) (fun x hx => ?_) (fun x hx hroom => ?_) hm
    (fun c₁ c₂ m heq hne _ => ?_) fun m hm => h.safe_behind hb 0 (hm.mono known_of_taken)
  · obtain ⟨v, hv, rfl⟩ := List.mem_map.mp hx
    obtain ⟨hv, hphi, hvoid⟩ := mem_phiIds.mp hv
    exact ⟨slotRoom_mem hbl hv hvoid, size_le_slotBytes (h.types b hbl v hv)⟩
  · obtain ⟨v, hv, rfl⟩ := List.mem_map.mp hx
    obtain ⟨hv, hphi, -⟩ := mem_phiIds.mp hv
    have htype : (c.func.value v).type = .i1 := type_of_bitRoom hroom
    exact ⟨size_of_bit htype, stage_mem_bitRooms hbl hv htype hphi, .inr (.inr ⟨rfl, hv, hphi⟩)⟩
  · exact h.holds_taking hb ((takes_eq c b).trans heq) hne

/-- Behind every label, the bits that are known there are enough. -/
theorem safe_label {l : Label} (hl : behind l (entry ++ body) = some code)
    (hm : BitsAt c P S l m) : SafeFrom c P S code m := by
  rcases hm with ⟨b, hb, rfl, hm⟩ | ⟨b, i, part, hb, hpart, hmark, hm⟩
  · obtain ⟨pre, hprog⟩ := ((h.places b hb).prefixed entry).stands
    obtain rfl := Option.some.inj (hl.symm.trans (behind_of_nodup h.nodup hprog))
    exact h.safe_block hb hm
  · obtain ⟨pre, hprog⟩ := ((h.places b hb).prefixed entry).stands
    obtain ⟨code₁, code₂, rfl⟩ := List.append_of_mem (mem_marks.mp hmark)
    obtain ⟨hlt, hget⟩ := List.getElem?_eq_some_iff.mp hpart
    have hplace : entry ++ body = (pre ++ .mark (blockMark b) :: (c.takes b ++
        (((P b).values.take i).flatten ++ code₁))) ++
        .mark l :: (code₂ ++ (P b).behind (i + 1)) := by
      rw [hprog, (P b).split i, Places.behind_succ hlt, hget]
      simp
    obtain rfl := Option.some.inj (hl.symm.trans (behind_of_nodup h.nodup hplace))
    exact h.safe_inner hb hpart (fun m hm => h.safe_behind hb (i + 1) hm) hm

/-! ### The prologue -/

/-- The code that stores parameters, one by one. -/
theorem fills_params {ps : List (Ty × ValueId)} {ints : List Reg} {vecs : Nat}
    (hps : ∀ x ∈ ps, (∃ b ∈ c.func.layout, x.2 ∈ (c.func.block b).values) ∧
      (c.func.value x.2).type = x.1) (hints : .rbp ∉ ints)
    (hcode : c.storeParams ps ints vecs = .ok code) :
    ∃ pieces : List ((ValueId × Use) × Code), code = (pieces.map Prod.snd).flatten ∧
      pieces.map Prod.fst = ps.map (fun x => (x.2, .slot)) ∧
      ∀ x ∈ pieces, marks x.2 = [] ∧ Fills c.func c.frame ∅ x.1 x.2 := by
  induction ps generalizing ints vecs code with
  | nil =>
    cases hcode
    exact ⟨[], rfl, rfl, fun x hx => by cases hx⟩
  | cons x ps ih =>
    obtain ⟨t, v⟩ := x
    obtain ⟨⟨⟨b, hb, hv⟩, htype⟩, hps⟩ := List.forall_mem_cons.mp hps
    have htype : (c.func.value v).type = t := htype
    have hcons : ∀ {first more : Code} {ints : List Reg} {vecs : Nat}, marks first = [] →
        Fills c.func c.frame ∅ (v, .slot) first → c.storeParams ps ints vecs = .ok more →
        .rbp ∉ ints → ∃ pieces : List ((ValueId × Use) × Code),
          first ++ more = (pieces.map Prod.snd).flatten ∧
          pieces.map Prod.fst = ((t, v) :: ps).map (fun x => (x.2, .slot)) ∧
          ∀ x ∈ pieces, marks x.2 = [] ∧ Fills c.func c.frame ∅ x.1 x.2 := by
      intro first more ints vecs hmarks hfirst hmore hints
      obtain ⟨pieces, rfl, hkeys, hfills⟩ := ih hps hints hmore
      refine ⟨((v, .slot), first) :: pieces, rfl, ?_, List.forall_mem_cons.mpr ⟨⟨hmarks, hfirst⟩, hfills⟩⟩
      rw [List.map_cons, List.map_cons, hkeys]
    unfold Context.storeParams at hcode
    split at hcode
    · next hreg =>
      obtain ⟨first, hfirst, hcode⟩ := Outcome.bind_eq_ok.mp hcode
      obtain ⟨more, hmore, hcode⟩ := Outcome.bind_eq_ok.mp hcode
      cases hcode
      refine hcons (unmarked_storeX _ _ _ _ hfirst) (h.fills_slot hb hv (fun heq => ?_) ?_) hmore hints
      · rw [← htype, heq] at hreg
        cases hreg
      · rw [htype]
        exact confines_storeX (.self (Nat.le_refl _)) _ hfirst
    · next hreg =>
      cases ints with
      | nil => cases hcode
      | cons r ints =>
        obtain ⟨first, hfirst, hcode⟩ := Outcome.bind_eq_ok.mp hcode
        obtain ⟨more, hmore, hcode⟩ := Outcome.bind_eq_ok.mp hcode
        cases hcode
        obtain ⟨hr, hints⟩ := not_or.mp (fun hmem => hints (List.mem_cons.mpr hmem))
        refine hcons (unmarked_storeInt _ _ _ _ hfirst) ?_ hmore hints
        by_cases hbit : (c.func.value v).type = .i1
        · rw [← htype, hbit] at hfirst
          exact .inl ⟨slot_mem_bitRooms hb hv hbit,
            leavesBit_storeInt rfl .nil (Ne.symm hr) hfirst⟩
        · refine h.fills_slot hb hv hbit ?_
          rw [htype, size_of_inReg hreg]
          exact confines_storeInt (Ne.symm hr) (.self (Nat.le_refl _)) _ hfirst

/-- At the entry only parameters are known to be bits. -/
theorem entering_start : entering c.func ∅ c.func.start ⊆ written c.func
    ((c.func.params.zip c.func.paramValues).map fun x => (x.2, .slot)) := by
  rintro ⟨v, r⟩ ⟨hroom, hS | ⟨rfl, hparam | ⟨d, -, hne, -, hdom⟩⟩ | ⟨-, hv, hphi⟩⟩
  · exact hS.elim
  · obtain ⟨room, hmem, heq, -⟩ := id hroom
    obtain ⟨b, hb, w, hw, hr⟩ := mem_roomsIn.mp hmem
    obtain rfl : w = v := (value_of_mem_roomsOf hr).symm.trans (congrArg Prod.fst heq)
    obtain ⟨x, hx, rfl⟩ := h.params.2 b hb w hw hparam
    exact ⟨hroom, List.mem_map_of_mem hx⟩
  · exact absurd hdom.eq_start hne
  · exact absurd hphi (h.ssa.entry_phis v hv)

/-- From the entry of the function. -/
theorem safe_entry : SafeFrom c P ∅ (entry ++ body) m := by
  obtain ⟨params, hparams, hentry⟩ := Outcome.bind_eq_ok.mp h.prologue
  obtain ⟨pieces, rfl, hkeys, hfills⟩ := h.fills_params h.params.1 (by decide) hparams
  obtain ⟨code, hbody⟩ := h.head
  have hnone : ∀ m, Bits c.frame ∅ m := fun m k hk => hk.elim
  rw [← Except.ok.inj hentry, List.append_assoc]
  refine safe_straight (fun i hi => ?_) (fun js ks m' _ _ _ => ?_) fun m' _ => ?_
  · revert i
    split <;> simp [Instr.jump?]
  · rw [← List.append_assoc]
    exact h.holds_before _
  · refine safe_fills h.laid (Set.empty_subset _) hfills (hnone m') (fun c₁ c₂ m _ _ _ => h.holds_before c₂)
      fun m hm => ?_
    have hhere : BitsBehind c P ∅ ([] ++ body) m := h.holds_before []
    rw [List.nil_append, hbody] at hhere
    rw [hbody]
    rw [hkeys] at hm
    exact ⟨hhere, .inl ⟨_, .refl _ _, rfl, hm.mono (h.entering_start.trans Set.subset_union_right)⟩⟩

/-- Wherever a course comes from safe code, the known bits are there. -/
theorem bits_along {start : Code} {m' : Machine} (hsuf : start <:+ entry ++ body)
    (hstart : SafeFrom c P S start m) (hb : c.func.Reached b)
    (hcourse : Course (bitCells c.func c.frame) (entry ++ body) start m ((P b).behind i) m') :
    Bits c.frame (known c.func S b i) m' :=
  hcourse.holds h.nodup (fun _ _ hl _ hm => h.safe_label hl hm) hsuf hstart b i hb rfl

/-- A value that has been computed keeps a bit from there on, whatever else is computed. -/
theorem bit_kept {m₀ m₁ m₂ : Machine} {v : ValueId} {d' : BlockId} (hb : c.func.Reached b)
    (hv : v ∈ (c.func.block d).values) (hd : d ∈ c.func.layout) (htype : (c.func.value v).type = .i1)
    (hcomp : c.func.Done b i v)
    (hfirst : Course (bitCells c.func c.frame) (entry ++ body) (entry ++ body) m₀ ((P b).behind i) m₁)
    (hb' : c.func.Reached d')
    (hthen : Course (bitCells c.func c.frame) (entry ++ body) ((P b).behind i) m₁ ((P d').behind j) m₂) :
    (m₂.mem.get (addressOf m₂ (c.home v))).toNat < 2 := by
  have hroom := slot_mem_bitRooms hd hv htype
  have hbits := h.bits_along List.suffix_rfl h.safe_entry hb hfirst
  have hbit := hbits (v, .slot) ⟨hroom, .inr ⟨rfl, hcomp⟩⟩
  -- from here on the slot is one of those that hold bits anyhow
  have hall : Bits c.frame (known c.func {(v, .slot)} b i) m₁ := by
    rintro k ⟨hk, rfl | hcomp'⟩
    · exact hbit
    · exact hbits k ⟨hk, .inr hcomp'⟩
  obtain ⟨pre, hprog⟩ := ((h.places b hb).prefixed entry).stands
  have hsuf : (P b).behind i <:+ entry ++ body := by
    rw [hprog, (P b).split i]
    exact (List.suffix_append _ _).trans ((List.suffix_append _ _).trans
      ((List.suffix_cons _ _).trans (List.suffix_append _ _)))
  exact h.bits_along hsuf (h.safe_behind hb i hall) hb' hthen (v, .slot) ⟨hroom, .inl rfl⟩

end Compiled

end places

/-! ## One-bit values at run time -/

/-- Once a one-bit value has been computed, its slot holds 0 or 1 at every later place between the values
of the function, whatever the arguments, the memory and the results of calls are, so long as callees and
stores through pointers spare the slots of the bits. A byte that is reinterpreted as a bit and an
intrinsic that is said to give one are excepted. -/
theorem slot_holds_bit {f : Func} {cpu : Features} {prog : Code} {ls : Labels} (h : f.Consistent)
    (hty : f.TypesValid) (hconst : f.ConstsFit) (hparams : f.ParamsHeld) (hbits : f.BitsMade)
    (hneed : frameNeed f < 2147483648)
    (hgen : Context.function ⟨f, .ofFunc f, cpu⟩ = .ok (prog, ls)) :
    ∃ P : BlockId → Parts,
      (∀ b, f.Reached b → Places ⟨f, .ofFunc f, cpu⟩ prog b (P b)) ∧
      ∀ (b : BlockId) (i : Nat) (m₀ m₁ : Machine), f.Reached b →
        Course (bitCells f (.ofFunc f)) prog prog m₀ ((P b).behind i) m₁ →
        ∀ d ∈ f.layout, ∀ v ∈ (f.block d).values, (f.value v).type = .i1 → f.Done b i v →
          ∀ (e : BlockId) (j : Nat) (m₂ : Machine), f.Reached e →
            Course (bitCells f (.ofFunc f)) prog ((P b).behind i) m₁ ((P e).behind j) m₂ →
            (m₂.mem.get (addressOf m₂ (Context.home ⟨f, .ofFunc f, cpu⟩ v))).toNat < 2 := by
  obtain ⟨hnodup, entry, body, hentry, rfl, hhead, hplaces⟩ := function_places h.flow hgen
  have hall : ∀ b, ∃ p, f.Reached b → Places ⟨f, .ofFunc f, cpu⟩ body b p := fun b => by
    by_cases hb : f.Reached b
    · obtain ⟨p, hp⟩ := hplaces b hb
      exact ⟨p, fun _ => hp⟩
    · exact ⟨⟨[], [], []⟩, fun hb' => absurd hb' hb⟩
  choose P hP using hall
  have hcomp : Compiled ⟨f, .ofFunc f, cpu⟩ (frameNeed f) entry body P :=
    ⟨h, hty, hconst, hparams, hbits, laid_ofFunc h.ssa hneed, hnodup, hentry, hhead, hP⟩
  exact ⟨P, fun b hb => (hP b hb).prefixed entry, fun b i m₀ m₁ hb hfirst d hd v hv htype hc e j m₂ he
    hthen => hcomp.bit_kept hb hv hd htype hc hfirst he hthen⟩

/-- A bit that goes around a loop, changed on every turn by the result of a comparison. -/
def toggling : Func where
  name := "toggle"
  ret := .i1
  params := [.i1, .i32]
  values := #[
    { op := .param, type := .i1, block := some 0 },
    { op := .param, type := .i32, block := some 0, aux := 1 },
    { op := .icmp, type := .i1, block := some 0, args := [.value 1, .value 1] },
    { op := .phi, type := .i1, block := some 1, args := [.value 0, .value 4] },
    { op := .xor, type := .i1, block := some 1, args := [.value 3, .value 2] }]
  blocks := #[
    { values := [0, 1, 2], kind := .jump, succs := [1] },
    { values := [3, 4], kind := .branch, control := .value 4, succs := [1, 2], preds := [0, 1] },
    { kind := .ret, control := .value 4, preds := [1] }]
  layout := [0, 1, 2]
  paramValues := [0, 1]

set_option maxRecDepth 10000 in
/-- The phi holds a bit when the loop's block begins, on the first turn and on every later one. -/
theorem slot_holds_bit_toggling : ∃ prog ls,
    Context.function ⟨toggling, .ofFunc toggling, {}⟩ = .ok (prog, ls) ∧ ∃ P : BlockId → Parts,
      Places ⟨toggling, .ofFunc toggling, {}⟩ prog 1 (P 1) ∧ ∀ m₀ m₁,
        Course (bitCells toggling (.ofFunc toggling)) prog prog m₀ ((P 1).behind 0) m₁ →
        (m₁.mem.get (addressOf m₁ (Context.home ⟨toggling, .ofFunc toggling, {}⟩ 3))).toNat < 2 := by
  have hloop : toggling.Reached 1 := (Reach.refl _ _).step (by decide +kernel)
  obtain ⟨prog, ls, hgen⟩ : ∃ prog ls,
    Context.function ⟨toggling, .ofFunc toggling, {}⟩ = .ok (prog, ls) := ⟨_, _, rfl⟩
  obtain ⟨P, hplaces, hbit⟩ := slot_holds_bit (by decide +kernel) (by decide +kernel)
    (by decide +kernel) (by decide +kernel) (by decide +kernel) (by decide +kernel) hgen
  refine ⟨prog, ls, hgen, P, hplaces 1 hloop, fun m₀ m₁ hrun => ?_⟩
  have hcomp : toggling.Done 1 0 3 := .inr (.inr ⟨by decide +kernel, by decide +kernel⟩)
  exact hbit 1 0 m₀ m₁ hloop hrun 1 (by decide +kernel) 3 (by decide +kernel) (by decide +kernel) hcomp
    1 0 m₁ hloop .refl

end Lower
end SsaJit
