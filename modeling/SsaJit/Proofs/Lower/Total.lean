import SsaJit.Proofs.Lower.Confined
import SsaJit.Proofs.Lower.Pieces
import SsaJit.Proofs.Lower.Settled

/-! Every value has code. Whatever the verifier admits is of a width that loads and stores have; only
where a value is moved between its slot and a register as it is, as parameters, arguments and results
are, its size may be an odd one. The code mentions no label that it does not bind, the labels of blocks
and of read-only data apart. -/

namespace SsaJit.Lower

open X86 Outcome

variable {odd : Nat → Prop} {known : Label → Prop} {code code' : Code} {is : List (Instr Label)}
  {p q r : Place} {k : Kind} {n : Nat}

/-! ## Labels that code mentions -/

/-- A place that is no address in the code. -/
def Aside (p : Place) : Prop := ∃ b d, p = .based b d

theorem Aside.shift (h : Aside p) (n : Nat) : Aside (shift p n) := by
  obtain ⟨b, d, rfl⟩ := h
  exact ⟨b, _, rfl⟩

theorem Aside.offset (h : Aside p) (n : Int64) : Aside (p.offset n) := by
  obtain ⟨b, d, rfl⟩ := h
  exact ⟨b, _, rfl⟩

theorem Aside.inFrame (d : Int32) : Aside (inFrame d) := ⟨.rbp, d, rfl⟩

theorem Aside.slot (c : Context) (o : Operand) : Aside (c.slot o) := by
  cases o <;> exact .inFrame _

/-- The code binds the labels that it mentions, or they are known otherwise. -/
def Closed (known : Label → Prop) (code : Code) : Prop :=
  ∀ i l, .instr i ∈ code → i.target? = some l → l ∈ marks code ∨ known l

namespace Closed

theorem nil : Closed known [] := fun _ _ h => absurd h List.not_mem_nil

theorem mono {known' : Label → Prop} (h : Closed known code) (hk : ∀ l, known l → known' l) :
    Closed known' code := fun i l hi hl => (h i l hi hl).imp_right (hk l)

theorem append (h : Closed known code) (h' : Closed known code') : Closed known (code ++ code') := by
  intro i l hi hl
  rw [marks_append, List.mem_append]
  rcases List.mem_append.mp hi with hi | hi
  · exact (h i l hi hl).imp_left .inl
  · exact (h' i l hi hl).imp_left .inr

theorem flatten {cs : List Code} (h : ∀ c ∈ cs, Closed known c) : Closed known cs.flatten := by
  induction cs with
  | nil => exact nil
  | cons c cs ih =>
    exact (h c List.mem_cons_self).append (ih fun c hc => h c (List.mem_cons_of_mem _ hc))

theorem straight (h : ∀ i ∈ is, i.target? = none) : Closed known (straight is) := by
  intro i l hi hl
  rw [h i (mem_straight.mp hi)] at hl
  cases hl

/-- The same for instructions that are written out. -/
theorem all (h : is.all (·.target?.isNone) = true) : Closed known (Lower.straight is) :=
  .straight fun i hi => Option.isNone_iff_eq_none.mp (List.all_eq_true.mp h i hi)

end Closed

theorem target?_movImm (r : Reg) (w : UInt64) : (Instr.movImm r w : Instr Label).target? = none := by
  unfold Instr.movImm
  split <;> rfl

theorem closed_copy (hp : Aside p) (hq : Aside q) (n : Nat) : Closed known (copy p q n) := by
  obtain ⟨b, d, rfl⟩ := hp
  obtain ⟨b', d', rfl⟩ := hq
  refine .straight fun i hi => ?_
  obtain ⟨⟨off, k⟩, -, hi⟩ := List.mem_flatMap.mp hi
  dsimp only at hi
  split at hi <;> simp only [List.mem_cons, List.not_mem_nil, or_false] at hi <;>
    rcases hi with rfl | rfl <;> rfl

theorem closed_storeBytes (hp : Aside p) (data : List UInt8) : Closed known (storeBytes p data) := by
  obtain ⟨b, d, rfl⟩ := hp
  refine .straight fun i hi => ?_
  obtain ⟨⟨off, k⟩, -, hi⟩ := List.mem_flatMap.mp hi
  simp only [List.mem_cons, List.not_mem_nil, or_false] at hi
  rcases hi with rfl | rfl
  · exact target?_movImm _ _
  · rfl

theorem target?_selectChunk (hp : Aside p) (hq : Aside q) (hr : Aside r) (n : Nat) :
    ∀ i ∈ selectChunk p q r n, i.target? = none := by
  obtain ⟨b, d, rfl⟩ := hp
  obtain ⟨b', d', rfl⟩ := hq
  obtain ⟨b'', d'', rfl⟩ := hr
  intro i hi
  simp only [selectChunk, List.mem_cons, List.not_mem_nil, or_false] at hi
  rcases hi with rfl | rfl | rfl | rfl <;> rfl

/-! ## Sizes -/

/-- A size that is moved through a register in one piece. -/
def Whole (n : Nat) : Prop := n ∈ [1, 2, 4, 8, 16]

theorem settles_access (h : Wide n ∨ odd n) (s : Bool) :
    (Access.ofSize n s).Settles odd fun _ => True := by
  by_cases hw : Wide n
  · rcases hw with rfl | rfl | rfl | rfl <;> exact settles_ok trivial
  · have hn : (n : Int) ≠ 1 ∧ (n : Int) ≠ 2 ∧ (n : Int) ≠ 4 ∧ (n : Int) ≠ 8 := by
      simp only [Wide, not_or] at hw
      omega
    refine .inr (.inr ⟨n, h.resolve_left hw, .inl ?_⟩)
    rw [Access.ofSize, if_neg hn.1, if_neg hn.2.1, if_neg hn.2.2.1, if_neg hn.2.2.2]
    rfl

theorem settles_width (h : Wide n ∨ odd n) : (Width.ofSize n).Settles odd fun _ => True := by
  by_cases hw : Wide n
  · rcases hw with rfl | rfl | rfl | rfl <;> exact settles_ok trivial
  · have hn : (n : Int) ≠ 1 ∧ (n : Int) ≠ 2 ∧ (n : Int) ≠ 4 ∧ (n : Int) ≠ 8 := by
      simp only [Wide, not_or] at hw
      omega
    refine .inr (.inr ⟨n, h.resolve_left hw, .inr ?_⟩)
    rw [Width.ofSize, if_neg hn.1, if_neg hn.2.1, if_neg hn.2.2.1, if_neg hn.2.2.2]
    rfl

/-! ## Pieces of code -/

/-- The code, unless a size is odd, mentions no label but its own. -/
def Emitted (odd : Nat → Prop) (r : Outcome Code) : Prop := r.Settles odd (Closed fun _ => False)

namespace Emitted

theorem pure (h : Closed (fun _ => False) code) : Emitted odd (pure code) := settles_ok h

theorem bind {α : Type} {x : Outcome α} {good : α → Prop} {g : α → Outcome Code}
    (hx : x.Settles odd good) (hg : ∀ a, good a → Emitted odd (g a)) : Emitted odd (x >>= g) :=
  Settles.bind hx fun a _ ha => hg a ha

theorem append {x y : Outcome Code} (hx : Emitted odd x) (hy : Emitted odd y) :
    Emitted odd (do return (← x) ++ (← y)) :=
  .bind hx fun _ ha => .bind hy fun _ hb => .pure (ha.append hb)

theorem mapM {α : Type} {g : α → Outcome Code} {l : List α} (h : ∀ a ∈ l, Emitted odd (g a)) :
    Emitted odd (do return (← l.mapM g).flatten) :=
  .bind (settles_mapM h) fun _ hcs => .pure (.flatten hcs)

theorem eachLane {lane : Nat → Outcome Code} (h : ∀ i < n, Emitted odd (lane i)) :
    Emitted odd (eachLane n lane) := .mapM fun i hi => h i (List.mem_range.mp hi)

end Emitted

theorem emitted_loadInt (r : Reg) (hp : Aside p) (h : Wide k.size ∨ odd k.size) (s : Bool) :
    Emitted odd (loadInt r p k s) := by
  obtain ⟨b, d, rfl⟩ := hp
  refine .bind (settles_access h s) fun a _ => .pure (.all ?_)
  split <;> rfl

theorem emitted_storeInt (r : Reg) (hp : Aside p) (h : Wide k.size ∨ odd k.size) :
    Emitted odd (storeInt p r k) := by
  obtain ⟨b, d, rfl⟩ := hp
  refine .bind (settles_width h) fun w _ => .pure (.all ?_)
  split <;> rfl

theorem wide_or_odd (h : Whole n ∨ odd n) (h16 : n ≠ 16) : Wide n ∨ odd n :=
  h.imp_left fun h => by
    simp only [Whole, Wide, List.mem_cons, List.not_mem_nil, or_false] at h ⊢
    omega

theorem kind_size_ne (k : Kind) : k.size ≠ 16 := by
  cases k <;> simp [Kind.size]

theorem emitted_loadX (x : XReg) (hp : Aside p) (h : Whole n ∨ odd n) : Emitted odd (loadX x p n) := by
  obtain ⟨b, d, rfl⟩ := hp
  unfold loadX
  split
  · exact .pure (.all rfl)
  next h16 =>
  split
  · exact .pure (.all rfl)
  · exact .bind (settles_access (wide_or_odd h h16) false) fun a _ => .pure (.all rfl)

theorem emitted_storeX (x : XReg) (hp : Aside p) (h : Whole n ∨ odd n) :
    Emitted odd (storeX p x n) := by
  obtain ⟨b, d, rfl⟩ := hp
  unfold storeX
  split
  · exact .pure (.all rfl)
  next h16 =>
  split
  · exact .pure (.all rfl)
  · exact .bind (settles_width (wide_or_odd h h16)) fun a _ => .pure (.all rfl)

/-! ## Lanes -/

theorem closed_intArith (op : Op) : Closed known (straight (intArith op)) := by
  refine .all ?_
  cases op <;> rfl

theorem emitted_scalarBinary (op : Op) (hp : Aside p) (hq : Aside q) (hr : Aside r)
    (h : Wide k.size) : Emitted odd (scalarBinary op k p q r) := by
  unfold scalarBinary
  split
  · obtain ⟨b, d, rfl⟩ := hp
    obtain ⟨b', d', rfl⟩ := hq
    obtain ⟨b'', d'', rfl⟩ := hr
    exact .pure (.all rfl)
  · refine .bind (emitted_loadInt _ hq (.inl h) _) fun _ ha =>
      .bind (emitted_loadInt _ hr (.inl h) _) fun _ hb =>
      .bind (emitted_storeInt _ hp (.inl h)) fun _ hc => .pure ?_
    exact ((ha.append hb).append (closed_intArith op)).append hc

theorem closed_scalarUnary (op : Op) (hp : Aside p) (hq : Aside q) :
    Closed known (scalarUnary op p q) := by
  obtain ⟨b, d, rfl⟩ := hp
  obtain ⟨b', d', rfl⟩ := hq
  unfold scalarUnary
  split
  · exact .all rfl
  · exact .all rfl

theorem emitted_compare (o : Predicate) (hp : Aside p) (hq : Aside q)
    (h : o.isFloat = false → Wide k.size) : Emitted odd (compare o k p q) := by
  unfold compare
  split
  · obtain ⟨b, d, rfl⟩ := hp
    obtain ⟨b', d', rfl⟩ := hq
    generalize floatTest o = t
    obtain ⟨swap, cond, joined⟩ := t
    refine .pure (.all ?_)
    cases swap <;> cases joined <;> rfl
  · next ho =>
    have h := h (by simpa using ho)
    refine .bind (emitted_loadInt _ hp (.inl h) _) fun _ ha =>
      .bind (emitted_loadInt _ hq (.inl h) _) fun _ hb => .pure ?_
    exact (ha.append hb).append (.all rfl)

/-- None of its instructions has an operand in memory, so what they mention are the jumps. -/
theorem closed_unsignedToFloat (big done : Label) : Closed known (unsignedToFloat big done) := by
  intro i l hi hl
  refine .inl ((confined_unsignedToFloat (d := 0) (n := 0) big done).jumps i l hi ?_)
  simp only [unsignedToFloat, Lower.straight, List.map_cons, List.map_nil, List.cons_append,
    List.nil_append, List.mem_cons, Item.instr.injEq, reduceCtorEq, List.not_mem_nil, or_false,
    false_or] at hi
  rcases hi with rfl | rfl | rfl | rfl | rfl | rfl | rfl | rfl | rfl | rfl <;>
    exact hl

theorem emitted_cast {op : Op} {s t : Kind} (h : Converts op s t) (hp : Aside p) (hq : Aside q)
    (big done : Label) : Emitted odd (cast op s t p q big done) := by
  have hs : Wide s.size := wide_of_size h.size_ne_zero
  have hreg : ∀ {k}, InReg k → Wide k.size := fun {k} hk =>
    wide_of_size (by rcases hk.size with hk | hk | hk | hk <;> omega)
  obtain ⟨b, d, rfl⟩ := hp
  obtain ⟨b', d', rfl⟩ := hq
  cases op with
  | trunc | zext | ptrtoint | inttoptr | sext =>
    exact .append (emitted_loadInt _ ⟨_, _, rfl⟩ (.inl hs) _)
      (emitted_storeInt _ ⟨_, _, rfl⟩ (.inl (hreg h.2)))
  | fptosi | fptoui =>
    exact .bind (emitted_storeInt _ ⟨_, _, rfl⟩ (.inl (hreg h.2))) fun _ ha => .pure (.append (.all rfl) ha)
  | sitofp =>
    exact .bind (emitted_loadInt _ ⟨_, _, rfl⟩ (.inl hs) _) fun _ ha => .pure (ha.append (.all rfl))
  | uitofp =>
    refine .bind (emitted_loadInt _ ⟨_, _, rfl⟩ (.inl hs) _) fun _ ha =>
      .pure ((ha.append ?_).append (.all rfl))
    split
    · exact closed_unsignedToFloat big done
    · exact .all rfl
  | _ => exact .pure .nil

/-! ## Vector instructions -/

theorem closed_vectorBinary {cpu : Features} {op : Op} {t : Ty} (hp : Aside p) (hq : Aside q)
    (hr : Aside r) (h : vectorBinary cpu op t p q r = some code) : Closed known code := by
  obtain ⟨b, d, rfl⟩ := hp
  obtain ⟨b', d', rfl⟩ := hq
  obtain ⟨b'', d'', rfl⟩ := hr
  unfold vectorBinary at h
  split at h
  · cases h
  split at h
  · cases h
  split at h
  · cases h
    exact .all rfl
  · cases h

theorem closed_vectorCompare {op : Op} {o : Predicate} {t : Ty} (hp : Aside p) (hq : Aside q)
    (hr : Aside r) (h : vectorCompare op o t p q r = some code) : Closed known code := by
  obtain ⟨b, d, rfl⟩ := hp
  obtain ⟨b', d', rfl⟩ := hq
  obtain ⟨b'', d'', rfl⟩ := hr
  unfold vectorCompare at h
  split at h
  · cases h
  split at h
  · obtain ⟨⟨imm, swap⟩, -, h⟩ := Option.bind_eq_some_iff.mp h
    cases h
    cases swap <;> exact .all rfl
  · obtain ⟨⟨equal, greater⟩, -, h⟩ := Option.bind_eq_some_iff.mp h
    obtain ⟨⟨i, swap, invert⟩, -, h⟩ := Option.bind_eq_some_iff.mp h
    cases h
    cases swap <;> cases invert <;> exact .all rfl

theorem closed_vectorCast {op : Op} {source target : Ty} (hp : Aside p) (hq : Aside q)
    (h : vectorCast op source target p q = some code) : Closed known code := by
  obtain ⟨b, d, rfl⟩ := hp
  obtain ⟨b', d', rfl⟩ := hq
  unfold vectorCast at h
  dsimp only at h
  split at h
  · cases h
    exact .all rfl
  split at h
  · cases h
    exact .all rfl
  · cases h

/-! ## Values -/

section values

variable {c : Context} {x : Value} {v : ValueId} {ts : List Ty} {home : Prop}

/-- An operand that is there has a place. -/
theorem settles_arg (hts : List.Forall₂ c.func.OfType x.args ts) {i : Nat} (hi : i < ts.length) :
    (c.arg x i).Settles odd Aside := by
  rw [← hts.length_eq] at hi
  rw [Context.arg, at?_eq_ok.mpr (List.getElem?_eq_getElem hi), ok_bind]
  exact settles_ok (.slot c _)

/-- An operand that is there has a type. -/
theorem settles_argument (hts : List.Forall₂ c.func.OfType x.args ts) {i : Nat} (hi : i < ts.length) :
    (c.func.argument x i).Settles odd fun a => ts[i]? = some a.type := by
  have hi' : i < x.args.length := hts.length_eq ▸ hi
  obtain ⟨a, hfind, -⟩ := (List.forall₂_iff_get.mp hts).2 i hi' hi
  have harg : c.func.argument x i = .ok a := by
    rw [Func.argument, at?_eq_ok.mpr (List.getElem?_eq_getElem hi')]
    exact hfind
  exact .inl ⟨a, harg, argType_of_argument hts harg⟩

theorem settles_typeOf (hts : List.Forall₂ c.func.OfType x.args ts) {i : Nat} (hi : i < ts.length) :
    (c.typeOf x i).Settles odd fun t => ts[i]? = some t :=
  (settles_argument hts hi).bind fun _ _ ha => settles_ok ha

theorem wide_of_valid {t : Ty} (h : t.Valid) (hv : t.isVector = true) : Wide t.elemKind.size := by
  cases t with
  | scalar k => cases hv
  | vec e n => exact wide_of_laneKind h.1

theorem emitted_select {s : Ty} (hts : List.Forall₂ c.func.OfType x.args [s, x.type, x.type])
    (hs : s = .i1 ∨ s.isVector = true ∧ s.isInt = true ∧ s.numLanes = x.type.numLanes)
    (hvalid : s.Valid) (hvalid' : x.type.Valid) (hp : Aside p) : Emitted odd (c.select x p) := by
  unfold Context.select
  have harg : ∀ i < 3, (Outcome.at? x.args i).Settles odd fun _ => True := fun i hi =>
    Answers.settles ⟨_, at?_eq_ok.mpr (List.getElem?_eq_getElem (hts.length_eq ▸ hi))⟩
  refine .bind (settles_argument hts (by simp)) fun cond hcond => .bind (harg 0 (by decide)) fun a _ =>
    .bind (harg 1 (by decide)) fun b _ => .bind (harg 2 (by decide)) fun b' _ => ?_
  obtain rfl : s = cond.type := by simpa using hcond
  dsimp only
  split
  · refine .bind (emitted_loadInt _ (.slot c a) (.inl (wide_of_isInt rfl)) _) fun _ hload =>
      .pure (hload.append (.straight fun i hi => ?_))
    rcases List.mem_cons.mp hi with rfl | hi
    · rfl
    · obtain ⟨⟨off, k⟩, -, hi⟩ := List.mem_flatMap.mp hi
      exact target?_selectChunk (hp.shift _) ((Aside.slot c b).shift _) ((Aside.slot c b').shift _) _ i hi
  next hvector =>
  have hvector : cond.type.isVector = true := by simpa using hvector
  obtain ⟨-, hint, hlanes⟩ := hs.resolve_left fun h => by rw [h] at hvector; cases hvector
  split
  · obtain ⟨e, d, rfl⟩ := hp
    obtain ⟨e₀, d₀, h₀⟩ := Aside.slot c a
    obtain ⟨e₁, d₁, h₁⟩ := Aside.slot c b
    obtain ⟨e₂, d₂, h₂⟩ := Aside.slot c b'
    rw [h₀, h₁, h₂]
    exact .pure (.all rfl)
  · have hvector' : x.type.isVector = true := by
      cases hx : x.type with
      | vec e n => rfl
      | scalar k =>
        cases hc : cond.type with
        | scalar k => rw [hc] at hvector; cases hvector
        | vec e n =>
          rw [hc] at hvalid hlanes
          rw [hx] at hlanes
          have h1 : n.toNat = 1 := hlanes
          have h2 := hvalid.2.1
          omega
    refine .eachLane fun i _ => .bind (settles_access (.inl (wide_of_valid hvalid hvector)) false)
      fun test _ => .bind (settles_access (.inl (wide_of_valid hvalid' hvector')) false) fun _ _ => .pure ?_
    rw [straight_append]
    refine .append ?_ (.straight (target?_selectChunk (hp.shift _) ((Aside.slot c b).shift _)
      ((Aside.slot c b').shift _) _))
    obtain ⟨e, d, h⟩ := (Aside.slot c a).shift (i * cond.type.elemKind.size)
    rw [h]
    exact .all rfl

/-- Integers that are still to be passed find room. -/
theorem emitted_passArgs {args : List Operand} {ints : List Reg} (vecs : Nat)
    (hargs : ∀ o ∈ args, ∃ w, o = .value w ∧
      (Whole (c.func.value w).type.size ∨ odd (c.func.value w).type.size))
    (hroom : (classify (args.map c.func.operandType)).1 ≤ ints.length) :
    Emitted odd (c.passArgs args ints vecs) := by
  induction args generalizing ints vecs with
  | nil => exact .pure .nil
  | cons a args ih =>
    obtain ⟨⟨w, rfl, hsize⟩, hrest⟩ := List.forall_mem_cons.mp hargs
    unfold Context.passArgs
    rw [show c.func.find (.value w) = .ok (c.func.value w) from rfl, ok_bind]
    dsimp only
    have hcount : (classify ((Operand.value w :: args).map c.func.operandType)).1 =
        (if inVectorReg (c.func.value w).type then 0 else 1) +
          (classify (args.map c.func.operandType)).1 := by
      simp only [classify, List.map_cons, Func.operandType, List.filter_cons]
      cases inVectorReg (c.func.value w).type <;> simp [Nat.add_comm]
    rw [hcount] at hroom
    split
    · next hreg =>
      rw [if_pos hreg, Nat.zero_add] at hroom
      exact .append (emitted_loadX _ (.slot c _) hsize) (ih _ hrest hroom)
    · next hreg =>
      rw [if_neg hreg] at hroom
      cases ints with
      | nil =>
        rw [List.length_nil] at hroom
        omega
      | cons r ints =>
        rw [List.length_cons] at hroom
        refine .append (emitted_loadInt _ (.slot c _) ?_ _) (ih _ hrest (by omega))
        rw [size_of_inReg hreg] at hsize
        exact wide_or_odd hsize (kind_size_ne _)

/-- What is known of a value that is to have code. -/
structure Codable (c : Context) (odd : Nat → Prop) (x : Value) (ts : List Ty) (home : Prop) : Prop where
  types : List.Forall₂ c.func.OfType x.args ts
  typed : Func.WellTyped x ts home
  valid : x.type.Valid
  argsValid : ∀ t ∈ ts, t.Valid
  args : ∀ o ∈ x.args, ∃ w, o = .value w
  room : x.op = .call → exceedsRegs ((x.args.drop 1).map c.func.operandType) = false
  constant : x.op = .const → x.type.isVector = false → Whole x.type.size ∨ odd x.type.size
  argument : x.op = .call → ∀ w, .value w ∈ x.args.drop 1 →
    Whole (c.func.value w).type.size ∨ odd (c.func.value w).type.size
  result : x.op = .call → x.type.isVoid = false → Whole x.type.size ∨ odd x.type.size
  operand : x.op = .intrinsic → ∀ t, ts[0]? = some t → Whole t.size ∨ odd t.size
  outcome : x.op = .intrinsic → Whole x.type.size ∨ odd x.type.size

theorem emitted_call (h : Codable c odd x ts home) (hop : x.op = .call) (hp : Aside p) :
    Emitted odd (c.call x p) := by
  obtain ⟨rest, rfl⟩ := callee_of_typed h.typed hop
  unfold Context.call
  have hlen := h.types.length_eq
  have hargs := h.args
  have hargument := h.argument hop
  have hroom := h.room hop
  split
  · next hnil =>
    rw [hnil] at hlen
    cases hlen
  next callee args hx =>
  rw [hx] at hargs hargument hroom
  obtain ⟨⟨w, rfl⟩, hrest⟩ := List.forall_mem_cons.mp hargs
  refine .bind (emitted_passArgs 0 (fun o ho => ?_) ?_) fun _ hloaded =>
    .bind (emitted_loadInt _ (.slot c _) (.inl (wide_of_size (by decide))) _) fun _ htarget => ?_
  · obtain ⟨u, rfl⟩ := hrest o ho
    exact ⟨u, rfl, hargument u ho⟩
  · simp only [exceedsRegs, Bool.or_eq_false_iff, decide_eq_false_iff_not, List.drop_succ_cons,
      List.drop_zero] at hroom
    omega
  have hend : ∀ result, Closed (fun _ => False) result → Emitted odd
      (pure (_ ++ _ ++ straight [.call .r11] ++ result)) := fun result hr =>
    .pure (((hloaded.append htarget).append (.all rfl)).append hr)
  dsimp only
  split
  · exact hend [] .nil
  next hvoid =>
  have hresult := h.result hop (by simpa using hvoid)
  split
  · exact .bind (emitted_storeX _ hp hresult) hend
  · next hreg =>
    rw [size_of_inReg hreg] at hresult
    exact .bind (emitted_storeInt _ hp (wide_or_odd hresult (kind_size_ne _))) hend

theorem emitted_constant (h : Codable c odd x ts home) (hop : x.op = .const) (hp : Aside p) :
    Emitted odd (constant x p) := by
  have hty := h.typed
  rw [Func.WellTyped, hop] at hty
  unfold Lower.constant
  split
  · next hvector =>
    have hlen : (x.lanes.getD []).length = x.type.numLanes := hty hvector
    rw [bytesOfLanes, if_neg (by omega), ok_bind]
    exact .pure (closed_storeBytes hp _)
  · next hscalar =>
    have hsize := h.constant hop (by simpa using hscalar)
    have hne : x.type.size ≠ 16 := by
      cases hx : x.type with
      | scalar k =>
        change 1 * k.size ≠ 16
        rw [Nat.one_mul]
        exact kind_size_ne k
      | vec e n =>
        rw [hx] at hscalar
        exact absurd rfl hscalar
    obtain ⟨b, d, rfl⟩ := hp
    refine .bind (settles_width (wide_or_odd hsize hne)) fun w _ => .pure (.straight fun i hi => ?_)
    simp only [List.mem_cons, List.not_mem_nil, or_false] at hi
    rcases hi with rfl | rfl
    · exact target?_movImm _ _
    · rfl

theorem emitted_shuffle (h : Codable c odd x ts home) (hop : x.op = .shuffle) (hp : Aside p) :
    Emitted odd (c.shuffle x p) := by
  have hty := h.typed
  have hts := h.types
  rw [Func.WellTyped, hop] at hty
  obtain ⟨s, rfl, -, hvector, -⟩ := hty
  have hwide := wide_of_valid h.valid hvector
  have harg : ∀ i < 2, (Outcome.at? x.args i).Settles odd fun _ => True := fun i hi =>
    Answers.settles ⟨_, at?_eq_ok.mpr (List.getElem?_eq_getElem (hts.length_eq ▸ hi))⟩
  unfold Context.shuffle
  refine .bind (settles_argument hts (by simp)) fun a _ => .mapM fun m _ => ?_
  dsimp only
  split
  · obtain ⟨b, d, hq⟩ := hp.shift (m.2 * x.type.elemKind.size)
    rw [hq]
    exact .bind (settles_width (.inl hwide)) fun w _ => .pure (.all rfl)
  · split
    · exact .bind (harg 0 (by decide)) fun o _ =>
        .pure (closed_copy (hp.shift _) ((Aside.slot c o).shift _) _)
    · exact .bind (harg 1 (by decide)) fun o _ =>
        .pure (closed_copy (hp.shift _) ((Aside.slot c o).shift _) _)

theorem emitted_intrinsicCode (h : Codable c odd x ts home) (hop : x.op = .intrinsic) (hp : Aside p) :
    Emitted odd (c.intrinsicCode x p) := by
  have hts := h.types
  unfold Context.intrinsicCode
  refine .bind (settles_intrinsic h.args) fun i hne => ?_
  have hlen : 0 < ts.length := hts.length_eq ▸ List.length_pos_iff.mpr hne
  have harg : (Outcome.at? x.args 0).Settles odd fun _ => True :=
    Answers.settles ⟨_, at?_eq_ok.mpr (List.getElem?_eq_getElem (hts.length_eq ▸ hlen))⟩
  refine .bind (settles_argument hts hlen) fun a ha => .bind harg fun o _ => ?_
  have hsize := h.operand hop _ ha
  refine .bind (emitted_loadX _ (.slot c o) hsize) fun _ hfirst => ?_
  split
  · exact .bind (emitted_loadX _ (.slot c _) hsize) fun _ hsecond =>
      .bind (emitted_storeX _ hp (h.outcome hop)) fun _ hstore =>
      .pure (((hfirst.append hsecond).append (.all rfl)).append hstore)
  · exact .bind (emitted_storeX _ hp (h.outcome hop)) fun _ hstore =>
      .pure ((hfirst.append (.all rfl)).append hstore)

theorem wide_of_isFloat {t : Ty} (h : t.isFloat = true) : Wide t.elemKind.size := by
  rw [show t.elemKind = .f32 by simpa [Ty.isFloat] using h]
  exact wide_of_size (by decide)

/-- Integers, pointers and floats are compared. -/
theorem wide_of_compared {t : Ty} {isInt : Prop} [Decidable isInt]
    (h : if isInt then (t.isInt || t.isPtr) = true else t.isFloat = true) : Wide t.elemKind.size := by
  split at h
  · rcases Bool.or_eq_true_iff.mp h with h | h
    · exact wide_of_isInt h
    · cases t with
      | scalar k =>
        obtain rfl : k = .ptr := by simpa [Ty.isPtr, Ty.kind] using h
        exact wide_of_size (by decide)
      | vec e n => cases h
  · exact wide_of_isFloat h

theorem wide_ptr : Wide Kind.ptr.size := wide_of_size (by decide)

theorem wide_bit : Wide Kind.i1.size := wide_of_size (by decide)

theorem emitted_binaryCode (h : Codable c odd x ts home) (hop : x.op.isBinary = true) (hp : Aside p) :
    Emitted odd (c.binaryCode x p) := by
  have hty := h.typed
  rw [Func.WellTyped, if_pos hop] at hty
  obtain ⟨rfl, hkind⟩ := hty
  have hwide : Wide x.type.elemKind.size := by
    split at hkind
    · exact wide_of_isFloat hkind
    · exact wide_of_isInt hkind
  unfold Context.binaryCode
  dsimp only
  split
  · exact .pure .nil
  refine .bind (settles_arg h.types (by simp)) fun a ha =>
    .bind (settles_arg h.types (by simp)) fun b hb => ?_
  split
  · next code hcode =>
    refine .pure ?_
    split at hcode
    · exact closed_vectorBinary hp ha hb hcode
    · cases hcode
  · exact .eachLane fun i _ => emitted_scalarBinary _ (hp.shift _) (ha.shift _) (hb.shift _) hwide

theorem emitted_unaryCode (hts : List.Forall₂ c.func.OfType x.args [x.type]) (hp : Aside p) :
    Emitted odd (c.unaryCode x p) := by
  unfold Context.unaryCode
  split
  · refine .bind (settles_arg hts (by simp)) fun a ha => ?_
    obtain ⟨b, d, rfl⟩ := hp
    obtain ⟨b', d', rfl⟩ := ha
    exact .pure (.all rfl)
  · exact .eachLane fun i _ => .bind (settles_arg hts (by simp)) fun a ha =>
      .pure (closed_scalarUnary _ (hp.shift _) (ha.shift _))

theorem emitted_compareCode {s : Ty} (hts : List.Forall₂ c.func.OfType x.args [s, s])
    (hwide : Wide s.elemKind.size) (hp : Aside p) : Emitted odd (c.compareCode x p) := by
  unfold Context.compareCode
  refine .bind (settles_typeOf hts (by simp)) fun source hsource => ?_
  obtain rfl : s = source := by simpa using hsource
  split
  · exact .pure .nil
  refine .bind (settles_arg hts (by simp)) fun a ha => .bind (settles_arg hts (by simp)) fun b hb => ?_
  split
  · next hscalar =>
    have hkind : s.kind = s.elemKind := by
      cases s with
      | scalar k => rfl
      | vec e n => simp [Ty.isVector] at hscalar
    exact .append (emitted_compare _ ha hb fun _ => by rwa [hkind]) (emitted_storeInt _ hp (.inl wide_bit))
  · split
    · next code hcode => exact .pure (closed_vectorCompare hp ha hb hcode)
    · refine .eachLane fun i _ => .bind (emitted_compare _ (ha.shift _) (hb.shift _) fun _ => hwide)
        fun _ hcompare => .bind (settles_width (.inl hwide)) fun w _ => .pure (hcompare.append ?_)
      obtain ⟨b, d, hd⟩ := hp.shift (i * s.elemKind.size)
      rw [hd]
      exact .all rfl

theorem emitted_loadCode (hts : List.Forall₂ c.func.OfType x.args [.ptr]) (hp : Aside p) :
    Emitted odd (c.loadCode x p) := by
  unfold Context.loadCode
  refine .bind (settles_arg hts (by simp)) fun a ha =>
    .bind (emitted_loadInt _ ha (.inl wide_ptr) _) fun _ haddress => ?_
  split
  · exact .bind (emitted_storeInt _ hp (.inl wide_bit)) fun _ hstore =>
      .pure ((haddress.append (.all rfl)).append hstore)
  · exact .pure (haddress.append (closed_copy hp ⟨_, _, rfl⟩ _))

theorem emitted_storeCode {s : Ty} (hts : List.Forall₂ c.func.OfType x.args [s, .ptr]) :
    Emitted odd (c.storeCode x) :=
  .bind (settles_arg hts (by simp)) fun _ ha => .bind (emitted_loadInt _ ha (.inl wide_ptr) _)
    fun _ haddress => .bind (settles_arg hts (by simp)) fun _ hb =>
    .bind (settles_typeOf hts (by simp)) fun _ _ =>
    .pure (haddress.append (closed_copy ⟨_, _, rfl⟩ hb _))

theorem emitted_gepCode {s : Ty} (hts : List.Forall₂ c.func.OfType x.args [.ptr, s])
    (hint : s.isInt = true) (hscalar : s.isVector = false) (hp : Aside p) :
    Emitted odd (c.gepCode x p) := by
  refine .bind (settles_arg hts (by simp)) fun a ha =>
    .bind (emitted_loadInt _ ha (.inl wide_ptr) _) fun _ hbase =>
    .bind (settles_arg hts (by simp)) fun b hb =>
    .bind (settles_typeOf hts (by simp)) fun index hindex => ?_
  obtain rfl : s = index := by simpa using hindex
  have hwide : Wide s.kind.size := by
    cases s with
    | scalar k => exact wide_of_isInt hint
    | vec e n => cases hscalar
  refine .bind (emitted_loadInt _ hb (.inl hwide) _) fun _ hload =>
    .pure ((hbase.append hload).append ?_)
  obtain ⟨b, d, rfl⟩ := hp
  refine .all ?_
  unfold Context.scaled
  split <;> rfl

theorem emitted_insertCode {s : Ty} (hts : List.Forall₂ c.func.OfType x.args [x.type, s])
    (hp : Aside p) : Emitted odd (c.insertCode x p) :=
  .bind (settles_arg hts (by simp)) fun _ ha => .bind (settles_arg hts (by simp)) fun _ hb =>
    .pure ((closed_copy hp ha _).append (closed_copy (hp.offset _) hb _))

theorem emitted_plain (h : Codable c odd x ts home) : Emitted odd (c.plain v x) := by
  have hts := h.types
  have hty := h.typed
  have hdst : Aside (c.home v) := .inFrame _
  rw [Context.plain_eq]
  split
  · next hbin => exact emitted_binaryCode h hbin hdst
  next hbin =>
  have hbin : x.op.isBinary = false := by simpa using hbin
  rw [Func.WellTyped, hbin, if_neg Bool.false_ne_true] at hty
  split
  case h_1 hop => exact emitted_constant h hop hdst
  case h_2 =>
    obtain ⟨b, d, hd⟩ := hdst
    rw [hd]
    exact .pure (.all rfl)
  case h_3 hop | h_4 hop =>
    rw [hop] at hty
    obtain ⟨-, rfl⟩ := hty
    exact emitted_unaryCode hts hdst
  case h_5 hop | h_6 hop =>
    rw [hop] at hty
    obtain ⟨s, rfl, -, hkinds⟩ := hty
    exact emitted_compareCode hts (wide_of_compared hkinds.2) hdst
  case h_7 hop =>
    rw [hop] at hty
    obtain ⟨s, rfl, -⟩ := hty
    exact .bind (settles_arg hts (by simp)) fun a ha => .pure (closed_copy hdst ha _)
  case h_8 hop =>
    rw [hop] at hty
    obtain rfl : ts = [x.type] := hty
    exact .bind (settles_arg hts (by simp)) fun a ha => .pure (closed_copy hdst ha _)
  case h_9 hop =>
    rw [hop] at hty
    obtain rfl : ts = [.ptr] := hty
    exact emitted_loadCode hts hdst
  case h_10 hop =>
    rw [hop] at hty
    obtain ⟨-, s, rfl⟩ := hty
    exact emitted_storeCode hts
  case h_11 hop =>
    rw [hop] at hty
    obtain ⟨-, s, rfl, hint, hscalar⟩ := hty
    exact emitted_gepCode hts hint hscalar hdst
  case h_12 hop =>
    rw [hop] at hty
    obtain ⟨s, rfl, -⟩ := hty
    exact .bind (settles_arg hts (by simp)) fun a ha => .pure (closed_copy hdst (ha.offset _) _)
  case h_13 hop =>
    rw [hop] at hty
    obtain ⟨rfl, -⟩ := hty
    exact emitted_insertCode hts hdst
  case h_14 hop => exact emitted_shuffle h hop hdst
  case h_15 hop =>
    rw [hop] at hty
    obtain ⟨s, rfl, hs⟩ := hty
    exact emitted_select hts hs (h.argsValid s List.mem_cons_self) h.valid hdst
  case h_16 hop => exact emitted_call h hop hdst
  case h_17 hop => exact emitted_intrinsicCode h hop hdst
  case h_18 => exact settles_fail _

/-- Code mentions its own labels, those of the read-only data so far, and others that are known; data
that was not there before is of some global. -/
structure Labelled (known : Label → Prop) (ls : Labels) (code : Code) (ls' : Labels) : Prop where
  closed : Closed (fun l => (∃ g, (g, l) ∈ ls'.globals) ∨ known l) code
  kept : ∀ e ∈ ls.globals, e ∈ ls'.globals
  present : ∀ e ∈ ls'.globals, e ∈ ls.globals ∨ e.1.isSome = true

theorem labelled_of_closed {ls ls' : Labels} (h : Closed (fun _ => False) code)
    (hg : ls'.globals = ls.globals) : Labelled known ls code ls' :=
  ⟨h.mono fun _ hl => hl.elim, fun e he => by rwa [hg], fun e he => .inl (by rwa [hg] at he)⟩

theorem labelled_conversion (h : Codable c odd x ts home) (hop : x.op.isCast = true)
    (hne : x.op ≠ .bitcast) (ls : Labels) :
    (c.conversion v x ls).Settles odd fun y => Labelled known ls y.1 y.2 := by
  have hts := h.types
  have hty := h.typed
  rw [Func.WellTyped, Op.isBinary_of_isCast hop, if_neg Bool.false_ne_true, if_pos hop] at hty
  obtain ⟨s, rfl, hrule⟩ := hty
  obtain ⟨-, hkinds⟩ := converts_of_castRule hop hne hrule
  have hdst : Aside (c.home v) := .inFrame _
  unfold Context.conversion
  dsimp only
  refine (settles_argument hts (by simp)).bind fun source _ hsource => ?_
  obtain rfl : s = source.type := by simpa using hsource
  refine Settles.bind (Answers.settles ⟨_, at?_eq_ok.mpr (List.getElem?_eq_getElem (i := 0)
    (hts.length_eq ▸ by simp))⟩) fun o _ _ => ?_
  split
  · next code hcode =>
    exact settles_ok (labelled_of_closed (closed_vectorCast hdst (.slot c o) hcode) rfl)
  · refine Settles.bind (Emitted.eachLane fun i _ =>
      emitted_cast hkinds (hdst.shift _) ((Aside.slot c o).shift _) _ _) fun code _ hcode => settles_ok ?_
    exact labelled_of_closed hcode rfl

theorem ofGlobal_spec (ls : Labels) {g : Option Global} (hg : g.isSome = true) :
    (g, (ls.ofGlobal g).1) ∈ (ls.ofGlobal g).2.globals ∧
      (∀ e ∈ ls.globals, e ∈ (ls.ofGlobal g).2.globals) ∧
      ∀ e ∈ (ls.ofGlobal g).2.globals, e ∈ ls.globals ∨ e.1.isSome = true := by
  unfold Labels.ofGlobal
  cases hl : ls.globals.lookup g with
  | some l =>
    obtain ⟨l₁, l₂, heq, -⟩ := List.lookup_eq_some_iff.mp hl
    exact ⟨by rw [heq]; simp, fun _ he => he, fun _ he => .inl he⟩
  | none =>
    refine ⟨List.mem_append_right _ List.mem_cons_self, fun _ he => List.mem_append_left _ he, fun e he => ?_⟩
    refine (List.mem_append.mp he).imp_right fun he => ?_
    rwa [List.mem_singleton.mp he]

/-- Every value that is neither a phi nor a parameter has code. -/
theorem labelled_value (h : Codable c odd x ts home) (ls : Labels) :
    (c.value v x ls).Settles odd fun y => Labelled known ls y.1 y.2 := by
  unfold Context.value
  split
  · next hop =>
    have hty := h.typed
    rw [Func.WellTyped, hop] at hty
    obtain ⟨hmem, hkept, hpresent⟩ := ofGlobal_spec ls hty.1
    refine settles_ok ⟨fun i l hi hl => .inr (.inl ⟨x.global, ?_⟩), hkept, hpresent⟩
    have hi := mem_straight.mp hi
    simp only [List.mem_cons, List.not_mem_nil, or_false] at hi
    rcases hi with rfl | rfl
    · obtain rfl := Option.some.inj hl
      exact hmem
    · cases hl
  split
  · next hop => exact labelled_conversion h hop.1 hop.2 ls
  · exact Settles.bind (emitted_plain h) fun code _ hcode => settles_ok (labelled_of_closed hcode rfl)

end values

end SsaJit.Lower
