import SsaJit.Proofs.Build.Division
import SsaJit.Proofs.Build.Exact
import SsaJit.Proofs.Build.Reshape

/-! Conversion between truth values and integers, in every lane. Between types of one representation
nothing is built; a truth value and a byte have the same size but not the same representation, so that
the one direction that goes by sizes alone is refused. -/

namespace SsaJit.Build

open Func BuildM

variable {s : Session} {f g : Func} {b : BlockId} {a v : ValueId} {t u : SType} {w : UInt64}
  {P : regionInterp.State → Prop} {Γ : List Meaning} {x : regionInterp.State → Nat → UInt64}

namespace SType

theorem isInt_of_isBitwise (ht : t.isBitwise = true) : t.ty.elemKind.isInt = true := by
  rcases Bool.or_eq_true .. ▸ ht with ht | ht
  · exact (lane_word ht).1.isInt
  · rw [beq_iff_eq.mp ht]
    rfl

/-- Numbers come with or without a sign, and truth values without. -/
theorem numClass_of_isBitwise (ht : t.isBitwise = true) :
    t.numClass ≠ .float ∧ t.numClass ≠ .pointer ∧ (t.numClass = .bool ↔ t = .bool) := by
  cases t <;> simp_all [isBitwise, isInteger, numClass]

/-- What conversion to the type makes of a number: whether there is one, or as many of its bits as the
type has. -/
def converted (t : SType) (n : Int) : Int :=
  if t = .bool then if n = 0 then 0 else 1 else t.ty.elemKind.wrap t.isSigned n

/-- The same pattern as a number of another type of its representation. -/
theorem number_reread (ht : t.isBitwise = true) (hty : t.ty = u.ty) (hw : t.ty.elemKind.canon w = w) :
    u.number w = u.converted (t.number w) := by
  have hint := isInt_of_isBitwise ht
  by_cases hu : u = .bool
  · subst hu
    have hbit : t = .bool := by cases t <;> simp_all [ty]
    subst hbit
    have hcases : w = 0 ∨ w = 1 := by
      have := Kind.and_one_eq w
      rwa [show w &&& 1 = w from hw] at this
    rcases hcases with rfl | rfl <;> rfl
  · rw [converted, if_neg hu, ← hty, number, number, ← hty]
    nth_rewrite 1 [← hw]
    exact Kind.number_trunc hint hint le_rfl

/-- Types are told apart by their lanes. -/
theorem ty_eq (hlanes : t.ty.numLanes = u.ty.numLanes) (hkind : t.ty.elemKind = u.ty.elemKind) :
    t.ty = u.ty := by
  have hshape : ∀ r : SType, r.ty = if r.ty.numLanes = 1 then .scalar r.ty.elemKind
      else .vec r.ty.elemKind (UInt8.ofNat r.ty.numLanes) := fun r => by cases r <;> rfl
  rw [hshape t, hshape u, hlanes, hkind]

/-- Of two kinds of one size, the truth values are of the one with a single bit. -/
theorem bool_of_size (ht : t.isBitwise = true) (hu : u.isBitwise = true)
    (hlanes : t.ty.numLanes = u.ty.numLanes) (hsize : t.ty.elemKind.size = u.ty.elemKind.size)
    (hty : t.ty ≠ u.ty) (hub : u ≠ .bool) : t = .bool ∧ (u = .byte ∨ u = .sbyte) := by
  have hkind := mt (ty_eq hlanes) hty
  have hbit : t = .bool := by
    by_contra htb
    have hwide : ∀ r : SType, r.isBitwise = true → r ≠ .bool →
        r.ty.elemKind ∈ [Kind.i8, .i16, .i32, .i64] := by
      intro r hr hne
      cases r <;> first | decide | exact absurd rfl hne | simp [isBitwise, isInteger, numClass] at hr
    have hk := hwide t ht htb
    have hj := hwide u hu hub
    simp only [List.mem_cons, List.not_mem_nil, or_false] at hk hj
    rcases hk with hk | hk | hk | hk <;> rcases hj with hj | hj | hj | hj <;>
      simp [hk, hj, Kind.size] at hsize hkind
  subst hbit
  cases u <;> simp_all [isBitwise, isInteger, numClass, ty, Ty.elemKind, Ty.numLanes, Kind.size]

end SType

/-! ## What is built -/

/-- The instruction that converts numbers of one width to another. -/
def resizing (t u : SType) : Op :=
  if u.ty.elemKind.size < t.ty.elemKind.size then .trunc else if t.isSigned then .sext else .zext

/-- Conversion between truth values and integers. -/
theorem convert_eq (ht : t.isBitwise = true) (hu : u.isBitwise = true)
    (hlanes : t.ty.numLanes = u.ty.numLanes) : convert u (own s t a) =
      if t.ty = u.ty then rewrap u (own s t a)
      else if u = .bool then into s.id u (do
        let zero ← constNull t.ty
        icmp .ne (.value a) zero)
      else if t.ty.elemKind.size = u.ty.elemKind.size then rewrap u (own s t a)
      else into s.id u (cast (resizing t u) (.value a) u.ty) := by
  obtain ⟨htf, htp, -⟩ := SType.numClass_of_isBitwise ht
  obtain ⟨huf, hup, hub⟩ := SType.numClass_of_isBitwise hu
  have hsession : sessionOf [own s t a] = pure s.id := rfl
  have htype : (own s t a).type = t := rfl
  have hoperand : (own s t a).operand = .value a := rfl
  unfold convert
  rw [hsession, pure_bind]
  simp only [htype, hoperand, hlanes, htf, htp, huf, hup, hub, ne_eq, not_true, not_false_eq_true, and_true,
    and_false, or_self, if_false, false_and, resizing, SType.isSigned]
  by_cases h₁ : t.ty = u.ty
  · simp [h₁]
  by_cases h₂ : u = .bool
  · simp [h₂]
  by_cases h₃ : u.ty.elemKind.size < t.ty.elemKind.size
  · simp [h₁, h₂, h₃, h₃.ne']
  by_cases h₄ : t.ty.elemKind.size = u.ty.elemKind.size
  · simp [h₁, h₂, h₄]
  · by_cases h₅ : t.numClass = .signed <;> simp [h₁, h₂, h₃, h₄, h₅]

/-- The lane that the instruction makes. -/
def resizedWord (t u : SType) (w : UInt64) : UInt64 :=
  u.ty.elemKind.canon (if resizing t u = .sext then (t.ty.elemKind.signExtend w).toUInt64 else w)

theorem resizing_mem (t u : SType) : resizing t u ∈ [Op.trunc, .zext, .sext] := by
  unfold resizing
  split_ifs <;> decide

theorem evalCast_resizing (t u : SType) (w : UInt64) :
    evalCast (resizing t u) t.ty.elemKind u.ty.elemKind w = some (resizedWord t u w) := by
  unfold resizedWord resizing
  split_ifs <;> first | rfl | simp_all

/-- A lane of another width stands for as many bits of its number as the other type has. -/
theorem number_resizedWord (ht : t.isBitwise = true) (hu : u.isBitwise = true) :
    u.number (resizedWord t u w) = u.ty.elemKind.wrap u.isSigned (t.number w) := by
  have hint := SType.isInt_of_isBitwise ht
  have hint' := SType.isInt_of_isBitwise hu
  unfold resizedWord resizing SType.number
  by_cases hsize : u.ty.elemKind.size < t.ty.elemKind.size
  · rw [if_pos hsize, if_neg (by decide)]
    exact Kind.number_trunc hint hint' (Kind.bits_lt hint hsize).le
  rw [if_neg hsize]
  cases hsigned : t.isSigned with
  | true => exact Kind.number_sext hint'
  | false => exact Kind.number_zext hint'

theorem castRule?_resizing (ht : t.isBitwise = true) (hu : u.isBitwise = true)
    (hlanes : t.ty.numLanes = u.ty.numLanes) (hsize : t.ty.elemKind.size ≠ u.ty.elemKind.size) :
    castRule? (resizing t u) t.ty u.ty = none := by
  have hint := SType.isInt_of_isBitwise ht
  have hint' := SType.isInt_of_isBitwise hu
  by_cases hless : u.ty.elemKind.size < t.ty.elemKind.size
  · have hbits := Kind.bits_lt hint hless
    simp [castRule?, resizing, hless, hlanes, hint, hint', hbits]
  · have hbits := Kind.bits_lt hint' (lt_of_le_of_ne (Nat.le_of_not_lt hless) hsize)
    cases hsigned : t.isSigned <;> simp [castRule?, resizing, hless, hlanes, hint, hint', hbits, hsigned]

/-! ## What it computes -/

/-- The flag of a single lane is a truth value. -/
theorem flag_of_single (ht : t.isBitwise = true) (hlanes : t.ty.numLanes = 1) : t.ty.flag = .i1 := by
  cases t <;> first | rfl | simp [SType.ty, Ty.numLanes] at hlanes

/-- Is there a number at all? -/
theorem Ledger.nonzero (hs : s.closed = false) (h : Ledger f b P g Γ) (ht : t.ty.isInt = true)
    (ha : ⟨a, t.ty, x⟩ ∈ Γ) : Adds s f b P g Γ (do
      let zero ← constNull t.ty
      BuildM.icmp .ne (.value a) zero) .value t.ty.flag fun st i =>
        flagWord t.ty.flag.elemKind (x st i ≠ 0) := by
  obtain ⟨g₁, v₁, hgives₁, h₁⟩ := h.constSplat hs t.ty 0
  obtain ⟨g₂, v₂, hgives₂, h₂⟩ := h₁.flag (p := .ne) (R := (· ≠ ·)) hs ⟨rfl, rfl⟩ ht
    (fun _ _ => by rw [decide_not, ← beq_eq_decide]; rfl) (.tail _ ha) (.head _)
  refine ⟨g₂, v₂, hgives₁.bind hgives₂, h₂.settle (fun e he => .tail _ he) fun st _ i _ => ?_⟩
  rw [Kind.canon_zero]

section arms

variable (ht : t.isBitwise = true) (hs : s.closed = false) (hf : Site f b) (ha : Given f b [(a, t)])
include ht hs hf ha

omit hs in
/-- Between types of one representation the lanes are those that were there. -/
theorem yields_reread (hty : t.ty = u.ty) : Yields s f b [(a, t)] u (rewrap u (own s t a))
    fun env => (t.numbers (env a)).map u.converted := by
  refine yields_there hf ha hty (by rw [rewrap]; exact gives_unless (not_not.mpr hty) (gives_pure _))
    fun st hst => ?_
  rw [hst.numbers List.mem_cons_self, SType.numbers, (hst.fitting List.mem_cons_self).env, List.map_map]
  refine List.map_congr_left fun w hw => ?_
  obtain ⟨i, hi, rfl⟩ := List.mem_map.mp hw
  exact SType.number_reread ht hty (hst.canon List.mem_cons_self (List.mem_range.mp hi))

/-- A truth value says whether there is a number. -/
theorem yields_nonzero (hlane : t.ty.numLanes = 1) :
    Yields s f b [(a, t)] .bool (into s.id .bool (do
      let zero ← constNull t.ty
      icmp .ne (.value a) zero)) fun env => (t.numbers (env a)).map SType.bool.converted := by
  have hint := SType.isInt_of_isBitwise ht
  have hadds := (ledger_givens hf ha).nonzero hs hint (.head _)
  rw [flag_of_single ht hlane] at hadds
  refine yields_of_adds hadds.into (fun st _ i _ => canon_flagWord .i1) fun st hst => ?_
  have hlanes : t.ty.numLanes = SType.bool.ty.numLanes := hlane
  rw [hst.numbers List.mem_cons_self, row, row, hlanes, List.map_map, List.map_map, List.map_map]
  refine List.map_congr_left fun i hi => ?_
  have hcanon := hst.canon List.mem_cons_self (hlanes ▸ List.mem_range.mp hi)
  have hzero : t.number (laneIn st a i) = 0 ↔ laneIn st a i = 0 := Kind.number_eq_zero hint hcanon
  simp only [Function.comp_apply, SType.converted, if_true, hzero, flagWord]
  by_cases hw : laneIn st a i = 0
  · rw [if_neg (not_not.mpr hw), if_pos hw]
    rfl
  · rw [if_pos hw, if_neg hw]
    rfl

/-- Numbers of another width have as many of the bits as there is room for. -/
theorem yields_resized (hu : u.isBitwise = true) (hlanes : t.ty.numLanes = u.ty.numLanes)
    (hub : u ≠ .bool) (hsize : t.ty.elemKind.size ≠ u.ty.elemKind.size) :
    Yields s f b [(a, t)] u (into s.id u (cast (resizing t u) (.value a) u.ty))
      fun env => (t.numbers (env a)).map u.converted := by
  have hwidth := Kind.size_ne_zero_of_isInt (SType.isInt_of_isBitwise hu)
  have hadds := (ledger_givens hf ha).cast hs (resizing_mem t u) (castRule?_resizing ht hu hlanes hsize)
    (.head _) fun st _ i _ => evalCast_resizing t u (laneIn st a i)
  refine yields_of_adds hadds.into (fun st _ i _ => Kind.cut_canon hwidth) fun st hst => ?_
  rw [hst.numbers List.mem_cons_self, row, row, hlanes, List.map_map, List.map_map, List.map_map]
  refine List.map_congr_left fun i _ => ?_
  simp only [Function.comp_apply, SType.converted, if_neg hub]
  exact number_resizedWord ht hu

end arms

/-- Conversion between truth values and integers computes in every lane whether there is a number, or as
many of its bits as there is room for; only that of a truth value to a byte is refused, for the two have
one size. -/
theorem convert_exact (ht : t.isBitwise = true) (hu : u.isBitwise = true)
    (hlanes : t.ty.numLanes = u.ty.numLanes) (hs : s.closed = false) (hf : Site f b)
    (ha : Given f b [(a, t)]) :
    (¬ (t = .bool ∧ (u = .byte ∨ u = .sbyte)) →
      Yields s f b [(a, t)] u (convert u (own s t a)) fun env => (t.numbers (env a)).map u.converted) ∧
    (t = .bool ∧ (u = .byte ∨ u = .sbyte) → (convert u (own s t a)).run.run (s.on f b) =
      (.error (.refusal (.handleType (valueLabel a) .i1 .i8)), s.on f b)) := by
  rw [convert_eq ht hu hlanes]
  constructor
  · intro hdefined
    by_cases hty : t.ty = u.ty
    · rw [if_pos hty]
      exact yields_reread ht hf ha hty
    rw [if_neg hty]
    by_cases hub : u = .bool
    · subst hub
      rw [if_pos rfl]
      exact yields_nonzero ht hs hf ha hlanes
    have hsize : t.ty.elemKind.size ≠ u.ty.elemKind.size := fun h =>
      hdefined (SType.bool_of_size ht hu hlanes h hty hub)
    rw [if_neg hub, if_neg hsize]
    exact yields_resized ht hs hf ha hu hlanes hub hsize
  · rintro ⟨rfl, hbyte⟩
    have hb : u.ty = .i8 ∧ u ≠ .bool := by rcases hbyte with rfl | rfl <;> exact ⟨rfl, by decide⟩
    have hsame : SType.bool.ty.elemKind.size = Ty.i8.elemKind.size := rfl
    rw [hb.1, if_neg (by decide), if_neg hb.2, if_pos hsame, rewrap]
    change (if Ty.i1 ≠ u.ty then refuse (.handleType (valueLabel a) .i1 u.ty)
      else (pure _ : BuildM Handle)).run.run _ = _
    rw [hb.1]
    rfl

/-- A function of four numbers and a truth value, as it begins. -/
def mixed : Func := Func.empty "mixed" .i8 [.vec .i16 4, .i1]

/-- Minus one, 1, the least number and 0; and the truth. -/
def mixedState : (processorInterp {}).State where
  env v := .lanes (if v = 0 then [0xFFFF, 1, 0x8000, 0] else [1])
  mem := { args := [], bytes := fun _ => [] }

theorem convert_exact_mixed : (∃ g v st',
    (convert .uint4 (own {} .short4 0)).Gives (Session.on {} mixed 0) (own {} .uint4 v)
        (Session.on {} g 0) ∧
      (List.range' mixed.numValues (g.numValues - mixed.numValues)).foldlM g.exec mixedState = .ok st' ∧
      SType.uint4.numbers (st'.env v) = [4294967295, 1, 4294934528, 0]) ∧
    (convert .byte (own {} .bool 1)).run.run (Session.on {} mixed 0) =
      (.error (.refusal (.handleType "v1" .i1 .i8)), Session.on {} mixed 0) := by
  have hbegun : Begun .i8 [.vec .i16 4, .i1] mixed := begun_empty _ _ _
  have hwide := (convert_exact (t := .short4) (u := .uint4) (s := {}) rfl rfl rfl rfl hbegun.site
    (a := 0) (hbegun.given (by decide))).1 (by decide)
  have hbit := (convert_exact (t := .bool) (u := .byte) (s := {}) rfl rfl rfl rfl hbegun.site
    (a := 1) (hbegun.given (by decide))).2 (by decide)
  exact ⟨hwide.leaves mixedState (by decide) (by decide), hbit⟩

end SsaJit.Build
