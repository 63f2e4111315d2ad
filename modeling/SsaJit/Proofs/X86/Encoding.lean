import SsaJit.Proofs.X86.Run
import SsaJit.X86.Assembler

/-! Instructions are read back from their bytes, whatever follows them. The parts of an encoding are
read back one by one: fields, the bytes in front of the opcode, and ModRM with what belongs to it; each
instruction is then a matter of its opcode. -/

namespace SsaJit.X86

/-! ## Fields -/

section Fields

variable (rest : List UInt8)

theorem readInt32_bytes32 (w : UInt32) : readInt32 (bytes32 w ++ rest) = some (w.toInt32, rest) := by
  have back : ofLeBytes (bytes32 w) = w.toUInt64 &&& 0xFFFFFFFF :=
    ofLeBytes_leBytes (by decide) (by decide)
  have same : (w.toUInt64 &&& 0xFFFFFFFF).toUInt32 = w := by
    apply UInt32.toNat.inj
    simp [Nat.and_two_pow_sub_one_eq_mod (n := 32)]
  change some ((ofLeBytes (bytes32 w)).toUInt32.toInt32, rest) = _
  rw [back, same]

theorem toInt32_immByte {n : Int32} (fits : fitsByte n = true) :
    (immByte n).toInt8.toInt32 = n := by
  have low : (immByte n).toInt8 = n.toInt8 := by
    apply Int8.toBitVec.inj
    simp [immByte, BitVec.signExtend_eq_setWidth_of_le]
  simp only [fitsByte, decide_eq_true_eq, Int32.le_iff_toInt_le] at fits
  have least : (-128 : Int32).toInt = -128 := by decide
  have most : (127 : Int32).toInt = 127 := by decide
  rw [least, most] at fits
  apply Int32.toInt.inj
  rw [low, Int8.toInt_toInt32, Int32.toInt_toInt8]
  exact Int.bmod_eq_of_le (by omega) (by omega)

theorem readInt8_immByte {n : Int32} (fits : fitsByte n = true) :
    readInt8 (immByte n :: rest) = some (n, rest) := by
  rw [readInt8, toInt32_immByte fits]

theorem readWord_leBytes (w : UInt64) : readWord (leBytes 8 w ++ rest) = some (w, rest) := by
  have len : (leBytes 8 w).length = 8 := length_leBytes 8 w
  rw [readWord, if_neg (by rw [List.length_append]; omega), List.take_left' len, List.drop_left' len,
    ofLeBytes_leBytes_word]

end Fields

theorem Reg.code_ofCode : ∀ n : Fin 16, (Reg.ofCode n).code = n := by
  decide

/-! ## In front of the opcode -/

/-- The REX byte of an encoding, as it is read. -/
def rexOf (w force : Bool) (reg base : Fin 16) : Rex where
  present := w || 8 ≤ reg.val || 8 ≤ base.val || force
  w
  r := 8 ≤ reg.val
  b := 8 ≤ base.val

theorem rexOf_w (w force : Bool) (reg base : Fin 16) : (rexOf w force reg base).w = w := rfl

/-- The mandatory bytes there are; zero stands for none. -/
def isMandatory (b : UInt8) : Bool := b = 0 ∨ b = 0x66 ∨ b = 0xF3 ∨ b = 0xF2

/-- Bytes that cannot be in front of an opcode. -/
def isOpcode (b : UInt8) : Bool := !(0x40 ≤ b ∧ b < 0x50) ∧ b ≠ 0x66 ∧ b ≠ 0xF3 ∧ b ≠ 0xF2

theorem ofByte_rexByte : ∀ w r b, (0x40 ≤ rexByte w r b ∧ rexByte w r b < 0x50) ∧
    Rex.ofByte (rexByte w r b) = ⟨true, w, r, false, b⟩ := by
  decide

/-- What stands in front of an opcode without a mandatory byte: REX or nothing. -/
theorem leading_zero (w force : Bool) (reg base : Fin 16) :
    (rexOf w force reg base).present = true ∧
        leading 0 w force reg base = [rexByte w (8 ≤ reg.val) (8 ≤ base.val)] ∨
      rexOf w force reg base = {} ∧ leading 0 w force reg base = [] := by
  simp only [leading, if_true, List.nil_append, rexOf]
  cases needed : w || decide (8 ≤ reg.val) || decide (8 ≤ base.val) || force with
  | true => exact .inl ⟨rfl, rfl⟩
  | false =>
    simp only [Bool.or_eq_false_iff] at needed
    obtain ⟨⟨⟨rfl, hr⟩, hb⟩, -⟩ := needed
    exact .inr ⟨by rw [hr, hb], rfl⟩

theorem leading_cons {mandatory : UInt8} (h : mandatory ≠ 0) (w force : Bool) (reg base : Fin 16) :
    leading mandatory w force reg base = mandatory :: leading 0 w force reg base := by
  simp [leading, h]

theorem decodeRex_leading (mandatory : UInt8) (w force : Bool) (reg base : Fin 16) {op : UInt8}
    (hop : isOpcode op = true) (bs : List UInt8) :
    decodeRex mandatory (leading 0 w force reg base ++ op :: bs) =
      decodeOpcode mandatory (rexOf w force reg base) (op :: bs) := by
  simp only [isOpcode, Bool.not_eq_true', decide_eq_false_iff_not, decide_eq_true_eq] at hop
  rcases leading_zero w force reg base with ⟨present, front⟩ | ⟨none_needed, front⟩
  · obtain ⟨isRex, bits⟩ := ofByte_rexByte w (8 ≤ reg.val) (8 ≤ base.val)
    rw [front, List.singleton_append, decodeRex, if_pos isRex, bits, ← present]
    rfl
  · rw [front, List.nil_append, decodeRex, if_neg hop.1, none_needed]

theorem decode_leading {mandatory : UInt8} (hm : isMandatory mandatory = true) (w force : Bool)
    (reg base : Fin 16) {op : UInt8} (hop : isOpcode op = true) (bs : List UInt8) :
    decode (leading mandatory w force reg base ++ op :: bs) =
      decodeOpcode mandatory (rexOf w force reg base) (op :: bs) := by
  rw [← decodeRex_leading mandatory w force reg base hop bs]
  by_cases none_needed : mandatory = 0
  · subst none_needed
    simp only [isOpcode, Bool.not_eq_true', decide_eq_false_iff_not, decide_eq_true_eq] at hop
    rcases leading_zero w force reg base with ⟨-, front⟩ | ⟨-, front⟩
    · have other : ∀ w r b, ¬ (rexByte w r b = 0x66 ∨ rexByte w r b = 0xF3 ∨ rexByte w r b = 0xF2) := by
        decide
      rw [front, List.singleton_append, decode, if_neg (other _ _ _)]
    · rw [front, List.nil_append, decode, if_neg (by simp [hop.2])]
  · simp only [isMandatory, none_needed, false_or, decide_eq_true_eq] at hm
    rw [leading_cons none_needed, List.cons_append, decode, if_pos hm]

/-! ## Operands -/

theorem toNat_modrm (mod : Fin 4) (reg rm : Fin 16) :
    (modrm (UInt8.ofNat mod) reg rm).toNat = mod * 64 + reg % 8 * 8 + rm % 8 := by
  have hmod := mod.isLt
  have low : (reg.val % 8) <<< 3 ||| rm.val % 8 = reg % 8 * 8 + rm % 8 := by
    rw [← Nat.shiftLeft_add_eq_or_of_lt (by omega), Nat.shiftLeft_eq]
  have whole : mod.val <<< 6 ||| ((reg.val % 8) <<< 3 ||| rm.val % 8) =
      mod * 64 + reg % 8 * 8 + rm % 8 := by
    rw [low, ← Nat.shiftLeft_add_eq_or_of_lt (by omega), Nat.shiftLeft_eq, Nat.add_assoc]
  have hhigh : (UInt8.ofNat mod <<< 6).toNat = mod.val <<< 6 := by
    simp [Nat.shiftLeft_eq]
    omega
  have hmid : (UInt8.ofNat (reg % 8) <<< 3).toNat = (reg.val % 8) <<< 3 := by
    simp [Nat.shiftLeft_eq]
    omega
  have hlow : (UInt8.ofNat (rm % 8)).toNat = rm.val % 8 := by
    simp
    omega
  rw [modrm, UInt8.toNat_or, UInt8.toNat_or, hhigh, hmid, hlow, Nat.or_assoc, whole]

theorem joinBits_eq {n : Fin 16} {low : Nat} (h : low % 8 = n.val % 8) :
    joinBits (8 ≤ n.val) low = n := by
  have join : ∀ n : Fin 16, joinBits (8 ≤ n.val) (n.val % 8) = n := by decide
  rw [joinBits, h, ← Nat.mod_mod n.val 8]
  exact join n

section Operands

variable (w force : Bool) (rest : List UInt8)

theorem readModrm_regs (reg rm : Fin 16) :
    readModrm (rexOf w force reg rm) (modrm 3 reg rm :: rest) = some ((reg, .reg rm), rest) := by
  have byte : (modrm 3 reg rm).toNat = 3 * 64 + reg % 8 * 8 + rm % 8 := toNat_modrm 3 reg rm
  have is_reg : (modrm 3 reg rm).toNat / 64 = 3 := by omega
  have first : joinBits (8 ≤ reg.val) ((modrm 3 reg rm).toNat / 8) = reg := joinBits_eq (by omega)
  have second : joinBits (8 ≤ rm.val) ((modrm 3 reg rm).toNat % 8) = rm := joinBits_eq (by omega)
  simp only [readModrm, rexOf, is_reg, if_true, first, second]

/-- ModRM and the index byte, if one is needed, for a place based on a register. -/
theorem readModrm_based (mod : Fin 4) (reg : Fin 16) (base : Reg) (is_mem : mod.val ≠ 3)
    (hbase : mod.val = 0 → base.code.val % 8 ≠ 5) :
    readModrm (rexOf w force reg base.code) (modrm (UInt8.ofNat mod) reg base.code ::
        ((if base.code.val % 8 = 4 then [0x24] else []) ++ rest)) =
      (readBased mod base rest).map fun (m, rest) => ((reg, .mem m), rest) := by
  have byte := toNat_modrm mod reg base.code
  have not_code : ¬ (mod.val = 0 ∧ base.code.val % 8 = 5) := fun h => hbase h.1 h.2
  have same_mod : (modrm (UInt8.ofNat mod) reg base.code).toNat / 64 = mod := by omega
  have first : joinBits (8 ≤ reg.val) ((modrm (UInt8.ofNat mod) reg base.code).toNat / 8) = reg :=
    joinBits_eq (by omega)
  have second : Reg.ofCode (joinBits (8 ≤ base.code.val) (base.code.val % 8)) = base := by
    rw [joinBits_eq (Nat.mod_mod _ _), Reg.ofCode_code]
  have same_rm : (modrm (UInt8.ofNat mod) reg base.code).toNat % 8 = base.code.val % 8 := by omega
  simp only [readModrm, rexOf, same_mod, same_rm, is_mem, not_code, if_false, first]
  by_cases low : base.code.val % 8 = 4
  · rw [low] at second
    simp [low, second]
  · simp [low, second]

theorem readModrm_mem {τ : Type} (field : τ → UInt32) (reg : Fin 16) (m : Mem τ) :
    readModrm (rexOf w force reg (match m with
        | .based b _ => b.code
        | .code _ => 0)) (memOperand field reg m ++ rest) =
      some ((reg, .mem (m.map fun t => (field t).toInt32)), rest) := by
  cases m with
  | code t =>
    have byte : (modrm 0 reg 5).toNat = 0 * 64 + reg % 8 * 8 + 5 := toNat_modrm 0 reg 5
    have same_mod : (modrm 0 reg 5).toNat / 64 = 0 := by omega
    have same_rm : (modrm 0 reg 5).toNat % 8 = 5 := by omega
    have first : joinBits (8 ≤ reg.val) ((modrm 0 reg 5).toNat / 8) = reg := joinBits_eq (by omega)
    simp [memOperand, readModrm, rexOf, same_mod, same_rm, first, readInt32_bytes32, Mem.map]
  | based base disp =>
    simp only [memOperand, Mem.map]
    split
    · next none_needed =>
      obtain ⟨rfl, hbase⟩ := none_needed
      exact readModrm_based w force rest 0 reg base (by decide) fun _ => hbase
    · split
      · next fits =>
        rw [List.cons_append, List.cons_append, List.append_assoc]
        refine (readModrm_based w force _ 1 reg base (by decide) (by simp)).trans ?_
        simp [readBased, readInt8_immByte rest fits]
      · rw [List.cons_append, List.cons_append, List.append_assoc]
        refine (readModrm_based w force _ 2 reg base (by decide) (by simp)).trans ?_
        simp [readBased, readInt32_bytes32]

end Operands

/-! ## Instructions by the shape of their operands -/

section Shapes

variable {mandatory : UInt8} {w force : Bool} {op : UInt8} {ops : List UInt8} {reg rm : Fin 16}
  {rest : List UInt8}

theorem decode_onRegs (hm : isMandatory mandatory = true) (hop : isOpcode op = true) :
    decode (onRegs mandatory w force (op :: ops) reg rm ++ rest) =
      decodeOpcode mandatory (rexOf w force reg rm) (op :: ops ++ modrm 3 reg rm :: rest) := by
  rw [onRegs, List.append_assoc, List.append_assoc, List.cons_append, decode_leading hm _ _ _ _ hop]
  rfl

theorem decodeOpcode_wide {rex : Rex} {bs : List UInt8} (hw : rex.w = true) (h₁ : op ≠ 0x38)
    (h₂ : op ≠ 0x3A) : decodeOpcode mandatory rex (0x0F :: op :: bs) =
      decodeWide mandatory rex op bs := by
  rw [decodeOpcode, if_pos hw]
  · exact fun _ _ h => absurd h h₁
  · exact fun _ _ h => absurd h h₂

theorem decodeOpcode_narrow {rex : Rex} {bs : List UInt8} (hw : rex.w = false) (h₁ : op ≠ 0x38)
    (h₂ : op ≠ 0x3A) : decodeOpcode mandatory rex (0x0F :: op :: bs) =
      decodeNarrow mandatory rex op bs := by
  rw [decodeOpcode, if_neg (by simp [hw])]
  · exact fun _ _ h => absurd h h₁
  · exact fun _ _ h => absurd h h₂

/-- Two general registers. -/
theorem decode_twoRegs (make : Reg → Reg → Decoded) (hm : isMandatory mandatory = true)
    (hop : isOpcode op = true)
    (known : ∀ bs, decodeOpcode mandatory (rexOf w force reg rm) (op :: ops ++ bs) =
      twoRegs (rexOf w force reg rm) bs make) :
    decode (onRegs mandatory w force (op :: ops) reg rm ++ rest) =
      some (make (.ofCode reg) (.ofCode rm), rest) := by
  rw [decode_onRegs hm hop, known, twoRegs, readModrm_regs]

/-- A part of the opcode and a general register. -/
theorem decode_oneReg (make : Nat → Reg → List UInt8 → Parse Decoded)
    (hm : isMandatory mandatory = true) (hop : isOpcode op = true)
    (known : ∀ bs, decodeOpcode mandatory (rexOf w force reg rm) (op :: ops ++ bs) =
      oneReg (rexOf w force reg rm) bs make) :
    decode (onRegs mandatory w force (op :: ops) reg rm ++ rest) =
      make reg.val (.ofCode rm) rest := by
  rw [decode_onRegs hm hop, known, oneReg, readModrm_regs]

theorem decode_onMem {τ : Type} {field : τ → UInt32} {m : Mem τ}
    {r : Fin 16 → Mem Int32 → List UInt8 → Parse Decoded}
    (hm : isMandatory mandatory = true) (hop : isOpcode op = true)
    (known : ∀ base bs m rest, readModrm (rexOf w force reg base) bs = some ((reg, .mem m), rest) →
      decodeOpcode mandatory (rexOf w force reg base) (op :: ops ++ bs) = r reg m rest) :
    decode (onMem field mandatory w force (op :: ops) reg m ++ rest) =
      r reg (m.map fun t => (field t).toInt32) rest := by
  unfold onMem
  dsimp only
  rw [List.append_assoc, List.append_assoc, List.cons_append, decode_leading hm _ _ _ _ hop]
  exact known _ _ _ _ (readModrm_mem w force rest field reg m)

end Shapes

/-! ## Instructions -/

/-- Is a vector code that of an instruction on two vector registers, with an immediate only where there
is one? -/
def Instr.isEncodable {τ : Type} : Instr τ → Bool
  | .sse code _ _ imm => code.isVector && imm.isSome == code.hasImmediate
  | _ => true

section Instructions

variable {τ : Type} (field : τ → UInt32) (rest : List UInt8)

theorem decode_aluImm (op : AluImm) (r : Reg) (imm : Int32) :
    decode ((Instr.aluImm op r imm : Instr τ).encode field ++ rest) =
      some (.aluImm op r imm, rest) := by
  have known : aluImmOf op.digit = some op := by cases op <;> rfl
  simp only [Instr.encode]
  split
  · next fits =>
    rw [List.append_assoc, decode_onRegs rfl rfl]
    change aluWithImm _ _ readInt8 = _
    simp [aluWithImm, oneReg, readModrm_regs, known, readInt8_immByte rest fits]
  · rw [List.append_assoc, decode_onRegs rfl rfl]
    change aluWithImm _ _ readInt32 = _
    simp [aluWithImm, oneReg, readModrm_regs, known, readInt32_bytes32]

theorem decode_imulImm (dst src : Reg) (imm : Int32) :
    decode ((Instr.imulImm dst src imm : Instr τ).encode field ++ rest) =
      some (.imulImm dst src imm, rest) := by
  simp only [Instr.encode]
  split
  · next fits =>
    rw [List.append_assoc, decode_onRegs rfl rfl]
    change imulWithImm _ _ readInt8 = _
    simp [imulWithImm, readModrm_regs, readInt8_immByte rest fits]
  · rw [List.append_assoc, decode_onRegs rfl rfl]
    change imulWithImm _ _ readInt32 = _
    simp [imulWithImm, readModrm_regs, readInt32_bytes32]

theorem decode_alu (op : Alu) (dst src : Reg) :
    decode ((Instr.alu op dst src : Instr τ).encode field ++ rest) = some (.alu op dst src, rest) := by
  have operands := readModrm_regs true false rest src.code dst.code
  rw [Instr.encode, decode_onRegs rfl (by cases op <;> rfl)]
  cases op <;> simp [decodeOpcode, decodeShort, decodeWhole, rexOf_w, Alu.opcode, aluOf, operands]

theorem decode_load (dst : Reg) (m : Mem τ) (a : Access) :
    decode ((Instr.load dst m a).encode field ++ rest) =
      some (.load dst (m.map fun t => (field t).toInt32) a, rest) := by
  cases a with
  | u8 | s8 | u16 | s16 =>
    refine (decode_onMem (r := fun dst m rest => some (.load (.ofCode dst) m _, rest)) rfl rfl
      fun base bs m rest h => ?_).trans (by rw [Reg.ofCode_code])
    rw [List.cons_append, List.cons_append, decodeOpcode_wide rfl (by decide) (by decide)]
    simp [decodeWide, h, accessOf]
  | u32 | s32 | w64 =>
    refine (decode_onMem (r := fun dst m rest => some (.load (.ofCode dst) m _, rest)) rfl rfl
      fun base bs m rest h => ?_).trans (by rw [Reg.ofCode_code])
    change regMem _ bs _ = _
    rw [regMem, h]

theorem decode_store (m : Mem τ) (src : Reg) (width : Width) :
    decode ((Instr.store m src width).encode field ++ rest) =
      some (.store (m.map fun t => (field t).toInt32) src width, rest) := by
  cases width with
  | b1 =>
    have present : ∀ base, byteReg (rexOf false (needsRexAsByte src) src.code base) src.code =
        some src := by
      intro base
      cases h : needsRexAsByte src <;> simp_all [byteReg, needsRexAsByte, rexOf]
    refine decode_onMem (r := fun _ m rest => some (.store m src .b1, rest)) rfl rfl
      fun base bs m rest h => ?_
    simp [decodeOpcode, decodeShort, h, present]
  | b2 =>
    refine (decode_onMem (r := fun src m rest => some (.store m (.ofCode src) .b2, rest)) rfl rfl
      fun base bs m rest h => ?_).trans (by rw [Reg.ofCode_code])
    simp [decodeOpcode, rexOf_w, regMem, h]
  | b4 =>
    refine (decode_onMem (r := fun src m rest => some (.store m (.ofCode src) .b4, rest)) rfl rfl
      fun base bs m rest h => ?_).trans (by rw [Reg.ofCode_code])
    change regMem _ bs _ = _
    rw [regMem, h]
  | b8 =>
    refine (decode_onMem (r := fun src m rest => some (.store m (.ofCode src) .b8, rest)) rfl rfl
      fun base bs m rest h => ?_).trans (by rw [Reg.ofCode_code])
    simp [decodeOpcode, decodeShort, decodeWhole, rexOf_w, aluOf, h]

theorem decode_push (r : Reg) :
    decode ((Instr.push r : Instr τ).encode field ++ rest) = some (.push r, rest) := by
  cases r <;> rfl

theorem decode_pop (r : Reg) :
    decode ((Instr.pop r : Instr τ).encode field ++ rest) = some (.pop r, rest) := by
  cases r <;> rfl

theorem decode_movImm64 (r : Reg) (imm : UInt64) :
    decode ((Instr.movImm64 r imm : Instr τ).encode field ++ rest) = some (.movImm64 r imm, rest) := by
  have read := readWord_leBytes rest imm
  cases r <;>
    exact (congrArg (Option.map fun p => (Instr.movImm64 _ p.1, p.2)) read)

theorem setcc_opcode (cc : Cond) :
    let op := 0x90 + UInt8.ofNat cc.code.val
    op ≠ 0x38 ∧ op ≠ 0x3A ∧ op ≠ 0x0B ∧ ¬ (0x80 ≤ op ∧ op < 0x90) ∧ (0x90 ≤ op ∧ op < 0xA0) ∧
      condOf op = cc := by
  cases cc <;> decide

theorem decode_setcc (cc : Cond) (r : Reg) :
    decode ((Instr.setcc cc r : Instr τ).encode field ++ rest) = some (.setcc cc r, rest) := by
  have operands := readModrm_regs false (needsRexAsByte r) rest 0 r.code
  have present : byteReg (rexOf false (needsRexAsByte r) 0 r.code) r.code = some r := by
    cases h : needsRexAsByte r <;> simp_all [byteReg, needsRexAsByte, rexOf]
  obtain ⟨h₁, h₂, h₃, h₄, h₅, same⟩ := setcc_opcode cc
  rw [Instr.encode, decode_onRegs rfl rfl, List.cons_append, List.singleton_append,
    decodeOpcode_narrow rfl h₁ h₂]
  unfold decodeNarrow
  rw [if_neg (by simp [h₃]), if_neg (by simp [h₄]), if_pos ⟨rfl, h₅⟩, operands]
  dsimp only
  rw [present, same]
  rfl

theorem decode_jcc (cc : Cond) (t : τ) :
    decode ((Instr.jcc cc t).encode field ++ rest) = some (.jcc cc (field t).toInt32, rest) := by
  have read := readInt32_bytes32 rest (field t)
  cases cc <;>
    exact congrArg (Option.map fun p => (Instr.jcc _ p.1, p.2)) read

theorem decode_cmov (cc : Cond) (dst src : Reg) :
    decode ((Instr.cmov cc dst src : Instr τ).encode field ++ rest) = some (.cmov cc dst src, rest) := by
  rw [Instr.encode, decode_twoRegs (.cmov cc) rfl rfl (by cases cc <;> exact fun _ => rfl),
    Reg.ofCode_code, Reg.ofCode_code]

/-- A byte in one of the ranges is outside of an interval that none of them meets. -/
theorem outside_of_inRanges {rs : List (UInt8 × UInt8)} {lo hi op : UInt8}
    (h : inRanges rs op = true) (apart : (rs.all fun r => r.2 < lo || hi ≤ r.1) = true) :
    ¬ (lo ≤ op ∧ op < hi) := by
  obtain ⟨r, hr, within⟩ := List.any_eq_true.mp h
  have outside := List.all_eq_true.mp apart r hr
  simp only [Bool.and_eq_true, Bool.or_eq_true, decide_eq_true_eq, UInt8.le_iff_toNat_le,
    UInt8.lt_iff_toNat_lt] at within outside ⊢
  omega

/-- The opcodes of vector instructions are apart from those of jumps, of conditional bytes and of the
undefined instruction. -/
theorem vectorRows_apart {m op : UInt8} (mem : m ∈ [(0 : UInt8), 0x66, 0xF3, 0xF2])
    (h : inRanges (SseCode.vectorRows m) op = true) :
    op ≠ 0x38 ∧ op ≠ 0x3A ∧ ¬ (m = 0 ∧ op = 0x0B) ∧ ¬ (m = 0 ∧ 0x80 ≤ op ∧ op < 0x90) ∧
      ¬ (m = 0 ∧ 0x90 ≤ op ∧ op < 0xA0) := by
  have escapes : ([(0 : UInt8), 0x66, 0xF3, 0xF2].all fun m =>
      (SseCode.vectorRows m).all fun r => r.2 < 0x38 || 0x3B ≤ r.1) = true := by decide
  have free := outside_of_inRanges h (List.all_eq_true.mp escapes m mem)
  refine ⟨?_, ?_, ?_, ?_, ?_⟩
  · rintro rfl
    exact free (by decide)
  · rintro rfl
    exact free (by decide)
  · rintro ⟨rfl, rfl⟩
    cases h
  · rintro ⟨rfl, jump⟩
    exact outside_of_inRanges h (by decide) jump
  · rintro ⟨rfl, setter⟩
    exact outside_of_inRanges h (by decide) setter
theorem isMandatory_of_vectorRows {m op : UInt8}
    (h : inRanges (SseCode.vectorRows m) op = true) : m ∈ [(0 : UInt8), 0x66, 0xF3, 0xF2] := by
  unfold SseCode.vectorRows at h
  split at h
  · decide
  · decide
  · decide
  · decide
  · cases h

theorem decodeSse_regs {mandatory : UInt8} {opcode : List UInt8} {rex : Rex} {dst src : XReg}
    {bs : List UInt8} {imm : Option UInt8}
    (operands : readModrm rex bs = some ((dst, .reg src), imm.toList ++ rest))
    (vector : SseCode.isVector ⟨mandatory, opcode⟩ = true)
    (himm : imm.isSome = SseCode.hasImmediate ⟨mandatory, opcode⟩) :
    decodeSse mandatory rex opcode bs = some (.sse ⟨mandatory, opcode⟩ dst src imm, rest) := by
  cases imm with
  | none => simp [decodeSse, operands, vector, ← himm]
  | some n => simp [decodeSse, operands, vector, ← himm]

theorem decode_sse (code : SseCode) (dst src : XReg) (imm : Option UInt8)
    (vector : code.isVector = true) (himm : imm.isSome = code.hasImmediate) :
    decode ((Instr.sse code dst src imm : Instr τ).encode field ++ rest) =
      some (.sse code dst src imm, rest) := by
  obtain ⟨mandatory, opcode⟩ := code
  have operands := readModrm_regs false false (imm.toList ++ rest) dst src
  have sse := decodeSse_regs rest operands vector himm
  have shape := vector
  simp only [SseCode.isVector] at shape
  simp only [Instr.encode, List.append_assoc]
  split at shape
  · next op =>
    have mem := isMandatory_of_vectorRows shape
    obtain ⟨h₁, h₂, h₃, h₄, h₅⟩ := vectorRows_apart mem shape
    have known : isMandatory mandatory = true := by
      simpa [isMandatory] using mem
    rw [decode_onRegs known rfl, List.cons_append, List.singleton_append,
      decodeOpcode_narrow rfl h₁ h₂, decodeNarrow, if_neg h₃, if_neg h₄, if_neg h₅]
    · exact sse
    all_goals simp [operands]
  · next op =>
    simp only [Bool.and_eq_true, beq_iff_eq] at shape
    obtain ⟨rfl, -⟩ := shape
    rw [decode_onRegs rfl rfl]
    exact sse
  · next op =>
    simp only [Bool.and_eq_true, beq_iff_eq] at shape
    obtain ⟨rfl, -⟩ := shape
    rw [decode_onRegs rfl rfl]
    exact sse
  · cases shape

/-- A vector register and memory, with the mandatory byte of scalar and unaligned moves. -/
theorem decode_vectorMove (op : UInt8) (make : XReg → Mem Int32 → Decoded) {x : XReg} {m : Mem τ}
    (h₁ : op ≠ 0x38) (h₂ : op ≠ 0x3A)
    (known : ∀ rex bs m rest, readModrm rex bs = some ((x, .mem m), rest) →
      decodeNarrow 0xF3 rex op bs = some (make x m, rest)) :
    decode (onMem field 0xF3 false false [0x0F, op] x m ++ rest) =
      some (make x (m.map fun t => (field t).toInt32), rest) :=
  decode_onMem (r := fun x m rest => some (make x m, rest)) rfl rfl fun base bs m rest h => by
    rw [List.cons_append, List.singleton_append, decodeOpcode_narrow rfl h₁ h₂, known _ _ _ _ h]

/-- An instruction is read back from its bytes, and what follows them is left. -/
theorem decode_encode (i : Instr τ) (encodable : i.isEncodable = true) :
    decode (i.encode field ++ rest) = some (i.map fun t => (field t).toInt32, rest) := by
  cases i with
  | alu op dst src => exact decode_alu field rest op dst src
  | aluImm op r imm => exact decode_aluImm field rest op r imm
  | movImm64 r imm => exact decode_movImm64 field rest r imm
  | movImm32 r imm =>
    rw [Instr.encode, List.append_assoc, decode_oneReg movWithImm rfl rfl fun _ => rfl,
      Reg.ofCode_code]
    simp [movWithImm, readInt32_bytes32, Instr.map]
  | load dst m a => exact decode_load field rest dst m a
  | store m src width => exact decode_store field rest m src width
  | lea dst m =>
    refine (decode_onMem (r := fun dst m rest => some (.lea (.ofCode dst) m, rest)) rfl rfl
      fun base bs m rest h => ?_).trans (by rw [Reg.ofCode_code]; rfl)
    change regMem _ bs _ = _
    rw [regMem, h]
  | imul dst src =>
    rw [Instr.encode, decode_twoRegs .imul rfl rfl fun _ => rfl, Reg.ofCode_code, Reg.ofCode_code]
    rfl
  | imulImm dst src imm => exact decode_imulImm field rest dst src imm
  | unary op r =>
    rw [Instr.encode, decode_oneReg (fun digit r rest => (unaryOf digit).map fun op => (.unary op r, rest))
      rfl rfl fun _ => rfl, Reg.ofCode_code]
    cases op <;> rfl
  | cqo => rfl
  | shift op r =>
    rw [Instr.encode, decode_oneReg (fun digit r rest => (shiftOf digit).map fun op => (.shift op r, rest))
      rfl rfl fun _ => rfl, Reg.ofCode_code]
    cases op <;> rfl
  | shrImm r n =>
    rw [Instr.encode, List.append_assoc, decode_oneReg shiftWithImm rfl rfl fun _ => rfl,
      Reg.ofCode_code]
    rfl
  | setcc cc r => exact decode_setcc field rest cc r
  | movzx8 dst src =>
    rw [Instr.encode, decode_onRegs rfl rfl, List.cons_append, List.singleton_append,
      decodeOpcode_wide rfl (by decide) (by decide)]
    simp [decodeWide, accessOf, readModrm_regs, Instr.map]
  | cmov cc dst src => exact decode_cmov field rest cc dst src
  | push r => exact decode_push field rest r
  | pop r => exact decode_pop field rest r
  | jmp t => exact congrArg (Option.map fun p => (Instr.jmp p.1, p.2)) (readInt32_bytes32 rest (field t))
  | jcc cc t => exact decode_jcc field rest cc t
  | call r =>
    rw [Instr.encode, decode_oneReg (fun digit r rest => if digit = 2 then some (.call r, rest) else none)
      rfl rfl fun _ => rfl, Reg.ofCode_code]
    rfl
  | leave => rfl
  | ret => rfl
  | ud2 => rfl
  | sse code dst src imm =>
    simp only [Instr.isEncodable, Bool.and_eq_true, beq_iff_eq] at encodable
    exact decode_sse field rest code dst src imm encodable.1 encodable.2
  | movdquLoad x m =>
    refine decode_vectorMove field rest 0x6F .movdquLoad (by decide) (by decide)
      fun rex bs m rest h => ?_
    simp [decodeNarrow, h]
  | movdquStore m x =>
    refine decode_vectorMove field rest 0x7F (fun x m => .movdquStore m x) (by decide) (by decide)
      fun rex bs m rest h => ?_
    simp [decodeNarrow, h]
  | movssLoad x m =>
    refine decode_vectorMove field rest 0x10 .movssLoad (by decide) (by decide)
      fun rex bs m rest h => ?_
    simp [decodeNarrow, h]
  | movssStore m x =>
    refine decode_vectorMove field rest 0x11 (fun x m => .movssStore m x) (by decide) (by decide)
      fun rex bs m rest h => ?_
    simp [decodeNarrow, h]
  | movqToX x r =>
    rw [Instr.encode, decode_twoRegs (fun x r => .movqToX x.code r) rfl rfl fun _ => rfl, Reg.ofCode_code,
      Reg.code_ofCode]
    rfl
  | movqFromX r x =>
    rw [Instr.encode, decode_twoRegs (fun x r => .movqFromX r x.code) rfl rfl fun _ => rfl, Reg.ofCode_code,
      Reg.code_ofCode]
    rfl
  | cvtsi2ss x r =>
    rw [Instr.encode, decode_twoRegs (fun x r => .cvtsi2ss x.code r) rfl rfl fun _ => rfl, Reg.ofCode_code,
      Reg.code_ofCode]
    rfl
  | cvttss2si r x =>
    rw [Instr.encode, decode_twoRegs (fun r x => .cvttss2si r x.code) rfl rfl fun _ => rfl, Reg.ofCode_code,
      Reg.code_ofCode]
    rfl

end Instructions

/-! ## Sequences -/

/-- Bytes that are these instructions, one after the other. -/
inductive Reads : List UInt8 → List Decoded → Prop
  | nil : Reads [] []
  | cons {bs rest : List UInt8} {i : Decoded} {is : List Decoded} (first : decode bs = some (i, rest))
      (later : Reads rest is) : Reads bs (i :: is)

/-- Bytes are at most one sequence of instructions. -/
theorem Reads.unique {bs : List UInt8} {is js : List Decoded} (h : Reads bs is) (h' : Reads bs js) :
    is = js := by
  induction h generalizing js with
  | nil =>
    cases h' with
    | nil => rfl
    | cons first _ => cases first
  | cons first _ ih =>
    cases h' with
    | nil => cases first
    | cons first' later' =>
      obtain ⟨rfl, rfl⟩ := Prod.mk.inj (Option.some.inj (first.symm.trans first'))
      rw [ih later']

theorem reads_encode {τ : Type} (field : τ → UInt32) {is : List (Instr τ)}
    (encodable : ∀ i ∈ is, i.isEncodable = true) :
    Reads (is.flatMap (Instr.encode field)) (is.map (Instr.map fun t => (field t).toInt32)) := by
  induction is with
  | nil => exact .nil
  | cons i is ih =>
    obtain ⟨hi, his⟩ := List.forall_mem_cons.mp encodable
    exact .cons (decode_encode field _ i hi) (ih his)

theorem Assembler.code_emit (a : Assembler) (i : Instr Label) :
    (a.emit i).code.toList = a.code.toList ++ i.encode fun _ => 0 := by
  rw [emit]
  cases i.target? <;> simp [data]

theorem Assembler.code_emits (a : Assembler) (is : List (Instr Label)) :
    (is.foldl emit a).code.toList = a.code.toList ++ is.flatMap (Instr.encode fun _ => 0) := by
  induction is generalizing a with
  | nil => simp
  | cons i is ih => rw [List.foldl_cons, ih, code_emit, List.append_assoc, List.flatMap_cons]

/-- A move of a number to a register does that, in the shorter form too. -/
theorem exec_movImm (r : Reg) (imm : UInt64) (m : Machine) :
    m.exec (Instr.movImm r imm) = .ok (m.setReg r imm) := by
  rw [Instr.movImm]
  split
  · next fits =>
    simp only [Machine.exec, fits, UInt64.toUInt64_toInt64]
  · rfl

theorem Instr.map_movImm {τ σ : Type} (g : τ → σ) (r : Reg) (imm : UInt64) :
    (Instr.movImm r imm).map g = Instr.movImm r imm := by
  rw [movImm, movImm]
  split <;> rfl

theorem Instr.isEncodable_movImm {τ : Type} (r : Reg) (imm : UInt64) :
    (Instr.movImm r imm : Instr τ).isEncodable = true := by
  rw [movImm]
  split <;> rfl

/-- The instructions that the code generator chooses from have codes of vector instructions. -/
theorem SseOp.isVector_code (op : SseOp) : op.code.isVector = true := by
  cases op with
  | scalar f | packed f => cases f <;> decide
  | _ => decide

/-- Every instruction is read back from its bytes and no byte more, for all registers, places in memory
and numbers, the vector instructions of the code generator among them. A move of a number to a register
is read back as one that does it. What a run of the assembler appends is read back as the instructions
it was given, with zeros for the code addresses that are still open, and as nothing else. -/
theorem encoding_faithful {τ : Type} (field : τ → UInt32) :
    (∀ i : Instr τ, i.isEncodable = true → ∀ rest,
      decode (i.encode field ++ rest) = some (i.map fun t => (field t).toInt32, rest)) ∧
    (∀ (op : SseOp) (dst src : XReg) (imm : Option UInt8), imm.isSome = op.code.hasImmediate →
      (Instr.sse op.code dst src imm : Instr τ).isEncodable = true) ∧
    (∀ (r : Reg) (imm : UInt64) (rest : List UInt8), ∃ i,
      decode ((Instr.movImm r imm : Instr τ).encode field ++ rest) = some (i, rest) ∧
        ∀ m : Machine, m.exec i = .ok (m.setReg r imm)) ∧
    ∀ (a : Assembler) (is : List (Instr Label)), (∀ i ∈ is, i.isEncodable = true) →
      ∃ bytes, (is.foldl Assembler.emit a).code.toList = a.code.toList ++ bytes ∧
        ∀ js, Reads bytes js ↔ js = is.map (Instr.map fun _ => 0) := by
  refine ⟨fun i hi rest => decode_encode field rest i hi,
    fun op _ _ _ himm => by simp [Instr.isEncodable, op.isVector_code, himm],
    fun r imm rest => ?_, fun a is his => ?_⟩
  · have read := decode_encode field rest _ (Instr.isEncodable_movImm r imm)
    rw [Instr.map_movImm] at read
    exact ⟨_, read, exec_movImm r imm⟩
  · refine ⟨_, a.code_emits is, fun js => ⟨fun h => ?_, fun h => ?_⟩⟩
    · exact h.unique (reads_encode (fun _ => 0) his)
    · exact h ▸ reads_encode (fun _ => 0) his

/-- Places that need an index byte or a displacement, a byte register that needs REX, and numbers on
both sides of a byte. -/
def corners : List (Instr Label) :=
  [.load .r13 (.based .rsp 0) .s8, .store (.based .r13 0) .rsi .b1, .store (.based .r12 (-129)) .r9 .b2,
    .aluImm .sub .rsp 128, .aluImm .and .r15 (-128), .setcc .ge .rdi, .lea .rax (.code 3),
    .sse SseOp.roundss.code 9 2 (some 1), .movssStore (.based .rbp 127) 12, .jcc .be 3]

theorem encoding_faithful_corners :
    (∀ i ∈ corners, i.isEncodable = true) ∧
    ∃ bytes, (corners.foldl Assembler.emit {}).code.toList = bytes ∧
      ∀ js, Reads bytes js ↔ js = corners.map (Instr.map fun _ => 0) := by
  have encodable : ∀ i ∈ corners, i.isEncodable = true := by decide
  obtain ⟨bytes, code, reads⟩ := (encoding_faithful fun _ : Label => 0).2.2.2 {} corners encodable
  exact ⟨encodable, bytes, code, reads⟩

end SsaJit.X86
