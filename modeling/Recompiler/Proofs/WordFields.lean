import Mathlib.Algebra.Group.Nat.Defs
import Recompiler.PowerPC.Assemble
import Recompiler.PowerPC.Decode

/-!
# Fields of assembled words

A word is a number with an opcode at the top and fields below it, so that each field is a remainder
of a quotient. Operands that are in range do not spill into their neighbours: the number of an
assembled word is the sum of its operands, each at its place, and its fields are the operands.
-/

namespace Recompiler.PowerPC

namespace Word

/-! ## Fields as numbers -/

theorem opcode_eq (word : Word) : word.opcode = word.toNat / 2 ^ 26 := by
  simp [opcode, Nat.shiftRight_eq_div_pow]

theorem val_registerAt (word : Word) (low : Nat) :
    (word.registerAt low).val = word.toNat / 2 ^ low % 32 := by
  simp [registerAt, Nat.shiftRight_eq_div_pow]

theorem registerAt_eq_iff {word : Word} {low : Nat} {reg : GuestReg} :
    word.registerAt low = reg ↔ word.toNat / 2 ^ low % 32 = reg.val := by
  rw [Fin.ext_iff, val_registerAt]

theorem crfd_eq_iff {word : Word} {field : CrField} :
    word.crfd = field ↔ word.toNat / 2 ^ 23 % 8 = field.val := by
  simp [crfd, Fin.ext_iff, Nat.shiftRight_eq_div_pow]

theorem sh_eq (word : Word) : word.sh = word.toNat / 2 ^ 11 % 32 := by
  simp [sh, Nat.shiftRight_eq_div_pow]

theorem mb_eq (word : Word) : word.mb = word.toNat / 2 ^ 6 % 32 := by
  simp [mb, Nat.shiftRight_eq_div_pow]

theorem me_eq (word : Word) : word.me = word.toNat / 2 % 32 := by
  simp [me, Nat.shiftRight_eq_div_pow]

theorem subop10_eq (word : Word) : word.subop10 = word.toNat / 2 % 1024 := by
  simp [subop10, Nat.shiftRight_eq_div_pow]

theorem subop9_eq (word : Word) : word.subop9 = word.toNat / 2 % 512 := by
  simp [subop9, Nat.shiftRight_eq_div_pow]

theorem subop5_eq (word : Word) : word.subop5 = word.toNat / 2 % 32 := by
  simp [subop5, Nat.shiftRight_eq_div_pow]

theorem rc_eq (word : Word) : word.rc = decide (word.toNat % 2 = 1) := by
  rw [rc, BitVec.getLsbD, Nat.testBit_eq_decide_div_mod_eq, Nat.pow_zero, Nat.div_one]

theorem oe_eq (word : Word) : word.oe = decide (word.toNat / 2 ^ 10 % 2 = 1) := by
  rw [oe, BitVec.getLsbD, Nat.testBit_eq_decide_div_mod_eq]

end Word

namespace Assemble

/-! ## Assembled words as numbers -/

/-- A small operand as the byte that the assembler takes. -/
def byte {n : Nat} (operand : Fin n) : BitVec 8 := BitVec.ofNat 8 operand.val

/-- A small operand as the word that the rotates take. -/
def wide (operand : Fin 32) : BitVec 32 := BitVec.ofNat 32 operand.val

theorem toNat_byte {n : Nat} (operand : Fin n) (h : n ≤ 256) :
    (byte operand).toNat = operand.val := by
  have := operand.isLt
  simp only [byte, BitVec.toNat_ofNat]
  omega

theorem toNat_wide (operand : Fin 32) : (wide operand).toNat = operand.val := by
  have := operand.isLt
  simp only [wide, BitVec.toNat_ofNat]
  omega

/-- The upper five bits of an immediate, which stand where other forms have their third operand. -/
def upper (imm : BitVec 16) : Fin 32 := ⟨imm.toNat / 2 ^ 11, by omega⟩

theorem upper_add_lower (imm : BitVec 16) :
    (upper imm).val * 2 ^ 11 + imm.toNat % 2 ^ 11 = imm.toNat :=
  Nat.div_add_mod' ..

theorem toNat_field {w : Nat} {value : BitVec w} {position : Nat} (count : Nat)
    (hvalue : value.toNat < 2 ^ count) (h : position + count ≤ 32) :
    (field value position).toNat = value.toNat * 2 ^ position := by
  have hpow : 2 ^ count * 2 ^ position ≤ 2 ^ 32 := by
    rw [← Nat.pow_add]
    exact Nat.pow_le_pow_right (by decide) (by omega)
  have hlt : value.toNat * 2 ^ position < 2 ^ 32 :=
    Nat.lt_of_lt_of_le (Nat.mul_lt_mul_of_pos_right hvalue (Nat.two_pow_pos position)) hpow
  have hle : value.toNat ≤ value.toNat * 2 ^ position :=
    Nat.le_mul_of_pos_right _ (Nat.two_pow_pos position)
  rw [field, BitVec.toNat_shiftLeft, BitVec.toNat_setWidth, Nat.shiftLeft_eq,
    Nat.mod_eq_of_lt (Nat.lt_of_le_of_lt hle hlt), Nat.mod_eq_of_lt hlt]

/-- A field below all that is there already is added. -/
theorem toNat_or_field {w : Nat} {value : BitVec w} {position : Nat} {word : Word} (count : Nat)
    (hvalue : value.toNat < 2 ^ count) (h : position + count ≤ 32)
    (hword : word.toNat % 2 ^ (position + count) = 0) :
    (word ||| field value position).toNat = word.toNat + value.toNat * 2 ^ position := by
  have hlt : value.toNat * 2 ^ position < 2 ^ (position + count) := by
    rw [Nat.add_comm, Nat.pow_add]
    exact Nat.mul_lt_mul_of_pos_right hvalue (Nat.two_pow_pos position)
  have hsplit : word.toNat = 2 ^ (position + count) * (word.toNat / 2 ^ (position + count)) := by
    rw [Nat.mul_div_cancel' (Nat.dvd_of_mod_eq_zero hword)]
  rw [BitVec.toNat_or, toNat_field count hvalue h, hsplit, ← Nat.two_pow_add_eq_or_of_lt hlt]

variable (opcode : BitVec 6) (t a b c : Fin 32)

/-- All forms begin with the opcode and two registers. -/
theorem toNat_head : (field opcode 26 ||| field (byte t) 21 ||| field (byte a) 16).toNat =
    opcode.toNat * 2 ^ 26 + t * 2 ^ 21 + a * 2 ^ 16 := by
  have ht : (byte t).toNat = t := toNat_byte t (by decide)
  have ha : (byte a).toNat = a := toNat_byte a (by decide)
  have hop : (field opcode 26).toNat = opcode.toNat * 2 ^ 26 :=
    toNat_field 6 opcode.isLt (by decide)
  have htop : (field opcode 26 ||| field (byte t) 21).toNat =
      opcode.toNat * 2 ^ 26 + t * 2 ^ 21 := by
    rw [toNat_or_field 5 (by omega) (by decide) (by omega), hop, ht]
  rw [toNat_or_field 5 (by omega) (by decide) (by omega), htop, ha]

theorem toNat_dForm (imm : BitVec 16) : (dForm opcode (byte t) (byte a) imm).toNat =
    opcode.toNat * 2 ^ 26 + t * 2 ^ 21 + a * 2 ^ 16 + imm.toNat := by
  have hhead := toNat_head opcode t a
  rw [dForm, toNat_or_field 16 imm.isLt (by decide) (by omega), hhead]
  omega

/-- The third register comes next in all forms but the first. -/
theorem toNat_or_third {w : Nat} {value : BitVec w} (h : value.toNat = b) :
    (field opcode 26 ||| field (byte t) 21 ||| field (byte a) 16 ||| field value 11).toNat =
      opcode.toNat * 2 ^ 26 + t * 2 ^ 21 + a * 2 ^ 16 + b * 2 ^ 11 := by
  have hhead := toNat_head opcode t a
  rw [toNat_or_field 5 (by omega) (by decide) (by omega), hhead, h]

theorem toNat_xForm (extended : BitVec 10) :
    (xForm opcode (byte t) (byte a) (byte b) extended).toNat =
      opcode.toNat * 2 ^ 26 + t * 2 ^ 21 + a * 2 ^ 16 + b * 2 ^ 11 + extended.toNat * 2 := by
  have hthird := toNat_or_third opcode t a b (toNat_byte b (by decide))
  rw [xForm, toNat_or_field 10 extended.isLt (by decide) (by omega), hthird, Nat.pow_one]

theorem toNat_aForm (extended : BitVec 5) :
    (aForm opcode (byte t) (byte a) (byte b) (byte c) extended).toNat =
      opcode.toNat * 2 ^ 26 + t * 2 ^ 21 + a * 2 ^ 16 + b * 2 ^ 11 + c * 2 ^ 6 +
        extended.toNat * 2 := by
  have hthird := toNat_or_third opcode t a b (toNat_byte b (by decide))
  have hc : (byte c).toNat = c := toNat_byte c (by decide)
  have hext : (extended.setWidth 10).toNat = extended.toNat := by
    rw [BitVec.toNat_setWidth]
    omega
  have hfour : (field opcode 26 ||| field (byte t) 21 ||| field (byte a) 16 |||
      field (byte b) 11 ||| field (byte c) 6).toNat =
        opcode.toNat * 2 ^ 26 + t * 2 ^ 21 + a * 2 ^ 16 + b * 2 ^ 11 + c * 2 ^ 6 := by
    rw [toNat_or_field 5 (by omega) (by decide) (by omega), hthird, hc]
  -- the extended opcode is below the fourth register and stands before it
  rw [aForm, xForm, BitVec.or_assoc, BitVec.or_comm (field _ 1), ← BitVec.or_assoc,
    toNat_or_field 5 (by omega) (by decide) (by omega), hfour, hext, Nat.pow_one]

theorem toNat_and_31 {value : BitVec 32} {operand : Fin 32} (h : value.toNat = operand) :
    (value &&& 0x1F).toNat = operand := by
  have hmod : value.toNat &&& 31 = value.toNat % 32 := Nat.and_two_pow_sub_one_eq_mod _ 5
  rw [BitVec.toNat_and, show (0x1F : BitVec 32).toNat = 31 from rfl, hmod, h]
  omega

theorem toNat_mForm {sh : BitVec 32} (h : sh.toNat = b) (mb me : Fin 32) :
    (mForm opcode (byte t) (byte a) sh (wide mb) (wide me)).toNat =
      opcode.toNat * 2 ^ 26 + t * 2 ^ 21 + a * 2 ^ 16 + b * 2 ^ 11 + mb * 2 ^ 6 + me * 2 := by
  have hthird := toNat_or_third opcode t a b (toNat_and_31 h)
  have hmb := toNat_and_31 (toNat_wide mb)
  have hme := toNat_and_31 (toNat_wide me)
  have hfour : (field opcode 26 ||| field (byte t) 21 ||| field (byte a) 16 |||
      field (sh &&& 0x1F) 11 ||| field (wide mb &&& 0x1F) 6).toNat =
        opcode.toNat * 2 ^ 26 + t * 2 ^ 21 + a * 2 ^ 16 + b * 2 ^ 11 + mb * 2 ^ 6 := by
    rw [toNat_or_field 5 (by omega) (by decide) (by omega), hthird, hmb]
  rw [mForm, toNat_or_field 5 (by omega) (by decide) (by omega), hfour, hme, Nat.pow_one]

end Assemble

/-- The operation of opcode 31 by all ten bits of the extended opcode. -/
def IntOp.ofExtended? (subop : Nat) : Option IntOp :=
  (ofSubop10? subop).or (ofSubop9? (subop % 512) (decide (512 ≤ subop)))

/-! ## Composed words -/

/-- The word is made of an opcode, three operands and the rest. -/
structure Composed (word : Word) (opcode : Nat) (t a b : Fin 32) (rest : Nat) : Prop where
  toNat_eq : word.toNat = opcode * 2 ^ 26 + t * 2 ^ 21 + a * 2 ^ 16 + b * 2 ^ 11 + rest
  rest_lt : rest < 2 ^ 11

namespace Composed

section Forms

open Assemble

variable (opcode : BitVec 6) (t a b c : Fin 32)

theorem dForm (imm : BitVec 16) :
    Composed (dForm opcode (byte t) (byte a) imm) opcode.toNat t a (upper imm)
      (imm.toNat % 2 ^ 11) where
  toNat_eq := by rw [toNat_dForm, Nat.add_assoc _ ((upper imm).val * _), upper_add_lower]
  rest_lt := Nat.mod_lt _ (by decide)

theorem xForm (extended : BitVec 10) :
    Composed (xForm opcode (byte t) (byte a) (byte b) extended) opcode.toNat t a b
      (extended.toNat * 2) where
  toNat_eq := toNat_xForm opcode t a b extended
  rest_lt := by omega

theorem aForm (extended : BitVec 5) :
    Composed (aForm opcode (byte t) (byte a) (byte b) (byte c) extended) opcode.toNat t a b
      (c * 2 ^ 6 + extended.toNat * 2) where
  toNat_eq := by rw [toNat_aForm, Nat.add_assoc _ (c.val * _)]
  rest_lt := by omega

theorem mForm {sh : BitVec 32} (h : sh.toNat = b) (mb me : Fin 32) :
    Composed (mForm opcode (byte t) (byte a) sh (wide mb) (wide me)) opcode.toNat t a b
      (mb * 2 ^ 6 + me * 2) where
  toNat_eq := by rw [toNat_mForm opcode t a b h, Nat.add_assoc _ (mb.val * _)]
  rest_lt := by omega

end Forms

variable {word : Word} {opcode rest : Nat} {t a b : Fin 32}

theorem opcode_eq (h : Composed word opcode t a b rest) : word.opcode = opcode := by
  obtain ⟨hword, hrest⟩ := h
  rw [Word.opcode_eq]
  omega

theorem rd_eq (h : Composed word opcode t a b rest) : word.rd = t := by
  obtain ⟨hword, hrest⟩ := h
  rw [Word.rd, Word.registerAt_eq_iff]
  omega

theorem ra_eq (h : Composed word opcode t a b rest) : word.ra = a := by
  obtain ⟨hword, hrest⟩ := h
  rw [Word.ra, Word.registerAt_eq_iff]
  omega

theorem rb_eq (h : Composed word opcode t a b rest) : word.rb = b := by
  obtain ⟨hword, hrest⟩ := h
  rw [Word.rb, Word.registerAt_eq_iff]
  omega

theorem frc_eq (h : Composed word opcode t a b rest) {c : Fin 32} (hc : rest / 2 ^ 6 = c) :
    word.frc = c := by
  obtain ⟨hword, hrest⟩ := h
  rw [Word.frc, Word.registerAt_eq_iff]
  omega

theorem crfd_eq (h : Composed word opcode t a b rest) {field : CrField} (ht : t = 4 * field.val) :
    word.crfd = field := by
  obtain ⟨hword, hrest⟩ := h
  rw [Word.crfd_eq_iff]
  omega

theorem sh_eq (h : Composed word opcode t a b rest) : word.sh = b := by
  obtain ⟨hword, hrest⟩ := h
  rw [Word.sh_eq]
  omega

theorem mb_eq (h : Composed word opcode t a b rest) : word.mb = rest / 2 ^ 6 := by
  obtain ⟨hword, hrest⟩ := h
  rw [Word.mb_eq]
  omega

theorem me_eq (h : Composed word opcode t a b rest) : word.me = rest / 2 % 32 := by
  obtain ⟨hword, hrest⟩ := h
  rw [Word.me_eq]
  omega

/-- The extended opcode of X forms is all of the rest but the record bit. -/
theorem subop10_eq (h : Composed word opcode t a b rest) : word.subop10 = rest / 2 := by
  obtain ⟨hword, hrest⟩ := h
  rw [Word.subop10_eq]
  omega

theorem subop9_eq (h : Composed word opcode t a b rest) : word.subop9 = rest / 2 % 512 := by
  obtain ⟨hword, hrest⟩ := h
  rw [Word.subop9_eq]
  omega

theorem subop5_eq (h : Composed word opcode t a b rest) : word.subop5 = rest / 2 % 32 := by
  obtain ⟨hword, hrest⟩ := h
  rw [Word.subop5_eq]
  omega

theorem rc_eq (h : Composed word opcode t a b rest) : word.rc = decide (rest % 2 = 1) := by
  obtain ⟨hword, hrest⟩ := h
  rw [Word.rc_eq, decide_eq_decide]
  omega

theorem oe_eq (h : Composed word opcode t a b rest) : word.oe = decide (1024 ≤ rest) := by
  obtain ⟨hword, hrest⟩ := h
  rw [Word.oe_eq, decide_eq_decide]
  omega

theorem setWidth_eq (h : Composed word opcode t a b rest) {imm : BitVec 16}
    (himm : b * 2 ^ 11 + rest = imm.toNat) : word.setWidth 16 = imm := by
  obtain ⟨hword, hrest⟩ := h
  apply BitVec.eq_of_toNat_eq
  rw [BitVec.toNat_setWidth]
  omega

theorem simm_eq (h : Composed word opcode t a b rest) {imm : BitVec 16}
    (himm : b * 2 ^ 11 + rest = imm.toNat) : word.simm = imm.signExtend 32 := by
  rw [Word.simm, h.setWidth_eq himm]

theorem uimm_eq (h : Composed word opcode t a b rest) {imm : BitVec 16}
    (himm : b * 2 ^ 11 + rest = imm.toNat) : word.uimm = imm.setWidth 32 := by
  have hlow : word.toNat &&& 0xFFFF = word.toNat % 2 ^ 16 := Nat.and_two_pow_sub_one_eq_mod _ 16
  apply BitVec.eq_of_toNat_eq
  rw [← h.setWidth_eq himm, Word.uimm, BitVec.toNat_and, BitVec.toNat_setWidth,
    BitVec.toNat_setWidth, show (0xFFFF : BitVec 32).toNat = 0xFFFF from rfl, hlow]
  omega

/-! ### Operations -/

/-- A primary opcode with an operation of its own decides it. -/
theorem decode_of_opcode (h : Composed word opcode t a b rest) {op : IntOp}
    (hop : IntOp.ofOpcode? opcode = some op) : Op.decode word = some (.int op) := by
  unfold Op.decode
  rw [h.opcode_eq]
  split
  case h_5 => rw [hop, Option.map_some]
  all_goals cases hop

theorem decode_registerForm (h : Composed word 31 t a b rest) :
    Op.decode word = (IntOp.ofExtended? (rest / 2)).map .int := by
  have hoe : decide (1024 ≤ rest) = decide (512 ≤ rest / 2) := by
    rw [decide_eq_decide]
    omega
  simp only [Op.decode, IntOp.ofRegisterForm?, IntOp.ofExtended?, h.opcode_eq, h.subop10_eq,
    h.subop9_eq, h.oe_eq, hoe]

theorem decode_double (h : Composed word 63 t a b rest) :
    Op.decode word = (FloatOp.ofDouble? word).map .float := by
  simp only [Op.decode, h.opcode_eq]

theorem decode_single (h : Composed word 59 t a b rest) :
    Op.decode word = (FloatOp.ofSingle? word).map .float := by
  simp only [Op.decode, h.opcode_eq]

theorem decode_paired (h : Composed word 4 t a b rest) :
    Op.decode word = (FloatOp.ofPaired? word).map .float := by
  simp only [Op.decode, h.opcode_eq]

end Composed

namespace Assemble

/-! ## Operands of the forms -/

/-- A condition field takes the upper three bits of the target operand. -/
theorem compareTarget_byte (crf : Fin 8) :
    compareTarget (byte crf) = byte (⟨4 * crf.val, by omega⟩ : Fin 32) := by
  decide +revert

theorem byte_and_31 (sh : Fin 32) : byte sh &&& 0x1F = byte sh := by
  decide +revert

theorem toNat_setWidth_byte (operand : Fin 32) :
    ((byte operand).setWidth 32).toNat = operand.val := by
  rw [BitVec.toNat_setWidth, toNat_byte operand (by decide)]
  omega

/-- The fourth register of an A form leaves its extended opcode alone. -/
theorem subop5_aForm (opcode : BitVec 6) (t a b c : Fin 32) (extended : BitVec 5) :
    (aForm opcode (byte t) (byte a) (byte b) (byte c) extended).subop5 = extended.toNat := by
  rw [(Composed.aForm opcode t a b c extended).subop5_eq]
  omega

end Assemble

end Recompiler.PowerPC
