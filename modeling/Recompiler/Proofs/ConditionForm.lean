import Mathlib.Algebra.Group.Int.Defs
import Mathlib.Algebra.Group.Nat.Defs
import Mathlib.Order.Compare
import Recompiler.Lower.Compare
import Recompiler.Proofs.StepEffects

/-!
# The 64-bit form of condition fields

A condition field is kept as a 64-bit number that is read back bit by bit. Compares leave a
difference of extended words there, and instructions that record leave a sign-extended result. Such
numbers lie strictly between `-2 ^ 32` and `2 ^ 32`, and every number of that range reads as its
sign, with SO clear. So both forms read as the field that the interpreter encodes.
-/

namespace Recompiler.PowerPC

open Lower

namespace Condition

theorem decode_encode (bits : BitVec 4) : decode (encode bits) = bits := by
  revert bits
  decide

/-! ## Small numbers -/

/-- The sign of a small number can be read from its 64-bit form. -/
theorem decode_of_small {x : BitVec 64} (hlow : -2 ^ 32 < x.toInt) (hhigh : x.toInt < 2 ^ 32) :
    decode x = ofOrdering (compare x.toInt 0) := by
  have hcases : (x.toNat < 2 ^ 32 ∧ x.toInt = x.toNat) ∨
      (2 ^ 64 - 2 ^ 32 < x.toNat ∧ x.toInt = x.toNat - 2 ^ 64) := by
    have := x.isLt
    have hint := BitVec.toInt_eq_toNat_cond x
    split at hint <;> omega
  have hlt := x.isLt
  have hsign : x.getLsbD 62 = decide (x.toInt < 0) := by
    rw [BitVec.getLsbD, Nat.testBit_eq_decide_div_mod_eq]
    apply decide_eq_decide.2
    omega
  have hzero : (x.setWidth 32 == 0#32) = decide (x.toInt = 0) := by
    have hiff : x.setWidth 32 = 0#32 ↔ x.toInt = 0 := by
      rw [← BitVec.toNat_inj, BitVec.toNat_setWidth, BitVec.toNat_ofNat]
      omega
    rw [Bool.eq_iff_iff, beq_iff_eq, decide_eq_true_iff]
    exact hiff
  have hso : ((x >>> 59) &&& 7 == 1) = false := by
    have hnat : ((x >>> 59) &&& 7).toNat = x.toNat / 2 ^ 59 % 8 := by
      rw [BitVec.toNat_and, BitVec.toNat_ushiftRight, Nat.shiftRight_eq_div_pow]
      exact Nat.and_two_pow_sub_one_eq_mod _ 3
    rw [beq_eq_false_iff_ne, ne_eq, ← BitVec.toNat_inj, hnat]
    simp
    omega
  unfold decode
  rw [hsign, hzero, hso]
  rcases lt_trichotomy x.toInt 0 with h | h | h
  · have hcompare : compare x.toInt 0 = .lt := compare_lt_iff_lt.2 h
    rw [hcompare, decide_eq_true h, decide_eq_false (by omega), decide_eq_false (by omega)]
    rfl
  · rw [h]
    rfl
  · have hcompare : compare x.toInt 0 = .gt := compare_gt_iff_gt.2 h
    rw [hcompare, decide_eq_false (by omega), decide_eq_true h, decide_eq_false (by omega)]
    rfl

theorem decode_ofResult (v : BitVec 32) : decode (ofResult v) = ofSign v := by
  have hint : (v.signExtend 64).toInt = v.toInt := BitVec.toInt_signExtend_of_le (by decide)
  have hlow := v.le_toInt
  have hhigh := v.toInt_lt
  unfold ofResult ofSign
  rw [decode_of_small (by omega) (by omega), hint]

/-! ## Differences -/

/-- A word as the number that a compare takes it for. -/
def number (signed : Bool) (value : BitVec 32) : Int :=
  if signed then value.toInt else value.toNat

theorem toInt_extend (signed : Bool) (value : BitVec 32) :
    (extend signed value).toInt = number signed value := by
  cases signed with
  | false =>
    have hlt := value.isLt
    have hnat : (extend false value).toNat = value.toNat := by
      simp only [extend, Bool.false_eq_true, if_false, BitVec.toNat_setWidth]
      omega
    rw [BitVec.toInt_eq_toNat_of_lt (by omega), hnat]
    rfl
  | true => exact BitVec.toInt_signExtend_of_le (by decide)

/-- Words of either kind are less than `2 ^ 32` apart. -/
theorem number_sub_number (signed : Bool) (a b : BitVec 32) :
    -2 ^ 32 < number signed a - number signed b ∧ number signed a - number signed b < 2 ^ 32 := by
  cases signed with
  | false =>
    have ha := a.isLt
    have hb := b.isLt
    simp only [number, Bool.false_eq_true, if_false]
    omega
  | true =>
    have ha := a.le_toInt
    have ha' := a.toInt_lt
    have hb := b.le_toInt
    have hb' := b.toInt_lt
    simp only [number, if_true]
    omega

theorem compare_number (signed : Bool) (a b : BitVec 32) :
    compare (number signed a) (number signed b) = compareWords signed a b := by
  cases signed with
  | false =>
    show compare (a.toNat : Int) b.toNat = compare a.toNat b.toNat
    rcases lt_trichotomy a.toNat b.toNat with h | h | h
    · rw [compare_lt_iff_lt.2 h]
      exact compare_lt_iff_lt.2 (by omega)
    · rw [compare_eq_iff_eq.2 h]
      exact compare_eq_iff_eq.2 (by omega)
    · rw [compare_gt_iff_gt.2 h]
      exact compare_gt_iff_gt.2 (by omega)
  | true => rfl

theorem compare_sub_zero (x y : Int) : compare (x - y) 0 = compare x y := by
  rcases lt_trichotomy x y with h | h | h
  · rw [compare_lt_iff_lt.2 h]
    exact compare_lt_iff_lt.2 (by omega)
  · rw [compare_eq_iff_eq.2 h]
    exact compare_eq_iff_eq.2 (by omega)
  · rw [compare_gt_iff_gt.2 h]
    exact compare_gt_iff_gt.2 (by omega)

/-- The difference of two extended words tells how they compare. -/
theorem decode_difference (signed : Bool) (a b : BitVec 32) :
    decode (extend signed a - extend signed b) = ofOrdering (compareWords signed a b) := by
  obtain ⟨hlow, hhigh⟩ := number_sub_number signed a b
  have hint : (extend signed a - extend signed b).toInt = number signed a - number signed b := by
    rw [BitVec.toInt_sub, toInt_extend, toInt_extend]
    apply Int.bmod_eq_of_le <;> omega
  rw [decode_of_small (hint ▸ hlow) (hint ▸ hhigh), hint, compare_sub_zero, compare_number]

/-- The value reads as the outcome of a comparison: one of LT, GT and EQ, and SO clear. -/
structure Shows (value : BitVec 64) (order : Ordering) : Prop where
  lt : (decode value).getLsbD 3 = decide (order = .lt)
  gt : (decode value).getLsbD 2 = decide (order = .gt)
  eq : (decode value).getLsbD 1 = decide (order = .eq)
  so : (decode value).getLsbD 0 = false

theorem Shows.of_decode {value : BitVec 64} {order : Ordering}
    (h : decode value = ofOrdering order) : Shows value order := by
  cases order <;> constructor <;> rw [h] <;> rfl

end Condition

/-! ## What the interpreter stores -/

namespace State

variable {layout : Layout} {state : State}

/-- The field is stored as some four bits, encoded, and these read as the value does. -/
def Encodes (state : State) (field : CrField) (value : BitVec 64) : Prop :=
  ∃ bits, state.cr field = Condition.encode bits ∧
    Condition.decode value = Condition.decode (Condition.encode bits)

theorem On.putAll (hon : state.On layout) (hv : layout.Valid) (writes : List Write) :
    (state.putAll writes).On layout := by
  induction writes generalizing state with
  | nil => exact hon
  | cons write writes ih => exact ih (hon.put hv write.cell write.value)

/-- Writes that end with a condition field leave it there. -/
theorem On.encodes_putAll (hon : state.On layout) (hv : layout.Valid) (writes : List Write)
    (field : CrField) {bits : BitVec 4} {value : BitVec 64}
    (h : Condition.decode value = bits) :
    (state.putAll (writes ++ [⟨.cr field, Condition.encode bits⟩])).Encodes field value := by
  refine ⟨bits, ?_, h.trans (Condition.decode_encode bits).symm⟩
  rw [putAll_append]
  exact (hon.putAll hv writes).fetch_put_self hv (.cr field) _

theorem On.encodes_compare (hon : state.On layout) (hv : layout.Valid) (word : Word)
    (signed immediate : Bool) :
    (state.putAll (state.integerWrites word (.compare signed immediate))).Encodes word.crfd
      (extend signed (state.gpr word.ra) -
        extend signed (IntOp.compareOperand word signed immediate (state.gpr word.rb))) :=
  hon.encodes_putAll hv [] word.crfd (Condition.decode_difference _ _ _)

theorem On.encodes_record (hon : state.On layout) (hv : layout.Valid) {word : Word} {op : IntOp}
    (h : op.records word.rc = true) :
    (state.putAll (state.integerWrites word op)).Encodes 0 (Condition.ofResult
      (op.result word (state.gpr word.ra) (state.gpr word.rb) (state.gpr word.rd)
        state.xerCa).value) := by
  cases htarget : op.target word with
  | none =>
    cases op with
    | compare signed immediate => cases h
    | _ => simp [IntOp.target] at htarget
  | some reg =>
    rw [integerWrites_of_target state htarget, resultWrites, valueWrites, h, if_pos rfl,
      ← List.append_assoc]
    exact hon.encodes_putAll hv _ 0 (Condition.decode_ofResult _)

end State

/-- Differences of extended words read as their order, signed or unsigned, and sign-extended results
as their sign, always with SO clear. They read as what the interpreter stores for a compare of the
operands, and for an instruction that records the result. -/
theorem Condition.every_comparison_is_represented :
    (∀ a b : BitVec 32, Shows (a.signExtend 64 - b.signExtend 64) (compare a.toInt b.toInt)) ∧
    (∀ a b : BitVec 32, Shows (a.setWidth 64 - b.setWidth 64) (compare a.toNat b.toNat)) ∧
    (∀ result : BitVec 32, Shows (ofResult result) (compare result.toInt 0)) ∧
    ∀ (interpreter : Interpreter) (layout : Layout) (state : State) (word : Word) (op : IntOp),
      layout.Valid → state.On layout → Op.decode word = some (.int op) →
      ∃ after, interpreter.step state word = .ok after ∧
        (∀ signed immediate, op = .compare signed immediate →
          after.Encodes word.crfd (extend signed (state.gpr word.ra) -
            extend signed (IntOp.compareOperand word signed immediate (state.gpr word.rb)))) ∧
        (op.records word.rc = true → after.Encodes 0 (ofResult
          (op.result word (state.gpr word.ra) (state.gpr word.rb) (state.gpr word.rd)
            state.xerCa).value)) := by
  refine ⟨fun a b => .of_decode (decode_difference true a b),
    fun a b => .of_decode (decode_difference false a b),
    fun result => .of_decode (decode_ofResult result), ?_⟩
  intro interpreter layout state word op hv hon hop
  refine ⟨_, hon.step_eq hv interpreter hop, ?_, fun h => hon.encodes_record hv h⟩
  rintro signed immediate rfl
  exact hon.encodes_compare hv word signed immediate

/-- `cmpw cr7, r3, r4` and `addic. r3, r4, -1` on a new state. -/
theorem Condition.cmpw_and_addic_are_represented :
    (∃ after, Interpreter.step {} (.zeroed .standard) 0x7F832000 = .ok after ∧
      after.Encodes 7 (extend true (State.gpr (.zeroed .standard) 3) -
        extend true (State.gpr (.zeroed .standard) 4))) ∧
    ∃ after, Interpreter.step {} (.zeroed .standard) 0x3464FFFF = .ok after ∧
      after.Encodes 0 (ofResult (addWithCarry (State.gpr (.zeroed .standard) 4)
        (Word.simm 0x3464FFFF) false).value) := by
  have hv := Layout.valid_standard
  have hcrfd : Word.crfd 0x7F832000 = 7 := by decide
  have hra : (Word.ra 0x7F832000).val = 3 := by decide
  have hrb : (Word.rb 0x7F832000).val = 4 := by decide
  have hra' : (Word.ra 0x3464FFFF).val = 4 := by decide
  obtain ⟨-, -, -, hstored⟩ := every_comparison_is_represented
  have hcompare : ∀ state : State, state.On .standard →
      ∃ after, Interpreter.step {} state 0x7F832000 = .ok after ∧
        after.Encodes 7 (extend true (state.gpr 3) - extend true (state.gpr 4)) := by
    intro state hon
    obtain ⟨after, hstep, hfield, -⟩ :=
      hstored {} _ state 0x7F832000 (.compare true false) hv hon (by decide)
    have hfield := hfield true false rfl
    rw [hcrfd, hra, hrb] at hfield
    exact ⟨after, hstep, hfield⟩
  have hrecord : ∀ state : State, state.On .standard →
      ∃ after, Interpreter.step {} state 0x3464FFFF = .ok after ∧ after.Encodes 0 (ofResult
        (addWithCarry (state.gpr 4) (Word.simm 0x3464FFFF) false).value) := by
    intro state hon
    obtain ⟨after, hstep, -, hfield⟩ :=
      hstored {} _ state 0x3464FFFF (.addCarryingImm true) hv hon (by decide)
    have hfield := hfield rfl
    rw [hra'] at hfield
    exact ⟨after, hstep, hfield⟩
  exact ⟨hcompare _ (.zeroed hv), hrecord _ (.zeroed hv)⟩

end Recompiler.PowerPC
