import Recompiler.PowerPC.Interpreter
import Recompiler.Proofs.WordFields

/-!
# Decoding assembled words

Decoding inverts assembling. What an operation reads from its word is a list of operands, and
`Assembles` has one line for each instruction of the assembler with the operation and the operands
that it stands for. The word of each line decodes to that operation and has those operands in its
fields, with its flags clear. Setting a flag changes neither.
-/

namespace Recompiler.PowerPC

/-! ## Operands -/

/-- An operand in a field of a word. -/
inductive Operand where
  | rd (reg : GuestReg)
  | ra (reg : GuestReg)
  | rb (reg : GuestReg)
  | frc (reg : GuestReg)
  | crfd (field : CrField)
  | sh (amount : Nat)
  | mb (bound : Nat)
  | me (bound : Nat)
  | simm (value : BitVec 32)
  | uimm (value : BitVec 32)
  deriving DecidableEq

namespace Operand

/-- The field of the word holds the operand. -/
def StandsIn (word : Word) : Operand → Prop
  | .rd reg => word.rd = reg
  | .ra reg => word.ra = reg
  | .rb reg => word.rb = reg
  | .frc reg => word.frc = reg
  | .crfd field => word.crfd = field
  | .sh amount => word.sh = amount
  | .mb bound => word.mb = bound
  | .me bound => word.me = bound
  | .simm value => word.simm = value
  | .uimm value => word.uimm = value

/-- The lowest bit of the field. -/
def low : Operand → Nat
  | .rd _ => 21
  | .ra _ => 16
  | .rb _ | .sh _ => 11
  | .frc _ | .mb _ => 6
  | .crfd _ => 23
  | .me _ => 1
  | .simm _ | .uimm _ => 0

end Operand

/-- What an integer instruction reads from its word, flags apart. -/
def IntOp.operands (op : IntOp) (word : Word) : List Operand :=
  match op with
  | .addImm _ | .addCarryingImm _ | .subfic | .mulli =>
    [.rd word.rd, .ra word.ra, .simm word.simm]
  | .logicImm .. => [.rd word.rd, .ra word.ra, .uimm word.uimm]
  | .compare _ false => [.crfd word.crfd, .ra word.ra, .rb word.rb]
  | .compare true true => [.crfd word.crfd, .ra word.ra, .simm word.simm]
  | .compare false true => [.crfd word.crfd, .ra word.ra, .uimm word.uimm]
  | .rlwimi | .rlwinm => [.rd word.rd, .ra word.ra, .sh word.sh, .mb word.mb, .me word.me]
  | .rlwnm => [.rd word.rd, .ra word.ra, .rb word.rb, .mb word.mb, .me word.me]
  | .srawi => [.rd word.rd, .ra word.ra, .sh word.sh]
  | .unary _ | .neg | .addExtended _ false => [.rd word.rd, .ra word.ra]
  | .shift _ | .sraw | .bool _ | .add | .addc | .addExtended _ true | .subf | .subfc | .mul _
  | .divw | .divwu => [.rd word.rd, .ra word.ra, .rb word.rb]

/-- The operands of floating-point arithmetic: the target, the first source, and of the other two
those that are read. -/
def FpArith.operands (op : FpArith) (d a b c : GuestReg) : List Operand :=
  [.rd d, .ra a] ++ (if op.usesB then [.rb b] else []) ++ (if op.usesC then [.frc c] else [])

theorem FpArith.low_pos {op : FpArith} {d a b c : GuestReg} {operand : Operand}
    (h : operand ∈ op.operands d a b c) : 1 ≤ operand.low := by
  cases op <;>
    simp only [FpArith.operands, usesB, usesC, if_true, Bool.false_eq_true, if_false,
      List.cons_append, List.nil_append, List.append_nil, List.mem_cons, List.not_mem_nil,
      or_false] at h <;>
    rcases h with rfl | rfl | rfl | rfl <;> simp [Operand.low]

/-- What a floating-point instruction reads from its word, flags apart. -/
def FloatOp.operands (op : FloatOp) (word : Word) : List Operand :=
  match op with
  | .arith _ op => op.operands word.rd word.ra word.rb word.frc
  | .move .. | .frsp | .fctiwz | .fres | .frsqrte => [.rd word.rd, .rb word.rb]
  | .fsel => [.rd word.rd, .ra word.ra, .rb word.rb, .frc word.frc]
  | .fcmp _ => [.crfd word.crfd, .ra word.ra, .rb word.rb]

/-- What an instruction reads from its word, flags apart. -/
def Op.operands (op : Op) (word : Word) : List Operand :=
  match op with
  | .int op => op.operands word
  | .float op => op.operands word

theorem Op.standsIn_of_mem {op : Op} {word : Word} {operand : Operand}
    (h : operand ∈ op.operands word) : operand.StandsIn word := by
  cases op with
  | int op =>
    simp only [Op.operands, IntOp.operands] at h
    split at h <;> simp only [List.mem_cons, List.not_mem_nil, or_false] at h <;>
      rcases h with rfl | rfl | rfl | rfl | rfl <;> rfl
  | float op =>
    cases op <;> grind [Op.operands, FloatOp.operands, FpArith.operands, Operand.StandsIn]

/-- The fields that an operation reads are the same in all words with the same operands. -/
theorem Op.operands_eq_of_standsIn {op : Op} {word other : Word}
    (h : ∀ operand ∈ op.operands word, operand.StandsIn other) :
    op.operands other = op.operands word := by
  cases op with
  | int op =>
    simp only [Op.operands, IntOp.operands] at h ⊢
    split at h <;> simp only [List.forall_mem_cons, Operand.StandsIn] at h <;> simp only [h]
  | float op =>
    cases op with
    | arith form op =>
      simp only [Op.operands, FloatOp.operands, FpArith.operands] at h ⊢
      cases op <;> simp only [FpArith.usesB, FpArith.usesC, if_true, Bool.false_eq_true, if_false,
        List.cons_append, List.nil_append, List.append_nil, List.forall_mem_cons,
        Operand.StandsIn] at h ⊢ <;> simp only [h]
    | _ =>
      simp only [Op.operands, FloatOp.operands, List.forall_mem_cons, Operand.StandsIn] at h ⊢
      simp only [h]

theorem FpArith.operands_inj {op : FpArith} {d a b c d' a' b' c' : GuestReg}
    (h : op.operands d a b c = op.operands d' a' b' c') :
    d = d' ∧ a = a' ∧ (op.usesB = true → b = b') ∧ (op.usesC = true → c = c') := by
  unfold operands at h
  cases op <;> simpa [usesB, usesC] using h

/-- Operands that are not read do not matter. -/
theorem FpArith.apply_eq_of_uses {op : FpArith} (single : Bool) (a : Ieee.Double)
    {b c b' c' : Ieee.Double} (hb : op.usesB = true → b = b') (hc : op.usesC = true → c = c') :
    op.apply single a b c = op.apply single a b' c' := by
  cases op with
  | div | sub | add => rw [apply, apply, hb rfl]
  | mul => rw [apply, apply, hc rfl]
  | msub | madd | nmsub | nmadd => rw [hb rfl, hc rfl]

/-- The operands and the two flags are all that a step takes from its word. -/
theorem Interpreter.stepOp_congr (interpreter : Interpreter) (state : State) {op : Op}
    {word other : Word} (h : op.operands other = op.operands word) (hrc : other.rc = word.rc)
    (hoe : other.oe = word.oe) :
    interpreter.stepOp state other op = interpreter.stepOp state word op := by
  cases op with
  | int op =>
    simp only [Op.operands, IntOp.operands] at h
    simp only [Interpreter.stepOp]
    split at h <;>
      simp only [List.cons.injEq, Operand.rd.injEq, Operand.ra.injEq, Operand.rb.injEq,
        Operand.crfd.injEq, Operand.sh.injEq, Operand.mb.injEq, Operand.me.injEq,
        Operand.simm.injEq, Operand.uimm.injEq, and_true] at h <;>
      simp only [State.stepInteger, IntOp.target, IntOp.result, IntOp.compareOperand, h, hrc, hoe,
        Bool.false_eq_true, if_false]
  | float op =>
    cases op with
    | arith form op =>
      obtain ⟨hd, ha, hb, hc⟩ := FpArith.operands_inj h
      have happly : ∀ (lane : Nat → Ieee.Double) (single : Bool) (a : Ieee.Double),
          op.apply single a (lane other.rb) (lane other.frc) =
            op.apply single a (lane word.rb) (lane word.frc) :=
        fun lane single a => FpArith.apply_eq_of_uses single a (fun hu => by rw [hb hu])
          fun hu => by rw [hc hu]
      have hlow := happly state.ps0
      have hhigh := happly state.ps1
      cases form <;> simp only [Interpreter.stepOp, State.stepFloat, hd, ha, hlow, hhigh, hrc]
    | move packed op =>
      simp only [Op.operands, FloatOp.operands, List.cons.injEq, Operand.rd.injEq,
        Operand.rb.injEq, and_true] at h
      cases packed <;> simp only [Interpreter.stepOp, State.stepFloat, h, hrc]
    | _ =>
      simp only [Op.operands, FloatOp.operands, List.cons.injEq, Operand.rd.injEq,
        Operand.ra.injEq, Operand.rb.injEq, Operand.frc.injEq, Operand.crfd.injEq,
        and_true] at h
      simp only [Interpreter.stepOp, State.stepFloat, h, hrc]

/-! ## Flags -/

namespace Word

/-- All bits but the lowest decide the operation. -/
theorem decode_eq_of_half {word other : Word} (h : other.toNat / 2 = word.toNat / 2) :
    Op.decode other = Op.decode word := by
  have hopcode : other.opcode = word.opcode := by
    rw [opcode_eq, opcode_eq]
    omega
  have hoe : other.oe = word.oe := by
    rw [oe_eq, oe_eq, decide_eq_decide]
    omega
  have h10 : other.subop10 = word.subop10 := by rw [subop10_eq, subop10_eq, h]
  have h9 : other.subop9 = word.subop9 := by rw [subop9_eq, subop9_eq, h]
  have h5 : other.subop5 = word.subop5 := by rw [subop5_eq, subop5_eq, h]
  simp only [Op.decode, FloatOp.ofPaired?, IntOp.ofRegisterForm?, FloatOp.ofSingle?,
    FloatOp.ofDouble?, hopcode, hoe, h10, h9, h5]

end Word

/-- An operand stays in a word whose bits from its field up stay. -/
theorem Operand.StandsIn.of_above {operand : Operand} {word other : Word} {n : Nat}
    (h : operand.StandsIn word) (habove : other.toNat / 2 ^ n = word.toNat / 2 ^ n)
    (hn : 0 < n) (hlow : n ≤ operand.low) : operand.StandsIn other := by
  have hfield : other.toNat / 2 ^ operand.low = word.toNat / 2 ^ operand.low := by
    rw [← Nat.add_sub_cancel' hlow, Nat.pow_add, ← Nat.div_div_eq_div_mul, habove,
      Nat.div_div_eq_div_mul]
  cases operand with
  | rd reg | ra reg | rb reg | frc reg =>
    simp only [StandsIn, Word.rd, Word.ra, Word.rb, Word.frc, Word.registerAt_eq_iff, low]
      at h hfield ⊢
    omega
  | crfd field =>
    simp only [StandsIn, Word.crfd_eq_iff, low] at h hfield ⊢
    omega
  | sh amount | mb bound | me bound =>
    simp only [StandsIn, Word.sh_eq, Word.mb_eq, Word.me_eq, low] at h hfield ⊢
    omega
  | simm value | uimm value => exact absurd hlow (Nat.not_le.mpr hn)

namespace Assemble

theorem withRc_above (word : Word) : (withRc word).toNat / 2 ^ 1 = word.toNat / 2 ^ 1 := by
  rw [withRc, BitVec.toNat_or, Nat.or_div_two_pow]
  exact Nat.or_zero _

theorem withOe_above (word : Word) : (withOe word).toNat / 2 ^ 11 = word.toNat / 2 ^ 11 := by
  rw [withOe, BitVec.toNat_or, Nat.or_div_two_pow]
  exact Nat.or_zero _

theorem withOe_below (word : Word) : (withOe word).toNat % 2 ^ 10 = word.toNat % 2 ^ 10 := by
  rw [withOe, BitVec.toNat_or, Nat.or_mod_two_pow]
  exact Nat.or_zero _

end Assemble

/-- The extended opcodes of X and XO forms differ in the overflow-enable bit. -/
theorem Word.subop10_eq_subop9 (word : Word) :
    word.subop10 = word.subop9 + if word.oe then 512 else 0 := by
  rw [subop10_eq, subop9_eq, oe_eq]
  split <;> simp_all <;> omega

namespace IntOp

/-- No operation of the primary opcode alone has an overflow-enable bit. -/
theorem hasOe_ofOpcode? {opcode : Nat} {op : IntOp} (h : ofOpcode? opcode = some op) :
    op.hasOe = false := by
  unfold ofOpcode? at h
  split at h <;> cases h <;> rfl

theorem hasOe_ofSubop10? {subop : Nat} {op : IntOp} (h : ofSubop10? subop = some op) :
    op.hasOe = false := by
  unfold ofSubop10? at h
  split at h <;> cases h <;> rfl

/-- With or without the overflow-enable bit, an XO form that has one is found under its extended
opcode, and no X form is in the way. -/
theorem ofSubop9?_of_hasOe {subop : Nat} {oe : Bool} {op : IntOp}
    (h : ofSubop9? subop oe = some op) (hop : op.hasOe = true) (oe' : Bool) :
    (ofSubop10? (subop + if oe' then 512 else 0)).or (ofSubop9? subop oe') = some op := by
  unfold ofSubop9? at h
  split at h
  case h_3 | h_5 =>
    -- the high halves of products have no such bit
    split at h <;> cases h
    cases hop
  case h_15 => cases h
  all_goals
    cases h
    cases oe' <;> rfl

end IntOp

/-- Enabling overflow keeps the operation, where there is something to enable. -/
theorem Op.decode_withOe {word : Word} {op : Op} (h : Op.decode word = some op)
    (hop : op.hasOe = true) : Op.decode (Assemble.withOe word) = some op := by
  have habove := Assemble.withOe_above word
  have hbelow := Assemble.withOe_below word
  have hopcode : (Assemble.withOe word).opcode = word.opcode := by
    rw [Word.opcode_eq, Word.opcode_eq]
    omega
  have h9 : (Assemble.withOe word).subop9 = word.subop9 := by
    rw [Word.subop9_eq, Word.subop9_eq]
    omega
  cases op with
  | float op => cases hop
  | int op =>
    unfold Op.decode at h ⊢
    rw [hopcode]
    split at h
    case h_2 =>
      simp only [Option.map_eq_some_iff, Op.int.injEq, exists_eq_right] at h ⊢
      rcases Option.or_eq_some_iff.mp h with h10 | ⟨-, hxo⟩
      · rw [Op.hasOe, IntOp.hasOe_ofSubop10? h10] at hop
        cases hop
      · rw [IntOp.ofRegisterForm?, Word.subop10_eq_subop9, h9]
        exact IntOp.ofSubop9?_of_hasOe hxo hop _
    case h_5 =>
      simp only [Option.map_eq_some_iff, Op.int.injEq, exists_eq_right] at h
      rw [Op.hasOe, IntOp.hasOe_ofOpcode? h] at hop
      cases hop
    all_goals simp at h

/-- An operation with an overflow-enable bit reads registers above it only. -/
theorem Op.low_of_hasOe {op : Op} {word : Word} {operand : Operand} (hop : op.hasOe = true)
    (h : operand ∈ op.operands word) : 11 ≤ operand.low := by
  cases op with
  | float op => cases hop
  | int op =>
    simp only [Op.hasOe, Op.operands, IntOp.operands] at hop h
    split at h <;> try cases hop
    all_goals
      simp only [List.mem_cons, List.not_mem_nil, or_false] at h
      rcases h with rfl | rfl | rfl <;> simp [Operand.low]

/-! ## The assembler line by line -/

/-- The forms of instruction words. -/
inductive Form where
  | d
  | x
  | xo
  | m
  | a
  deriving DecidableEq

open Assemble in
/-- The word, the form, the operation and the operands of each instruction that can be assembled,
with operands in range. -/
inductive Assembles : Word → Form → Option Op → List Operand → Prop
  | addi (d a : Fin 32) (imm : BitVec 16) :
    Assembles (addi (byte d) (byte a) imm) .d (some (.int (.addImm false)))
      [.rd d, .ra a, .simm (imm.signExtend 32)]
  | addis (d a : Fin 32) (imm : BitVec 16) :
    Assembles (addis (byte d) (byte a) imm) .d (some (.int (.addImm true)))
      [.rd d, .ra a, .simm (imm.signExtend 32)]
  | li (d : Fin 32) (imm : BitVec 16) :
    Assembles (li (byte d) imm) .d (some (.int (.addImm false)))
      [.rd d, .ra 0, .simm (imm.signExtend 32)]
  | lis (d : Fin 32) (imm : BitVec 16) :
    Assembles (lis (byte d) imm) .d (some (.int (.addImm true)))
      [.rd d, .ra 0, .simm (imm.signExtend 32)]
  | addic (recording : Bool) (d a : Fin 32) (imm : BitVec 16) :
    Assembles (addic recording (byte d) (byte a) imm) .d (some (.int (.addCarryingImm recording)))
      [.rd d, .ra a, .simm (imm.signExtend 32)]
  | subfic (d a : Fin 32) (imm : BitVec 16) :
    Assembles (subfic (byte d) (byte a) imm) .d (some (.int .subfic))
      [.rd d, .ra a, .simm (imm.signExtend 32)]
  | mulli (d a : Fin 32) (imm : BitVec 16) :
    Assembles (mulli (byte d) (byte a) imm) .d (some (.int .mulli))
      [.rd d, .ra a, .simm (imm.signExtend 32)]
  | logicImm (op : ImmLogic) (shifted : Bool) (a s : Fin 32) (imm : BitVec 16) :
    Assembles (logicImm op shifted (byte a) (byte s) imm) .d (some (.int (.logicImm op shifted)))
      [.rd s, .ra a, .uimm (imm.setWidth 32)]
  | compareImm (signed : Bool) (crf : Fin 8) (a : Fin 32) (imm : BitVec 16) :
    Assembles (compareImm signed (byte crf) (byte a) imm) .d (some (.int (.compare signed true)))
      [.crfd crf, .ra a, if signed then .simm (imm.signExtend 32) else .uimm (imm.setWidth 32)]
  | add (d a b : Fin 32) :
    Assembles (add (byte d) (byte a) (byte b)) .xo (some (.int .add)) [.rd d, .ra a, .rb b]
  | addc (d a b : Fin 32) :
    Assembles (addc (byte d) (byte a) (byte b)) .xo (some (.int .addc)) [.rd d, .ra a, .rb b]
  | adde (d a b : Fin 32) :
    Assembles (adde (byte d) (byte a) (byte b)) .xo (some (.int (.addExtended false true)))
      [.rd d, .ra a, .rb b]
  | addze (d a : Fin 32) :
    Assembles (addze (byte d) (byte a)) .xo (some (.int (.addExtended false false))) [.rd d, .ra a]
  | subf (d a b : Fin 32) :
    Assembles (subf (byte d) (byte a) (byte b)) .xo (some (.int .subf)) [.rd d, .ra a, .rb b]
  | subfc (d a b : Fin 32) :
    Assembles (subfc (byte d) (byte a) (byte b)) .xo (some (.int .subfc)) [.rd d, .ra a, .rb b]
  | subfe (d a b : Fin 32) :
    Assembles (subfe (byte d) (byte a) (byte b)) .xo (some (.int (.addExtended true true)))
      [.rd d, .ra a, .rb b]
  | subfze (d a : Fin 32) :
    Assembles (subfze (byte d) (byte a)) .xo (some (.int (.addExtended true false))) [.rd d, .ra a]
  | neg (d a : Fin 32) :
    Assembles (neg (byte d) (byte a)) .xo (some (.int .neg)) [.rd d, .ra a]
  | mul (op : MulOp) (d a b : Fin 32) :
    Assembles (mul op (byte d) (byte a) (byte b)) .xo (some (.int (.mul op))) [.rd d, .ra a, .rb b]
  | divw (d a b : Fin 32) :
    Assembles (divw (byte d) (byte a) (byte b)) .xo (some (.int .divw)) [.rd d, .ra a, .rb b]
  | divwu (d a b : Fin 32) :
    Assembles (divwu (byte d) (byte a) (byte b)) .xo (some (.int .divwu)) [.rd d, .ra a, .rb b]
  | bool (op : BoolOp) (a s b : Fin 32) :
    Assembles (bool op (byte a) (byte s) (byte b)) .x (some (.int (.bool op)))
      [.rd s, .ra a, .rb b]
  | mr (a s : Fin 32) :
    Assembles (mr (byte a) (byte s)) .x (some (.int (.bool .or))) [.rd s, .ra a, .rb s]
  | shift (left : Bool) (a s b : Fin 32) :
    Assembles (shift left (byte a) (byte s) (byte b)) .x (some (.int (.shift left)))
      [.rd s, .ra a, .rb b]
  | sraw (a s b : Fin 32) :
    Assembles (sraw (byte a) (byte s) (byte b)) .x (some (.int .sraw)) [.rd s, .ra a, .rb b]
  | srawi (a s sh : Fin 32) :
    Assembles (srawi (byte a) (byte s) (byte sh)) .x (some (.int .srawi)) [.rd s, .ra a, .sh sh]
  | unary (op : UnaryOp) (a s : Fin 32) :
    Assembles (unary op (byte a) (byte s)) .x (some (.int (.unary op))) [.rd s, .ra a]
  | compareReg (signed : Bool) (crf : Fin 8) (a b : Fin 32) :
    Assembles (compareReg signed (byte crf) (byte a) (byte b)) .x
      (some (.int (.compare signed false))) [.crfd crf, .ra a, .rb b]
  | rlwinm (a s sh mb me : Fin 32) :
    Assembles (rlwinm (byte a) (byte s) (wide sh) (wide mb) (wide me)) .m (some (.int .rlwinm))
      [.rd s, .ra a, .sh sh, .mb mb, .me me]
  | rlwnm (a s b mb me : Fin 32) :
    Assembles (rlwnm (byte a) (byte s) (byte b) (wide mb) (wide me)) .m (some (.int .rlwnm))
      [.rd s, .ra a, .rb b, .mb mb, .me me]
  | rlwimi (a s sh mb me : Fin 32) :
    Assembles (rlwimi (byte a) (byte s) (wide sh) (wide mb) (wide me)) .m (some (.int .rlwimi))
      [.rd s, .ra a, .sh sh, .mb mb, .me me]
  | floatArith (form : FpForm) (op : FpArith) (d a b c : Fin 32) :
    Assembles (floatArith form op (byte d) (byte a) (byte b) (byte c)) .a
      (some (.float (.arith form op))) (op.operands d a b c)
  | floatBinary (form : FpForm) (op : FpArith) (d a b : Fin 32) :
    Assembles (floatBinary form op (byte d) (byte a) (byte b)) .a (some (.float (.arith form op)))
      (if op.usesB then op.operands d a b 0 else op.operands d a 0 b)
  | floatFused (form : FpForm) (op : FpArith) (d a c b : Fin 32) :
    Assembles (floatFused form op (byte d) (byte a) (byte c) (byte b)) .a
      (some (.float (.arith form op))) (op.operands d a b c)
  | floatMove (packed : Bool) (op : FpMove) (d b : Fin 32) :
    Assembles (floatMove packed op (byte d) (byte b)) .x (some (.float (.move packed op)))
      [.rd d, .rb b]
  | fsel (d a c b : Fin 32) :
    Assembles (fsel (byte d) (byte a) (byte c) (byte b)) .a (some (.float .fsel))
      [.rd d, .ra a, .rb b, .frc c]
  | frsp (d b : Fin 32) :
    Assembles (frsp (byte d) (byte b)) .x (some (.float .frsp)) [.rd d, .rb b]
  | fctiwz (d b : Fin 32) :
    Assembles (fctiwz (byte d) (byte b)) .x (some (.float .fctiwz)) [.rd d, .rb b]
  | fres (d b : Fin 32) :
    Assembles (fres (byte d) (byte b)) .a (some (.float .fres)) [.rd d, .rb b]
  | frsqrte (d b : Fin 32) :
    Assembles (frsqrte (byte d) (byte b)) .a (some (.float .frsqrte)) [.rd d, .rb b]
  | fcmp (ordered : Bool) (crf : Fin 8) (a b : Fin 32) :
    Assembles (fcmp ordered (byte crf) (byte a) (byte b)) .x (some (.float (.fcmp ordered)))
      [.crfd crf, .ra a, .rb b]
  | mfcr (d : Fin 32) : Assembles (mfcr (byte d)) .x none [.rd d]
  | mffs (d : Fin 32) : Assembles (mffs (byte d)) .x none [.rd d]
  | lwz (d a : Fin 32) (offset : BitVec 16) :
    Assembles (lwz (byte d) (byte a) offset) .d none [.rd d, .ra a, .simm (offset.signExtend 32)]

/-- A word stands for an operation with these operands: it decodes to the operation, its fields hold
the operands, and they are all that the operation reads. -/
structure Denotes (word : Word) (op : Option Op) (operands : List Operand) : Prop where
  decode_eq : Op.decode word = op
  standsIn : ∀ operand ∈ operands, operand.StandsIn word
  operands_eq : ∀ o, op = some o → o.operands word = operands

namespace Denotes

variable {word other : Word} {op : Option Op} {operands : List Operand}

theorem of_decode {o : Op} (hdecode : Op.decode word = some o)
    (hoperands : o.operands word = operands) : Denotes word (some o) operands where
  decode_eq := hdecode
  standsIn operand hmem := Op.standsIn_of_mem (hoperands ▸ hmem)
  operands_eq := by
    rintro _ ⟨⟩
    exact hoperands

/-- What keeps the operation and the fields of its operands keeps the meaning. -/
theorem transfer (h : Denotes word op operands) (hdecode : Op.decode other = Op.decode word)
    (hfields : ∀ operand ∈ operands, operand.StandsIn other) : Denotes other op operands where
  decode_eq := hdecode.trans h.decode_eq
  standsIn := hfields
  operands_eq o ho := by
    have hword := h.operands_eq o ho
    rw [Op.operands_eq_of_standsIn (hword ▸ hfields), hword]

theorem withRc (h : Denotes word op operands) (hlow : ∀ operand ∈ operands, 1 ≤ operand.low) :
    Denotes (Assemble.withRc word) op operands := by
  have habove := Assemble.withRc_above word
  refine h.transfer (Word.decode_eq_of_half (by simpa using habove)) fun operand hmem => ?_
  exact (h.standsIn operand hmem).of_above habove (by decide) (hlow operand hmem)

theorem withOe {o : Op} (h : Denotes word (some o) operands) (ho : o.hasOe = true) :
    Denotes (Assemble.withOe word) (some o) operands := by
  refine h.transfer ((Op.decode_withOe h.decode_eq ho).trans h.decode_eq.symm)
    fun operand hmem => ?_
  have hlow := Op.low_of_hasOe ho (h.operands_eq o rfl ▸ hmem)
  exact (h.standsIn operand hmem).of_above (Assemble.withOe_above word) (by decide) hlow

end Denotes

/-- A word of a form denotes an operation with these operands and has the flags of the form
clear. -/
structure Entry (word : Word) (form : Form) (op : Option Op) (operands : List Operand) : Prop
    extends Denotes word op operands where
  rc_clear : form ≠ .d → word.rc = false
  oe_clear : form = .xo → word.oe = false

namespace Entry

open Assemble

variable {opcode : BitVec 6} {t a b c : Fin 32} {form : Form} {operands : List Operand}

theorem of_dForm {imm : BitVec 16} {op : IntOp} (hop : IntOp.ofOpcode? opcode.toNat = some op)
    (hoperands : ∀ word, Composed word opcode.toNat t a (upper imm) (imm.toNat % 2 ^ 11) →
      op.operands word = operands) :
    Entry (dForm opcode (byte t) (byte a) imm) .d (some (.int op)) operands := by
  have hw := Composed.dForm opcode t a imm
  exact ⟨.of_decode (hw.decode_of_opcode hop) (hoperands _ hw), absurd rfl, nofun⟩

theorem of_signed {imm : BitVec 16} {op : IntOp} (hop : IntOp.ofOpcode? opcode.toNat = some op)
    (hreads : ∀ word, op.operands word = [.rd word.rd, .ra word.ra, .simm word.simm]) :
    Entry (dForm opcode (byte t) (byte a) imm) .d (some (.int op))
      [.rd t, .ra a, .simm (imm.signExtend 32)] := by
  refine of_dForm hop fun word hw => ?_
  rw [hreads, hw.rd_eq, hw.ra_eq, hw.simm_eq (upper_add_lower imm)]

theorem of_mForm {sh : BitVec 32} {mb me : Fin 32} {op : IntOp} (hsh : sh.toNat = b)
    (hop : IntOp.ofOpcode? opcode.toNat = some op)
    (hoperands : ∀ word, Composed word opcode.toNat t a b (mb * 2 ^ 6 + me * 2) →
      word.mb = mb → word.me = me → op.operands word = operands) :
    Entry (mForm opcode (byte t) (byte a) sh (wide mb) (wide me)) .m (some (.int op)) operands := by
  have hw := Composed.mForm opcode t a b hsh mb me
  have hmb := hw.mb_eq.trans (show _ = mb.val by omega)
  have hme := hw.me_eq.trans (show _ = me.val by omega)
  refine ⟨.of_decode (hw.decode_of_opcode hop) (hoperands _ hw hmb hme), fun _ => ?_, nofun⟩
  rw [hw.rc_eq, decide_eq_false_iff_not]
  omega

theorem of_xForm {extended : BitVec 10} {op : Option Op} (hform : form = .xo → extended.toNat < 512)
    (hdenotes : ∀ word, Composed word opcode.toNat t a b (extended.toNat * 2) →
      Denotes word op operands) :
    Entry (xForm opcode (byte t) (byte a) (byte b) extended) form op operands := by
  have hw := Composed.xForm opcode t a b extended
  refine ⟨hdenotes _ hw, fun _ => ?_, fun h => ?_⟩
  · rw [hw.rc_eq, decide_eq_false_iff_not]
    omega
  · have hlt := hform h
    rw [hw.oe_eq, decide_eq_false_iff_not]
    omega

theorem of_registerForm {extended : BitVec 10} {op : IntOp}
    (hop : IntOp.ofExtended? extended.toNat = some op)
    (hform : form = .xo → extended.toNat < 512)
    (hoperands : ∀ word, Composed word 31 t a b (extended.toNat * 2) →
      op.operands word = operands) :
    Entry (xForm 31 (byte t) (byte a) (byte b) extended) form (some (.int op)) operands := by
  refine of_xForm hform fun word hw => .of_decode ?_ (hoperands word hw)
  rw [hw.decode_registerForm, Nat.mul_div_cancel _ (by decide), hop, Option.map_some]

theorem of_three_registers {extended : BitVec 10} {op : IntOp}
    (hop : IntOp.ofExtended? extended.toNat = some op)
    (hform : form = .xo → extended.toNat < 512)
    (hreads : ∀ word, op.operands word = [.rd word.rd, .ra word.ra, .rb word.rb]) :
    Entry (xForm 31 (byte t) (byte a) (byte b) extended) form (some (.int op))
      [.rd t, .ra a, .rb b] := by
  refine of_registerForm hop hform fun word hw => ?_
  rw [hreads, hw.rd_eq, hw.ra_eq, hw.rb_eq]

theorem of_two_registers {extended : BitVec 10} {op : IntOp}
    (hop : IntOp.ofExtended? extended.toNat = some op)
    (hform : form = .xo → extended.toNat < 512)
    (hreads : ∀ word, op.operands word = [.rd word.rd, .ra word.ra]) :
    Entry (xForm 31 (byte t) (byte a) (byte (0 : Fin 32)) extended) form (some (.int op))
      [.rd t, .ra a] := by
  refine of_registerForm hop hform fun word hw => ?_
  rw [hreads, hw.rd_eq, hw.ra_eq]

theorem of_aForm {extended : BitVec 5} {op : FloatOp}
    (hdecode : ∀ word, Composed word opcode.toNat t a b (c * 2 ^ 6 + extended.toNat * 2) →
      word.subop5 = extended.toNat → Op.decode word = some (.float op))
    (hoperands : ∀ word, Composed word opcode.toNat t a b (c * 2 ^ 6 + extended.toNat * 2) →
      word.frc = c → op.operands word = operands) :
    Entry (aForm opcode (byte t) (byte a) (byte b) (byte c) extended) .a (some (.float op))
      operands := by
  have hw := Composed.aForm opcode t a b c extended
  refine ⟨.of_decode (hdecode _ hw (subop5_aForm ..)) (hoperands _ hw (hw.frc_eq (by omega))),
    fun _ => ?_, nofun⟩
  rw [hw.rc_eq, decide_eq_false_iff_not]
  omega

theorem floatArith (precision : FpForm) (op : FpArith) (d a b c : Fin 32) :
    Entry (floatArith precision op (byte d) (byte a) (byte b) (byte c)) .a
      (some (.float (.arith precision op))) (op.operands d a b c) := by
  refine of_aForm (fun word hw h5 => ?_) fun word hw hc => ?_
  · cases precision with
    | double =>
      rw [hw.decode_double, FloatOp.ofDouble?, h5]
      cases op <;> rfl
    | single =>
      rw [hw.decode_single, FloatOp.ofSingle?, h5]
      cases op <;> rfl
    | paired =>
      rw [hw.decode_paired, FloatOp.ofPaired?, h5]
      cases op <;> rfl
  · simp only [FloatOp.operands, hw.rd_eq, hw.ra_eq, hw.rb_eq, hc]

end Entry

namespace Assembles

open Assemble

variable {word : Word} {form : Form} {op : Option Op} {operands : List Operand}

/-- Only immediates reach the record bit. -/
theorem low_pos (h : Assembles word form op operands) (hform : form ≠ .d) :
    ∀ operand ∈ operands, 1 ≤ operand.low := by
  cases h with
  | addi | addis | li | lis | addic | subfic | mulli | logicImm | compareImm | lwz =>
    exact absurd rfl hform
  | floatArith | floatFused => exact fun operand hmem => FpArith.low_pos hmem
  | floatBinary =>
    split
    all_goals exact fun operand hmem => FpArith.low_pos hmem
  | _ => simp [Operand.low]

theorem form_of_hasOe {o : Op} (h : Assembles word form (some o) operands) (ho : o.hasOe = true) :
    form = .xo := by
  cases h <;> try cases ho
  all_goals rfl

/-- Each line is right. -/
theorem entry (h : Assembles word form op operands) : Entry word form op operands := by
  cases h with
  | addi d a imm | addis d a imm | subfic d a imm | mulli d a imm =>
    exact .of_signed rfl fun _ => rfl
  | li d imm | lis d imm => exact .of_signed (a := 0) rfl fun _ => rfl
  | addic recording d a imm => exact .of_signed (by cases recording <;> rfl) fun _ => rfl
  | logicImm op shifted a s imm =>
    refine .of_dForm (by cases op <;> cases shifted <;> rfl) fun word hw => ?_
    simp only [IntOp.operands, hw.rd_eq, hw.ra_eq, hw.uimm_eq (upper_add_lower _)]
  | compareImm signed crf a imm =>
    rw [Assemble.compareImm, compareTarget_byte]
    refine .of_dForm (by cases signed <;> rfl) fun word hw => ?_
    cases signed
    · simp only [IntOp.operands, hw.crfd_eq rfl, hw.ra_eq, hw.uimm_eq (upper_add_lower _)]
      rfl
    · simp only [IntOp.operands, hw.crfd_eq rfl, hw.ra_eq, hw.simm_eq (upper_add_lower _)]
      rfl
  | add d a b | addc d a b | adde d a b | subf d a b | subfc d a b | subfe d a b | divw d a b
  | divwu d a b => exact .of_three_registers rfl (by decide) fun _ => rfl
  | mul op d a b =>
    exact .of_three_registers (by cases op <;> rfl) (by cases op <;> decide) fun _ => rfl
  | addze d a | subfze d a | neg d a => exact .of_two_registers rfl (by decide) fun _ => rfl
  | bool op a s b => exact .of_three_registers (by cases op <;> rfl) nofun fun _ => rfl
  | mr a s => exact .of_three_registers rfl nofun fun _ => rfl
  | shift left a s b => exact .of_three_registers (by cases left <;> rfl) nofun fun _ => rfl
  | sraw a s b => exact .of_three_registers rfl nofun fun _ => rfl
  | unary op a s => exact .of_two_registers (by cases op <;> rfl) nofun fun _ => rfl
  | srawi a s sh =>
    rw [Assemble.srawi, byte_and_31]
    refine .of_registerForm rfl nofun fun word hw => ?_
    simp only [IntOp.operands, hw.rd_eq, hw.ra_eq, hw.sh_eq]
  | compareReg signed crf a b =>
    rw [Assemble.compareReg, compareTarget_byte]
    refine .of_registerForm (by cases signed <;> rfl) nofun fun word hw => ?_
    simp only [IntOp.operands, hw.crfd_eq rfl, hw.ra_eq, hw.rb_eq]
  | rlwinm a s sh mb me | rlwimi a s sh mb me =>
    refine .of_mForm (toNat_wide sh) rfl fun word hw hmb hme => ?_
    simp only [IntOp.operands, hw.rd_eq, hw.ra_eq, hw.sh_eq, hmb, hme]
  | rlwnm a s b mb me =>
    refine .of_mForm (toNat_setWidth_byte b) rfl fun word hw hmb hme => ?_
    simp only [IntOp.operands, hw.rd_eq, hw.ra_eq, hw.rb_eq, hmb, hme]
  | floatArith precision op d a b c => exact .floatArith precision op d a b c
  | floatBinary precision op d a b =>
    rw [Assemble.floatBinary]
    split
    · exact .floatArith precision op d a b 0
    · exact .floatArith precision op d a 0 b
  | floatFused precision op d a c b => exact .floatArith precision op d a b c
  | floatMove packed op d b =>
    refine .of_xForm (a := 0) nofun fun word hw => .of_decode ?_ ?_
    · cases packed
      · rw [hw.decode_double, FloatOp.ofDouble?, hw.subop5_eq, hw.subop10_eq]
        cases op <;> rfl
      · rw [hw.decode_paired, FloatOp.ofPaired?, hw.subop5_eq, hw.subop10_eq]
        cases op <;> rfl
    · simp only [Op.operands, FloatOp.operands, hw.rd_eq, hw.rb_eq]
  | fsel d a c b =>
    refine .of_aForm (fun word hw h5 => ?_) fun word hw hc => ?_
    · rw [hw.decode_double, FloatOp.ofDouble?, h5]
      rfl
    · simp only [FloatOp.operands, hw.rd_eq, hw.ra_eq, hw.rb_eq, hc]
  | frsp d b | fctiwz d b =>
    refine .of_xForm (a := 0) nofun fun word hw => .of_decode ?_ ?_
    · rw [hw.decode_double, FloatOp.ofDouble?, hw.subop5_eq, hw.subop10_eq]
      rfl
    · simp only [Op.operands, FloatOp.operands, hw.rd_eq, hw.rb_eq]
  | fres d b =>
    refine .of_aForm (a := 0) (c := 0) (fun word hw h5 => ?_) fun word hw hc => ?_
    · rw [hw.decode_single, FloatOp.ofSingle?, h5]
      rfl
    · simp only [FloatOp.operands, hw.rd_eq, hw.rb_eq]
  | frsqrte d b =>
    refine .of_aForm (a := 0) (c := 0) (fun word hw h5 => ?_) fun word hw hc => ?_
    · rw [hw.decode_double, FloatOp.ofDouble?, h5]
      rfl
    · simp only [FloatOp.operands, hw.rd_eq, hw.rb_eq]
  | fcmp ordered crf a b =>
    rw [Assemble.fcmp, compareTarget_byte]
    refine .of_xForm nofun fun word hw => .of_decode ?_ ?_
    · rw [hw.decode_double, FloatOp.ofDouble?, hw.subop5_eq, hw.subop10_eq]
      cases ordered <;> rfl
    · simp only [Op.operands, FloatOp.operands, hw.crfd_eq rfl, hw.ra_eq, hw.rb_eq]
  | mfcr d =>
    refine .of_xForm (a := 0) (b := 0) nofun fun word hw => ⟨?_, ?_, nofun⟩
    · exact hw.decode_registerForm
    · simpa [Operand.StandsIn] using hw.rd_eq
  | mffs d =>
    refine .of_xForm (a := 0) (b := 0) nofun fun word hw => ⟨?_, ?_, nofun⟩
    · rw [hw.decode_double, FloatOp.ofDouble?, hw.subop5_eq, hw.subop10_eq]
      rfl
    · simpa [Operand.StandsIn] using hw.rd_eq
  | lwz d a offset =>
    have hw : Composed (Assemble.lwz (byte d) (byte a) offset) 32 d a _ _ := .dForm 32 d a offset
    refine ⟨⟨?_, ?_, nofun⟩, absurd rfl, nofun⟩
    · simp only [Op.decode, hw.opcode_eq]
      rfl
    · simp [Operand.StandsIn, hw.rd_eq, hw.ra_eq, hw.simm_eq (upper_add_lower _)]

end Assembles

/-! ## Decoding inverts assembling -/

/-- The second word is the first with a clear bit set. -/
structure SetsBit (bit : Nat) (word other : Word) : Prop where
  clear : word.getLsbD bit = false
  set : other.getLsbD bit = true
  others : ∀ i, i ≠ bit → other.getLsbD i = word.getLsbD i

theorem SetsBit.withRc {word : Word} (h : word.rc = false) :
    SetsBit 0 word (Assemble.withRc word) where
  clear := h
  set := by simp [Assemble.withRc]
  others i hi := by simp [Assemble.withRc, hi]

theorem SetsBit.withOe {word : Word} (h : word.oe = false) :
    SetsBit 10 word (Assemble.withOe word) where
  clear := h
  set := by simp [Assemble.withOe]
  others i hi := by
    rw [Assemble.withOe, BitVec.getLsbD_or, ← BitVec.twoPow_eq, BitVec.getLsbD_twoPow]
    simp [hi.symm]

/-- Decoding inverts assembling. Every assembled word denotes its operation and its operands. The
record bit is clear outside immediate forms and the overflow-enable bit in XO forms; setting one
where the form has it changes that bit alone and what the word denotes not at all. So equal words
come from the same operation on the same operands, and the interpreter takes the same step on every
word with this operation, these operands and these flags. -/
theorem Assembles.decoding_inverts_assembling {word : Word} {form : Form} {op : Option Op}
    {operands : List Operand} (h : Assembles word form op operands) :
    Denotes word op operands ∧
    (form ≠ .d → word.rc = false ∧ SetsBit 0 word (Assemble.withRc word) ∧
      Denotes (Assemble.withRc word) op operands) ∧
    (form = .xo → word.oe = false) ∧
    (∀ o, op = some o → o.hasOe = true → SetsBit 10 word (Assemble.withOe word) ∧
      Denotes (Assemble.withOe word) op operands) ∧
    (∀ form' op' operands', Assembles word form' op' operands' →
      op' = op ∧ (op.isSome → operands' = operands)) ∧
    ∀ (interpreter : Interpreter) (state : State) (other : Word) (o : Op), op = some o →
      Op.decode other = op → o.operands other = operands → other.rc = word.rc →
      other.oe = word.oe → interpreter.step state other = interpreter.step state word := by
  have hentry := h.entry
  have hdenotes := hentry.toDenotes
  refine ⟨hdenotes, fun hform => ?_, hentry.oe_clear, ?_, ?_, ?_⟩
  · have hrc := hentry.rc_clear hform
    exact ⟨hrc, .withRc hrc, hdenotes.withRc (h.low_pos hform)⟩
  · rintro o rfl ho
    exact ⟨.withOe (hentry.oe_clear (h.form_of_hasOe ho)), hdenotes.withOe ho⟩
  · intro form' op' operands' h'
    have hdenotes' := h'.entry.toDenotes
    have hop : op' = op := hdenotes'.decode_eq.symm.trans hdenotes.decode_eq
    refine ⟨hop, fun hsome => ?_⟩
    obtain ⟨o, rfl⟩ := Option.isSome_iff_exists.mp hsome
    rw [← hdenotes'.operands_eq o hop, hdenotes.operands_eq o rfl]
  · rintro interpreter state other o rfl hdecode hoperands hrc hoe
    have hsame := hoperands.trans (hdenotes.operands_eq o rfl).symm
    simp only [Interpreter.step, hdecode, hdenotes.decode_eq]
    rw [interpreter.stepOp_congr state hsame hrc hoe]

open Assemble in
/-- `subfe` with both flags in turn, at a subtraction whose extended opcode becomes 648. -/
theorem Assembles.subfe_flags_keep_meaning :
    Assembles (Assemble.subfe (byte (31 : Fin 32)) (byte (0 : Fin 32)) (byte (17 : Fin 32))) .xo
      (some (.int (.addExtended true true))) [.rd 31, .ra 0, .rb 17] ∧
    SetsBit 10 0x7FE08910 (withOe 0x7FE08910) ∧
    Denotes (withOe 0x7FE08910) (some (.int (.addExtended true true))) [.rd 31, .ra 0, .rb 17] ∧
    Denotes (withRc 0x7FE08910) (some (.int (.addExtended true true))) [.rd 31, .ra 0, .rb 17] := by
  have hline := Assembles.subfe 31 0 17
  have hword : Assemble.subfe (byte (31 : Fin 32)) (byte (0 : Fin 32)) (byte (17 : Fin 32)) =
      0x7FE08910 := by decide
  obtain ⟨-, hrc, -, hoe, -⟩ := decoding_inverts_assembling hline
  rw [hword] at hrc hoe
  exact ⟨hline, (hoe _ rfl rfl).1, (hoe _ rfl rfl).2, (hrc (by decide)).2.2⟩

end Recompiler.PowerPC
