import Recompiler.Proofs.BlockCode

/-!
# Instructions on constants

An integer instruction whose operands are all known while it is compiled has no code. Its result
becomes the constant of a slot, and its carry becomes a constant. Both are what the interpreter
computes.
-/

namespace Recompiler

open Alloc Arm Block Emit Lower PowerPC

/-! ## What instructions read and write -/

namespace PowerPC

namespace IntOp

/-- The general registers that an instruction reads. Register 0 stands for zero in `addi` and
`addis`. -/
def sources (op : IntOp) (word : Word) : List GuestReg :=
  match op with
  | .addImm _ => if word.ra = 0 then [] else [word.ra]
  | .addCarryingImm _ | .subfic | .mulli | .neg | .compare _ true => [word.ra]
  | .logicImm .. | .rlwinm | .srawi | .unary _ => [word.rd]
  | .rlwimi => [word.ra, word.rd]
  | .rlwnm | .shift _ | .sraw | .bool _ => [word.rd, word.rb]
  | .compare _ false | .add | .addc | .subf | .subfc | .mul _ | .divw | .divwu =>
    [word.ra, word.rb]
  | .addExtended _ second => if second then [word.ra, word.rb] else [word.ra]

/-- The condition field that an instruction writes. -/
def field? (op : IntOp) (word : Word) : Option CrField :=
  match op with
  | .compare .. => some word.crfd
  | _ => if op.records word.rc then some 0 else none

end IntOp

namespace State.On

variable {layout : Layout} {g : State} {reg : GuestReg} {result : IntResult} {record : Bool}

theorem writeCarry (hv : layout.Valid) (h : g.On layout) (carry : Option Bool) :
    (g.writeCarry carry).On layout := by
  cases carry with
  | none => exact h
  | some carry => exact h.put hv .xerCa _

theorem gpr_writeResult (hv : layout.Valid) (h : g.On layout) :
    (g.writeResult reg result false record).gpr reg = result.value := by
  have hset : (g.setGpr reg result.value).fetch (.gpr reg) = result.value :=
    h.fetch_put_self hv (.gpr reg) _
  have hon : (g.setGpr reg result.value).On layout := h.put hv (.gpr reg) _
  have hcarry := (State.Keeps.refl hon (.gpr reg)).writeCarry hv result.carry (by simp)
  have hne : Cell.gpr reg ≠ .cr 0 := by simp
  rw [writeResult_false]
  cases record with
  | false => exact hcarry.fetch.trans hset
  | true => exact (hcarry.put hv hne _).fetch.trans hset

theorem crField_writeResult (hv : layout.Valid) (h : g.On layout) :
    (g.writeResult reg result false true).crField 0 = Condition.ofSign result.value := by
  have hon := (h.put hv (.gpr reg) result.value).writeCarry hv result.carry
  rw [writeResult_false]
  exact (congrArg Condition.decode (hon.fetch_put_self hv (.cr 0) _)).trans
    (Condition.decode_encode _)

theorem xerCa_writeResult {carry : Bool} (hv : layout.Valid) (h : g.On layout)
    (hcarry : result.carry = some carry) :
    (g.writeResult reg result false record).xerCa = carry := by
  have hbyte : ((BitVec.ofBool carry).setWidth 8 != 0#8) = carry := by cases carry <;> rfl
  have hon : (g.setGpr reg result.value).On layout := h.put hv (.gpr reg) _
  have hset : ((g.setGpr reg result.value).setXerCa carry).fetch .xerCa =
      (BitVec.ofBool carry).setWidth 8 := hon.fetch_put_self hv .xerCa _
  have hset' : ((g.setGpr reg result.value).writeCarry result.carry).fetch .xerCa =
      (BitVec.ofBool carry).setWidth 8 := hcarry ▸ hset
  rw [writeResult_false]
  cases record with
  | false => exact (congrArg (· != 0#8) hset').trans hbyte
  | true =>
    have hne : Cell.xerCa ≠ .cr 0 := by simp
    have hkept := (hon.writeCarry hv result.carry).fetch_put_of_ne hv (.cr 0)
      (Condition.encode (Condition.ofSign result.value)) hne
    exact (congrArg (· != 0#8) (hkept.trans hset')).trans hbyte

end State.On

end PowerPC

/-! ## Results without code -/

namespace Emit

variable {α : Type} {e : Emitter} {reg : GuestReg} {w : BitVec 32}

/-- A constant goes to a general register and, recorded, to condition field 0. -/
def Emitter.folded (e : Emitter) (reg : GuestReg) (value : BitVec 32) (record : Bool) : Emitter :=
  let set := Cache.setConstant (.integer e.layout) e.integers (IntSlot.gpr reg) (value.setWidth 64)
  { e with
    integers :=
      if record then Cache.setConstant (.integer e.layout) set (IntSlot.cr 0)
        (Condition.ofResult value)
      else set
    stats := { e.stats with constantFolds := e.stats.constantFolds + 1 } }

/-- The carry of a result becomes a constant, if somebody looks at it. -/
def Emitter.carried (e : Emitter) : Option Bool → Emitter
  | some carry => { e with carry := if e.hints.wantsCa then .ofBool carry else .inGuestState }
  | none => e

theorem binding_folded (e : Emitter) (reg : GuestReg) (value : BitVec 32) (record : Bool) :
    (e.folded reg value record).integers.binding (IntSlot.gpr reg) =
      .constant (ofWord value) := by
  have hne : IntSlot.gpr reg ≠ IntSlot.cr 0 := IntSlot.gpr_ne_cr reg 0
  have htrunc : IntSlot.truncate (.gpr reg) (value.setWidth 64) = ofWord value := by
    simp [IntSlot.truncate, IntSlot.isWide_gpr, ofWord]
  cases record with
  | false => simp [Emitter.folded, Cache.setConstant_eq, Access.integer, htrunc]
  | true => simp [Emitter.folded, Cache.setConstant_eq, Access.integer, htrunc, hne]

theorem binding_folded_cr (e : Emitter) (reg : GuestReg) (value : BitVec 32) :
    (e.folded reg value true).integers.binding (IntSlot.cr 0) =
      .constant (Condition.ofResult value) := by
  simp [Emitter.folded, Cache.setConstant_eq, Access.integer, IntSlot.truncate, IntSlot.isWide_cr]

theorem run_currentWord (f : Word → EmitM α) :
    (currentWord >>= f).run.run e = (f e.word).run.run e := rfl

theorem run_gprConstant (h : e.gprConstant? reg = some w) (f : Option (BitVec 32) → EmitM α) :
    (gprConstant? reg >>= f).run.run e = (f (some w)).run.run e := by
  rw [← h]
  rfl

theorem run_source (h : e.gprConstant? reg = some w) (f : Source → EmitM α) :
    (source reg >>= f).run.run e = (f (.constant w)).run.run e := by
  apply run_bind_ok
  unfold source
  rw [run_gprConstant h]
  rfl

theorem run_foldGpr (e : Emitter) (reg : GuestReg) (value : BitVec 32) :
    (foldGpr reg value).run.run e = (.ok (), e.folded reg value false) := rfl

theorem run_fold (e : Emitter) (reg : GuestReg) (value : BitVec 32) :
    (fold reg value).run.run e = (.ok (), e.folded reg value e.word.rc) := by
  unfold fold recordFolded
  rw [run_bind_ok (run_foldGpr e reg value), run_currentWord]
  have hword : (e.folded reg value false).word = e.word := rfl
  rw [hword]
  cases e.word.rc <;> rfl

theorem run_carryConstant (e : Emitter) (carry : Bool) :
    (carryConstant carry).run.run e = (.ok (), e.carried (some carry)) := by
  unfold carryConstant Emitter.carried
  rw [run_get_bind]
  cases e.hints.wantsCa <;> rfl

theorem run_fold_carry (e : Emitter) (reg : GuestReg) (value : BitVec 32) (carry : Bool) :
    (do fold reg value; carryConstant carry : EmitM Unit).run.run e =
      (.ok (), (e.folded reg value e.word.rc).carried (some carry)) :=
  (run_bind_ok (run_fold e reg value)).trans (run_carryConstant _ carry)

/-- Constants and a constant carry are added at compile time. -/
theorem run_addExtended {x y : BitVec 32} {ca : Bool} (inverted second : Bool)
    (ha : e.gprConstant? e.word.ra = some x)
    (hb : second = true → e.gprConstant? e.word.rb = some y)
    (hcarry : e.carry.constant? = some ca) :
    let sum := addWithCarry (if inverted then ~~~x else x) (if second then y else 0) ca
    (addExtended inverted second).run.run e =
      (.ok (), (e.folded e.word.rd sum.value e.word.rc).carried (some sum.carry)) := by
  have hsum : ∀ x y : BitVec 32, (addCarryToConstants e.word.rd x y).run.run e =
      (.ok (.constant (addWithCarry x y ca).value),
        (e.folded e.word.rd (addWithCarry x y ca).value false).carried
          (some (addWithCarry x y ca).carry)) := by
    intro x y
    unfold addCarryToConstants
    rw [run_get_bind]
    dsimp only
    rw [hcarry]
    dsimp only
    rw [setWidth_wideTotal, wideTotal_carries]
    exact (run_bind_ok (run_foldGpr e _ _)).trans (run_bind_ok (run_carryConstant _ _))
  have hrecord : ∀ (value : BitVec 32) (carry : Bool),
      (recordFolded value).run.run ((e.folded e.word.rd value false).carried (some carry)) =
        (.ok (), (e.folded e.word.rd value e.word.rc).carried (some carry)) := by
    intro value carry
    unfold recordFolded
    rw [run_currentWord]
    have hword : ((e.folded e.word.rd value false).carried (some carry)).word = e.word := rfl
    rw [hword]
    cases e.word.rc <;> rfl
  unfold addExtended
  rw [run_currentWord, run_source ha]
  cases inverted <;> cases second
  · exact (run_bind_ok (hsum x 0)).trans (hrecord _ _)
  · exact (run_source (hb rfl) _).trans ((run_bind_ok (hsum x y)).trans (hrecord _ _))
  · exact (run_bind_ok (hsum (~~~x) 0)).trans (hrecord _ _)
  · exact (run_source (hb rfl) _).trans ((run_bind_ok (hsum (~~~x) y)).trans (hrecord _ _))

/-- An immediate is added to a constant, or loaded where the register is zero. -/
theorem run_addImm {val : GuestReg → BitVec 32} {ca : Bool} (shifted : Bool)
    (hsource : e.word.ra ≠ 0 → e.gprConstant? e.word.ra = some (val e.word.ra)) :
    let result := (IntOp.addImm shifted).result e.word (val e.word.ra) (val e.word.rb)
      (val e.word.rd) ca
    (addImm shifted).run.run e = (.ok (), e.folded e.word.rd result.value false) := by
  unfold addImm
  rw [run_currentWord]
  dsimp only
  by_cases hzero : e.word.ra = 0
  · rw [if_pos hzero, run_foldGpr]
    simp [IntOp.result, shiftedImm, hzero]
  · rw [if_neg hzero, run_gprConstant (hsource hzero), run_foldGpr]
    simp [IntOp.result, shiftedImm, hzero]

/-- A difference of constants is folded; that of a register with itself is zero. -/
theorem run_subf {val : GuestReg → BitVec 32}
    (ha : e.gprConstant? e.word.ra = some (val e.word.ra))
    (hb : e.gprConstant? e.word.rb = some (val e.word.rb)) :
    subf.run.run e = (.ok (), e.folded e.word.rd
      (addWithCarry (~~~val e.word.ra) (val e.word.rb) true).value e.word.rc) := by
  unfold subf
  rw [run_currentWord, value_addWithCarry_complement]
  by_cases hsame : e.word.ra = e.word.rb
  · rw [if_pos hsame, run_fold, hsame, BitVec.sub_self]
    rfl
  · rw [if_neg hsame, run_gprConstant ha, run_gprConstant hb]
    exact run_fold ..

/-- An instruction on constants is computed at compile time. -/
theorem run_lowerInteger {op : IntOp} {val : GuestReg → BitVec 32} {ca : Bool}
    (hsources : ∀ reg ∈ op.sources e.word, e.gprConstant? reg = some (val reg))
    (hcarry : op.readsCa = true → e.carry.constant? = some ca)
    (htarget : op.target e.word = some reg) :
    let result := op.result e.word (val e.word.ra) (val e.word.rb) (val e.word.rd) ca
    (lowerInteger op).run.run e = (.ok (),
      (e.folded reg result.value (op.records e.word.rc)).carried result.carry) := by
  cases op with
  | addImm shifted =>
    cases htarget
    exact run_addImm shifted fun hzero => hsources _ (by simp [IntOp.sources, hzero])
  | addCarryingImm record =>
    cases htarget
    unfold lowerInteger addCarryingImm
    rw [run_currentWord, run_gprConstant (hsources e.word.ra (by simp [IntOp.sources]))]
    dsimp only [IntOp.result, IntResult.carrying]
    rw [value_addWithCarry_false, ← sumCarries_eq]
    refine ((run_bind_ok (run_foldGpr ..)).trans (run_bind_ok (run_carryConstant ..))).trans ?_
    cases record <;> rfl
  | subfic =>
    cases htarget
    unfold lowerInteger subfic
    rw [run_currentWord, run_gprConstant (hsources e.word.ra (by simp [IntOp.sources]))]
    dsimp only [IntOp.result, IntResult.carrying]
    rw [value_addWithCarry_complement, carry_addWithCarry_complement]
    exact (run_bind_ok (run_foldGpr ..)).trans (run_carryConstant ..)
  | mulli =>
    cases htarget
    unfold lowerInteger mulli
    rw [run_currentWord, run_gprConstant (hsources e.word.ra (by simp [IntOp.sources]))]
    exact run_foldGpr ..
  | logicImm op shifted =>
    cases htarget
    unfold lowerInteger logicImm
    rw [run_currentWord, run_gprConstant (hsources e.word.rd (by simp [IntOp.sources]))]
    dsimp only [IntOp.result]
    rw [← apply_immLogicKind]
    refine (run_bind_ok (run_foldGpr ..)).trans ?_
    cases op <;> rfl
  | compare signed immediate => simp [IntOp.target] at htarget
  | rlwimi =>
    cases htarget
    have ha := hsources e.word.ra (by simp [IntOp.sources])
    have hs := hsources e.word.rd (by simp [IntOp.sources])
    unfold lowerInteger rlwimi
    rw [run_currentWord, run_gprConstant ha, run_gprConstant hs]
    exact run_fold ..
  | rlwinm =>
    cases htarget
    unfold lowerInteger rlwinm rotateMask
    rw [run_currentWord, run_gprConstant (hsources e.word.rd (by simp [IntOp.sources]))]
    exact run_fold ..
  | rlwnm =>
    cases htarget
    have hs := hsources e.word.rd (by simp [IntOp.sources])
    have hb := hsources e.word.rb (by simp [IntOp.sources])
    unfold lowerInteger rlwnm
    rw [run_currentWord, run_gprConstant hb]
    dsimp only
    unfold rotateMask
    rw [run_gprConstant hs]
    exact run_fold ..
  | shift left =>
    cases htarget
    have hs := hsources e.word.rd (by simp [IntOp.sources])
    have hb := hsources e.word.rb (by simp [IntOp.sources])
    unfold lowerInteger shift
    rw [run_currentWord, run_gprConstant hs, run_gprConstant hb]
    dsimp only [IntOp.result]
    rw [← shiftValue_eq]
    exact run_fold ..
  | sraw =>
    cases htarget
    have hs := hsources e.word.rd (by simp [IntOp.sources])
    have hb := hsources e.word.rb (by simp [IntOp.sources])
    unfold lowerInteger sraw
    rw [run_currentWord, run_gprConstant hs, run_gprConstant hb]
    dsimp only [IntOp.result]
    rw [← toNat_and_amount, ← shiftAlgebraicValue_eq]
    exact run_fold_carry ..
  | srawi =>
    cases htarget
    unfold lowerInteger srawi shiftAlgebraicBy
    rw [run_currentWord, run_gprConstant (hsources e.word.rd (by simp [IntOp.sources]))]
    dsimp only [IntOp.result]
    rw [← shiftAlgebraicValue_eq]
    exact run_fold_carry ..
  | bool op =>
    cases htarget
    have hs := hsources e.word.rd (by simp [IntOp.sources])
    have hb := hsources e.word.rb (by simp [IntOp.sources])
    unfold lowerInteger Lower.bool
    rw [run_currentWord]
    dsimp only
    rw [run_gprConstant hs, run_gprConstant hb]
    exact run_fold ..
  | unary op =>
    cases htarget
    unfold lowerInteger unary
    rw [run_currentWord, run_gprConstant (hsources e.word.rd (by simp [IntOp.sources]))]
    dsimp only [IntOp.result]
    rw [← unaryValue_eq]
    exact run_fold ..
  | add =>
    cases htarget
    have ha := hsources e.word.ra (by simp [IntOp.sources])
    have hb := hsources e.word.rb (by simp [IntOp.sources])
    unfold lowerInteger add
    rw [run_currentWord, run_source ha, run_source hb]
    dsimp only
    rw [← value_addWithCarry_false]
    exact run_fold ..
  | addc =>
    cases htarget
    have ha := hsources e.word.ra (by simp [IntOp.sources])
    have hb := hsources e.word.rb (by simp [IntOp.sources])
    unfold lowerInteger addc
    rw [run_currentWord, run_source ha, run_source hb]
    dsimp only [IntOp.result, IntResult.ofSum]
    rw [value_addWithCarry_false, ← sumCarries_eq]
    exact run_fold_carry ..
  | addExtended inverted second =>
    cases htarget
    have hcarry := hcarry rfl
    refine run_addExtended inverted second (hsources e.word.ra ?_) (fun hsecond => ?_) hcarry
    · cases second <;> simp [IntOp.sources]
    · exact hsources e.word.rb (by simp [IntOp.sources, hsecond])
  | subf =>
    cases htarget
    have ha := hsources e.word.ra (by simp [IntOp.sources])
    have hb := hsources e.word.rb (by simp [IntOp.sources])
    exact run_subf ha hb
  | subfc =>
    cases htarget
    have ha := hsources e.word.ra (by simp [IntOp.sources])
    have hb := hsources e.word.rb (by simp [IntOp.sources])
    unfold lowerInteger subfc
    rw [run_currentWord, run_gprConstant ha, run_gprConstant hb]
    dsimp only [IntOp.result, IntResult.ofSum]
    rw [value_addWithCarry_complement, carry_addWithCarry_complement]
    exact run_fold_carry ..
  | neg =>
    cases htarget
    unfold lowerInteger neg
    rw [run_currentWord, run_gprConstant (hsources e.word.ra (by simp [IntOp.sources]))]
    exact run_fold ..
  | mul op =>
    cases htarget
    have ha := hsources e.word.ra (by simp [IntOp.sources])
    have hb := hsources e.word.rb (by simp [IntOp.sources])
    unfold lowerInteger mul
    rw [run_currentWord, run_gprConstant ha, run_gprConstant hb]
    dsimp only [IntOp.result]
    rw [← product_eq]
    exact run_fold ..
  | divw =>
    cases htarget
    have ha := hsources e.word.ra (by simp [IntOp.sources])
    have hb := hsources e.word.rb (by simp [IntOp.sources])
    unfold lowerInteger divw
    rw [run_currentWord, run_gprConstant ha, run_gprConstant hb]
    dsimp only [IntOp.result]
    rw [← divwValue_eq]
    exact run_fold ..
  | divwu =>
    cases htarget
    have ha := hsources e.word.ra (by simp [IntOp.sources])
    have hb := hsources e.word.rb (by simp [IntOp.sources])
    unfold lowerInteger divwu
    rw [run_currentWord, run_gprConstant ha, run_gprConstant hb]
    dsimp only [IntOp.result]
    rw [← quotient_eq]
    exact run_fold ..

/-- A compare of constants is decided at compile time. -/
theorem run_integerCompare {val : GuestReg → BitVec 32} (signed immediate : Bool)
    (hsources : ∀ reg ∈ (IntOp.compare signed immediate).sources e.word,
      e.gprConstant? reg = some (val reg)) :
    let difference := extend signed (val e.word.ra) - extend signed
      (IntOp.compareOperand e.word signed immediate (val e.word.rb))
    (integerCompare signed immediate).run.run e = (.ok (), { e with
      integers := Cache.setConstant (.integer e.layout) e.integers (IntSlot.cr e.word.crfd)
        difference }) := by
  unfold integerCompare
  cases immediate with
  | true =>
    rw [run_currentWord, run_gprConstant (hsources e.word.ra (by simp [IntOp.sources])),
      compareOperand_immediate]
    cases signed <;> rfl
  | false =>
    have ha := hsources e.word.ra (by simp [IntOp.sources])
    have hb := hsources e.word.rb (by simp [IntOp.sources])
    have hright : (rightConstant? e.word signed false).run.run e =
        (.ok (some (val e.word.rb)), e) := by
      rw [← hb]
      rfl
    rw [run_currentWord, run_gprConstant ha, run_bind_ok hright]
    cases signed <;> rfl

/-! ## Folding follows the interpreter -/

/-- The emitter got from `e` to `e'` without code, and knows what the instruction wrote in the guest
state `g`. -/
structure Emitter.Folds (e : Emitter) (op : IntOp) (e' : Emitter) (g : State) : Prop where
  code : e'.code = e.code
  target : ∀ reg, op.target e.word = some reg →
    e'.integers.binding (IntSlot.gpr reg) = .constant (ofWord (g.gpr reg))
  field : ∀ field, op.field? e.word = some field → ∃ value,
    e'.integers.binding (IntSlot.cr field) = .constant value ∧
      Condition.decode value = g.crField field
  carry : op.writesCa = true → e.hints.wantsCa = true → e'.carry.constant? = some g.xerCa
  kept : op.writesCa = false → e'.carry = e.carry

variable {op : IntOp} {layout : Layout} {g : State}

theorem folds_result {result : IntResult} (hv : layout.Valid) (hon : g.On layout)
    (htarget : op.target e.word = some reg) (hwrites : result.carry.isSome = op.writesCa) :
    e.Folds op ((e.folded reg result.value (op.records e.word.rc)).carried result.carry)
      (g.writeResult reg result false (op.records e.word.rc)) := by
  have hints : ∀ e : Emitter, (e.carried result.carry).integers = e.integers := by
    intro e
    cases result.carry <;> rfl
  have hfield : op.field? e.word = if op.records e.word.rc then some 0 else none := by
    cases op with
    | compare signed immediate => simp [IntOp.target] at htarget
    | _ => rfl
  refine ⟨?_, ?_, ?_, ?_, ?_⟩
  · cases result.carry <;> rfl
  · intro r hr
    rw [htarget, Option.some.injEq] at hr
    rw [← hr, hints, binding_folded, hon.gpr_writeResult hv]
  · intro field hf
    rw [hfield] at hf
    split at hf
    · next hrecord =>
      cases hf
      refine ⟨_, by rw [hints, hrecord, binding_folded_cr], ?_⟩
      rw [hrecord]
      exact (Condition.decode_ofResult _).trans (hon.crField_writeResult hv).symm
    · simp at hf
  · intro hw hwants
    rw [← hwrites] at hw
    obtain ⟨b, hb⟩ := Option.isSome_iff_exists.1 hw
    have hcarried : ((e.folded reg result.value (op.records e.word.rc)).carried
        (some b)).carry = .ofBool b := if_pos hwants
    rw [hon.xerCa_writeResult hv hb, hb, hcarried]
    cases b <;> rfl
  · intro hw
    have hnone : result.carry = none := by simpa [← hwrites] using hw
    rw [hnone]
    rfl

theorem folds_compare (hv : layout.Valid) (hon : g.On layout) (signed immediate : Bool)
    {difference : BitVec 64} {order : Ordering}
    (horder : Condition.decode difference = Condition.ofOrdering order) :
    e.Folds (.compare signed immediate) { e with
      integers := Cache.setConstant (.integer e.layout) e.integers (IntSlot.cr e.word.crfd)
        difference }
      (g.setCrField e.word.crfd (Condition.ofOrdering order)) := by
  refine ⟨rfl, by simp [IntOp.target], ?_, by simp [IntOp.writesCa], fun _ => rfl⟩
  intro field hf
  cases hf
  refine ⟨difference, ?_, ?_⟩
  · simp [Cache.setConstant_eq, Access.integer, IntSlot.truncate]
  · rw [horder]
    exact ((congrArg Condition.decode (hon.fetch_put_self hv (.cr e.word.crfd) _)).trans
      (Condition.decode_encode _)).symm

/-- An integer instruction whose operands are constants emits no code. Its destination, the
condition field that it writes and, if somebody looks at it, its carry become constants, namely
those that the interpreter computes from the values of the operands. An instruction without a carry
of its own leaves the carry alone. -/
theorem constant_operands_fold (hop : Op.decode e.word = some (.int op))
    (hlowered : e.config.deferral? e.word = none) (hv : layout.Valid) (hon : g.On layout)
    (hsources : ∀ reg ∈ op.sources e.word, e.gprConstant? reg = some (g.gpr reg))
    (hcarry : op.readsCa = true → e.carry.constant? = some g.xerCa) (interpreter : Interpreter) :
    ∃ e' g', (lowerInteger op).run.run e = (.ok (), e') ∧ interpreter.step g e.word = .ok g' ∧
      e.Folds op e' g' := by
  have hstep : interpreter.step g e.word = .ok (g.stepInteger e.word op) := by
    unfold Interpreter.step
    rw [hop]
    rfl
  have hoe : (op.hasOe && e.word.oe) = false := by
    unfold Config.deferral? Config.opDeferral? at hlowered
    simp only [hop] at hlowered
    split at hlowered
    · simp at hlowered
    · split at hlowered
      · simp at hlowered
      · next h => simpa [Op.hasOe] using h
  by_cases htarget : ∃ reg, op.target e.word = some reg
  · obtain ⟨reg, htarget⟩ := htarget
    have hresult := State.stepInteger_of_not_oe g hop hoe htarget
    refine ⟨_, _, run_lowerInteger hsources hcarry htarget, hstep, ?_⟩
    rw [hresult]
    exact folds_result hv hon htarget (IntOp.isSome_carry_result ..)
  · -- only compares have no destination
    cases op with
    | compare signed immediate =>
      exact ⟨_, _, run_integerCompare signed immediate hsources, hstep,
        folds_compare hv hon signed immediate (Condition.decode_difference ..)⟩
    | _ => exact absurd ⟨_, rfl⟩ htarget

/-- The complement of zero plus a carry, recorded. -/
theorem complement_plus_carry_folds :
    let e := { (Emitter.new {} .standard).folded 3 0 false with
      carry := .constantTrue, word := 0x7CA30191 }
    let g := (State.zeros .standard).setXerCa true
    e.gprConstant? 3 = some (g.gpr 3) ∧ e.carry.constant? = some g.xerCa ∧
    ∃ e' g', (lowerInteger (.addExtended true false)).run.run e = (.ok (), e') ∧
      Interpreter.step {} g e.word = .ok g' ∧ e.Folds (.addExtended true false) e' g' := by
  intro e g
  have hreg : e.gprConstant? 3 = some (g.gpr 3) := by decide +kernel
  have hca : e.carry.constant? = some g.xerCa := by decide +kernel
  have hon : g.On .standard :=
    (State.On.zeros .standard).put Layout.valid_standard .xerCa 1
  have hsources : ∀ reg ∈ (IntOp.addExtended true false).sources e.word,
      e.gprConstant? reg = some (g.gpr reg) := by
    have hlist : (IntOp.addExtended true false).sources e.word = [3] := by decide
    rw [hlist]
    simpa using hreg
  have hop : Op.decode e.word = some (.int (.addExtended true false)) := by decide
  have hlowered : e.config.deferral? e.word = none := by decide
  exact ⟨hreg, hca, constant_operands_fold hop hlowered Layout.valid_standard hon hsources
    (fun _ => hca) {}⟩

end Emit

end Recompiler
