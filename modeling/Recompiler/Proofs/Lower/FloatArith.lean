import Recompiler.Lower.FloatArith
import Recompiler.Proofs.CallSteps

/-!
# Floating-point arithmetic

The code of an arithmetic instruction computes the host's operation on each lane of its form, with
the third operand rounded to 25 bits unless that is known to change nothing.
-/

namespace Recompiler

/-- Whether an operation on these lanes computes lane `i`. -/
def Arm.Lanes.Selects (lanes : Arm.Lanes) (i : Nat) : Prop := i = 0 ∨ (i = 1 ∧ lanes = .both)

theorem Arm.Lanes.Selects.lt_two {lanes : Arm.Lanes} {i : Nat} (h : lanes.Selects i) : i < 2 := by
  rcases h with rfl | ⟨rfl, -⟩ <;> decide

namespace Lower

open Alloc Arm Block PowerPC Emit Ieee

/-! ## Values -/

@[simp] theorem lane_and (v w : BitVec 128) (i : Nat) : lane (v &&& w) i = lane v i &&& lane w i :=
  BitVec.extractLsb'_and

theorem lane_onLanes {lanes : Lanes} {i : Nat} (h : lanes.Selects i) (old : BitVec 128)
    (f : Nat → BitVec 64) : lane (onLanes lanes old f) i = f i := by
  rcases h with rfl | ⟨rfl, rfl⟩
  · cases lanes <;> simp [onLanes]
  · simp [onLanes]

theorem lane_spread (x : BitVec 64) {i : Nat} (hi : i < 2) : lane (join x x) i = x := by
  rcases (by omega : i = 0 ∨ i = 1) with rfl | rfl <;> simp

/-- Keeping the deciding bit and adding it once more rounds to 25 bits. -/
theorem keep_add_roundBit (x : Double) :
    (x &&& keepMask) + (x &&& Double.roundBit) = x.roundTo25Bits := by
  have hsplit : x &&& keepMask =
      (x &&& ~~~(0x0FFFFFFF : Double)) + (x &&& Double.roundBit) := by
    rw [BitVec.add_eq_or_of_and_eq_zero, ← BitVec.and_or_distrib_left]
    · rfl
    · rw [BitVec.and_assoc, BitVec.and_comm _ (x &&& _), BitVec.and_assoc]
      have : Double.roundBit &&& ~~~(0x0FFFFFFF : Double) = 0 := by decide
      rw [this]
      simp
  have hdouble : (x &&& Double.roundBit) <<< 1 =
      (x &&& Double.roundBit) + (x &&& Double.roundBit) := by
    apply BitVec.eq_of_toNat_eq
    rw [BitVec.toNat_shiftLeft, BitVec.toNat_add, Nat.shiftLeft_eq]
    congr 1
    omega
  rw [Double.roundTo25Bits, hsplit, BitVec.add_assoc, ← hdouble]

/-- The host's operation on one lane. -/
def arithEval (op : FpArith) (a b c : Double) : Double :=
  match op with
  | .div => FpOp.eval .div a b
  | .sub => FpOp.eval .sub a b
  | .add => FpOp.eval .add a b
  | .mul => FpOp.eval .mul a c
  | .madd => FusedOp.eval .fmadd a c b
  | .msub => FusedOp.eval .fnmsub a c b
  | .nmadd => FusedOp.eval .fnmadd a c b
  | .nmsub => FusedOp.eval .fmsub a c b

/-- Operands that an operation does not use do not matter. -/
theorem arithEval_congr (op : FpArith) {a b b' c c' : Double} (hb : op.usesB = true → b = b')
    (hc : op.usesC = true → c = c') : arithEval op a b c = arithEval op a b' c' := by
  cases op with
  | add | sub | div =>
    rw [hb rfl]
    rfl
  | mul =>
    rw [hc rfl]
    rfl
  | madd | msub | nmadd | nmsub => rw [hb rfl, hc rfl]

/-- Whether the third operand is rounded. -/
def roundsThird (precision : Bank 32 Precision) (word : Word) (form : FpForm) (op : FpArith) :
    Bool :=
  op.usesC && singleResult form && !(precision.get word.frc).isSingle (lowerOnly form)

/-- The operation on lane `i` of its operands. -/
def arithLane (op : FpArith) (rounding : Bool) (a b c : BitVec 128) (i : Nat) : Double :=
  arithEval op (lane a i) (lane b i)
    (if rounding then Double.roundTo25Bits (lane c i) else lane c i)

/-- What a form makes of its result. -/
def finishValue (form : FpForm) (v : BitVec 128) : BitVec 128 :=
  match form with
  | .double => v
  | .single => join (Double.roundToSingle (lane v 0)) (Double.roundToSingle (lane v 0))
  | .paired => join (Double.roundToSingle (lane v 0)) (Double.roundToSingle (lane v 1))

/-- The new value of the destination. -/
def arithValue (form : FpForm) (op : FpArith) (rounding : Bool) (old a b c : BitVec 128) :
    BitVec 128 :=
  finishValue form (onLanes (formLanes form) old (arithLane op rounding a b c))

/-- The lanes that a form computes. -/
def formUses (form : FpForm) (i : Nat) : Prop := i = 0 ∨ (i = 1 ∧ form = .paired)

theorem selects_of_formUses {form : FpForm} {i : Nat} (h : formUses form i) :
    (formLanes form).Selects i := by
  rcases h with rfl | ⟨rfl, rfl⟩
  · exact .inl rfl
  · exact .inr ⟨rfl, rfl⟩

/-- Only the lanes that a form computes matter, and only an arithmetic on the lower lane of doubles
keeps something of the old value. -/
theorem finishValue_congr {form : FpForm} {old old' : BitVec 128} {f f' : Nat → BitVec 64}
    (hold : form = .double → old = old') (hf : ∀ i, formUses form i → f i = f' i) :
    finishValue form (onLanes (formLanes form) old f) =
      finishValue form (onLanes (formLanes form) old' f') := by
  have h0 := hf 0 (.inl rfl)
  cases form with
  | double =>
    rw [hold rfl]
    simp only [finishValue, formLanes, onLanes, h0]
  | single => simp only [finishValue, formLanes, onLanes, lane_join_zero, h0]
  | paired =>
    have h1 := hf 1 (.inr ⟨rfl, rfl⟩)
    simp only [finishValue, formLanes, onLanes, lane_join_zero, lane_join_one, h0, h1]

end Lower

namespace Emit

open Alloc Arm Block PowerPC Lower Ieee

variable {s : Setting} {c : Contents} {e e' : Emitter} {m m' : Machine} {iu : Usage 40}
  {k : Nat} {held locked : RegSet} {hole : Option GuestReg} {p : Bank 32 Precision}
  {pd : Bank 32 (Option Precision)} {src : HostReg} {v : BitVec 128}

/-! ## The rounded operand -/

/-- What the code of the rounding leaves of the machine. -/
theorem exec_roundTo25 {dst : HostReg} (hne : dst ≠ src) (hd : dst ≠ vectorScratch)
    (hs : src ≠ vectorScratch) (lanes : Lanes) :
    ∃ m', m.execAll (roundTo25Code dst src lanes) = some m' ∧ SameButV dst m m' ∧
      ∀ i, lanes.Selects i → lane (m'.getV dst) i = Double.roundTo25Bits (lane (m.getV src) i) := by
  have hsum : ∀ i, i < 2 → lane (m.getV src &&& join keepMask keepMask) i +
      lane (m.getV src &&& join Double.roundBit Double.roundBit) i =
        Double.roundTo25Bits (lane (m.getV src) i) := by
    intro i hi
    rw [lane_and, lane_and, lane_spread _ hi, lane_spread _ hi, keep_add_roundBit]
  refine ⟨_, rfl, ?_, ?_⟩
  · exact ((((SameButV.scratch m dst _).trans (.setV _ dst _)).trans (.scratch _ dst _)).trans
      (.scratch _ dst _)).trans (.setV _ dst _)
  · intro i hi
    simp only [Machine.setLanes, Machine.getLane, Machine.getV_setV, if_true, hd, hd.symm, hs,
      hne.symm, if_false]
    rw [lane_onLanes hi]
    exact hsum i hi.lt_two

/-- The rounded operand is in a scratch register. -/
theorem Sim.roundedOperand_spec
    (h : Sim s ⟨iu, .inGuestState, ⟨⟨k + 1, .empty, locked, hole⟩, p, pd⟩⟩ c e m)
    (hsrc : e.HasV m src v) (form : FpForm) : wp (roundedOperand src (formLanes form))
      (fun temp e' m' => ∃ w,
        Sim s ⟨iu, .inGuestState, ⟨⟨k, RegSet.empty.insert temp, locked, hole⟩, p, pd⟩⟩ c e' m' ∧
        Keeps e m e' m' ∧ e'.HasV m' temp w ∧
        ∀ i, formUses form i → lane w i = Double.roundTo25Bits (lane v i)) e m := by
  refine wp_bind h.scratchVector_spec ?_
  rintro temp e₁ m₁ ⟨h₁, hk₁, hheld, hown, hne⟩
  have hsrc₁ := hk₁.hasV hsrc
  have htemp : temp ≠ src := (hne src hsrc.owns).symm
  obtain ⟨m₂, hexec, hsame, hval⟩ := exec_roundTo25 (m := m₁) htemp (h₁.ne_vectorScratch hown)
    (h₁.ne_vectorScratch hsrc₁.owns) (formLanes form)
  have hround : wp (roundTo25 temp src (formLanes form)) (fun _ e₂ m₃ =>
      Sim s ⟨iu, .inGuestState, ⟨⟨k, RegSet.empty.insert temp, locked, hole⟩, p, pd⟩⟩ c e₂ m₃ ∧
      KeepsButV temp e₁ m₁ e₂ m₃ ∧ m₃ = m₂ ∧ e₂.vectors.cache.Owns temp) e₁ m₁ := by
    have hin : (RegSet.empty.insert temp).contains temp = true := RegSet.contains_insert_self _ _
    unfold roundTo25
    rw [if_neg htemp]
    refine wp_mono (h₁.emitAllV (h₁.looseV_held hin) hexec hsame) ?_
    rintro - e₂ m₃ ⟨h₂, hk₂, hm₂⟩
    exact ⟨h₂, hk₂, hm₂, h₂.ownsV_held hin⟩
  refine wp_bind hround ?_
  rintro - e₂ m₃ ⟨h₂, hk₂, rfl, hown₂⟩
  refine wp_pure ⟨_, h₂, hk₁.butV hk₂ hne, ⟨hown₂, rfl⟩, ?_⟩
  intro i hi
  rw [hval i (selects_of_formUses hi), hsrc₁.val]

theorem Sim.releaseHeldVector_spec
    (h : Sim s ⟨iu, .inGuestState, ⟨⟨k, held, locked, hole⟩, p, pd⟩⟩ c e m) {temp : Option HostReg}
    (hheld : held = temp.elim .empty RegSet.empty.insert) :
    wp (releaseHeldVector temp) (fun _ e' m' =>
      Sim s ⟨iu, .inGuestState, ⟨⟨k, .empty, locked, hole⟩, p, pd⟩⟩ c e' m' ∧
      (∀ reg r, e.vectors.cache.Bound reg r → e'.vectors.cache.Bound reg r) ∧ m' = m) e m := by
  subst hheld
  cases temp with
  | none => exact wp_pure ⟨h, fun _ _ hb => hb, rfl⟩
  | some temp =>
    refine wp_mono (h.releaseVector_spec (RegSet.contains_empty _)) ?_
    rintro - e' m' ⟨h', hk, hm⟩
    refine ⟨⟨{ h'.fixed with }, h'.around, h'.ints, h'.vecs.weaken (Nat.le_succ k), h'.ca⟩,
      hk.boundV, hm⟩

/-! ## The instruction -/

/-- The end of the code of a floating-point instruction. -/
def FloatEnds (s : Setting) (p : Bank 32 Precision) (pd : Bank 32 (Option Precision))
    (c : Contents) (e : Emitter) (m : Machine) : Prop :=
  ∃ k kv, Sim s ⟨⟨k, .empty, .empty, none⟩, .inGuestState, ⟨⟨kv, .empty, .empty, none⟩, p, pd⟩⟩ c
    e m

theorem Sim.checkSingle_spec {f : FloatStage} {carry : Carry} (h : Sim s ⟨iu, carry, f⟩ c e m)
    (regs : List GuestReg) (lowerOnly : Bool) {vectors : Vectors}
    (hp : vectors.precision = f.precision) :
    wp (checkSingle (regs.map (·.val)) lowerOnly (vectors.allSingle regs lowerOnly)) (fun _ e' m' =>
      e' = e ∧ m' = m) e m := by
  have hsame : e.vectors.allSingle regs lowerOnly = vectors.allSingle regs lowerOnly := by
    have hprec : e.vectors.precision = f.precision := h.fixed.precision
    simp only [Vectors.allSingle, Vectors.isSingle, hprec, hp]
  refine wp_get ?_
  have hok : e.vectors.checkSingle (regs.map (·.val)) lowerOnly
      (vectors.allSingle regs lowerOnly) = .ok () := by
    simp only [Vectors.checkSingle, Vectors.allNumberedSingle_val, hsame, if_true]
  rw [hok]
  exact wp_pure ⟨rfl, rfl⟩

theorem step_arithInst (m : Machine) (op : FpArith) (lanes : Lanes) (dst a b c : HostReg) :
    m.step (arithInst op lanes dst a b c) = .next (m.setV dst (onLanes lanes (m.getV dst) fun i =>
      arithEval op (lane (m.getV a) i) (lane (m.getV b) i) (lane (m.getV c) i))) := by
  cases op <;> rfl

theorem exec_finishForm (m : Machine) (form : FpForm) (dst : HostReg) :
    ∃ m', m.execAll (finishForm form dst) = some m' ∧ SameButV dst m m' ∧
      m'.getV dst = finishValue form (m.getV dst) := by
  cases form with
  | double => exact ⟨m, rfl, .refl dst m, rfl⟩
  | single =>
    refine ⟨_, rfl, (SameButV.setV m dst _).trans (.setV _ dst _), ?_⟩
    simp only [Machine.setLanes, Machine.getLane, Machine.getV_setV, if_true, onLanes,
      lane_join_zero, FpUnary.eval, finishValue]
  | paired =>
    refine ⟨_, rfl, .setV m dst _, ?_⟩
    simp only [Machine.setLanes, Machine.getLane, Machine.getV_setV, if_true, onLanes,
      FpUnary.eval, finishValue]

theorem Sim.readFprIf_spec
    (h : Sim s ⟨iu, .inGuestState, ⟨⟨k + 1, held, locked, none⟩, p, pd⟩⟩ c e m) (cond : Bool)
    (reg : GuestReg) (other : HostReg) :
    wp (readFprIf cond reg other) (fun r e' m' =>
      Sim s ⟨iu, .inGuestState, ⟨⟨k, held, locked, none⟩, p, pd⟩⟩ c e' m' ∧ Keeps e m e' m' ∧
        (cond = true → e'.HasV m' r (c.ps reg))) e m := by
  unfold readFprIf
  split
  · refine wp_mono (h.readFpr_spec reg) ?_
    rintro r e' m' ⟨h', hk, hv, -⟩
    exact ⟨h', hk, fun _ => hv⟩
  · next hc =>
    refine wp_pure ⟨⟨{ h.fixed with }, h.around, h.ints, h.vecs.weaken (Nat.le_succ k), h.ca⟩,
      .refl e m, fun ht => absurd ht hc⟩

/-- The third operand, rounded if that is needed. -/
theorem Sim.roundedIf_spec
    (h : Sim s ⟨iu, .inGuestState, ⟨⟨k + 1, .empty, locked, hole⟩, p, pd⟩⟩ c e m) (form : FpForm)
    {rounding used : Bool} (hused : rounding = true → used = true)
    (hsrc : used = true → e.HasV m src v) :
    wp (roundedIf rounding src (formLanes form)) (fun temp e' m' =>
        Sim s ⟨iu, .inGuestState, ⟨⟨k, temp.elim .empty RegSet.empty.insert, locked, hole⟩, p, pd⟩⟩
          c e' m' ∧ Keeps e m e' m' ∧
        (used = true → ∃ w, e'.HasV m' (temp.getD src) w ∧ ∀ i, formUses form i →
          lane w i = if rounding then Double.roundTo25Bits (lane v i) else lane v i)) e m := by
  cases rounding with
  | true =>
    refine wp_mono (wp_map some (h.roundedOperand_spec (hsrc (hused rfl)) form)) ?_
    rintro _ e' m' ⟨temp, rfl, w, h', hk, hw, hval⟩
    exact ⟨h', hk, fun _ => ⟨w, hw, hval⟩⟩
  | false =>
    refine wp_pure ⟨⟨{ h.fixed with }, h.around, h.ints, h.vecs.weaken (Nat.le_succ k), h.ca⟩,
      .refl e m, fun hu => ⟨v, hsrc hu, fun _ _ => rfl⟩⟩

/-- The precision that an arithmetic instruction leaves. -/
def arithPrecision (form : FpForm) : Precision := if singleResult form then .bothSingle else .double

/-- The contents after an arithmetic instruction. -/
def Contents.arith (c : Contents) (s : Setting) (p : Bank 32 Precision) (form : FpForm)
    (op : FpArith) : Contents :=
  let value := arithValue form op (roundsThird p s.word form op) (c.ps s.word.rd) (c.ps s.word.ra)
    (c.ps s.word.rb) (c.ps s.word.frc)
  (c.setPs s.word.rd value).classed s (singleResult form) (lane value 0)

theorem Sim.floatArith_spec {carry : Carry} (form : FpForm) (op : FpArith)
    (h : Sim s ⟨s.idle, carry, ⟨⟨5, .empty, .empty, none⟩, p, pd⟩⟩ c e m) :
    wp (floatArith form op) (fun _ =>
      FloatEnds s p (pd.set s.word.rd (some (arithPrecision form))) (c.arith s p form op)) e m := by
  refine wp_bind h.flushCarry_spec ?_
  rintro - e₀ m₀ ⟨h₀, -⟩
  refine wp_get ?_
  have hprec : e₀.vectors.precision = p := h₀.fixed.precision
  have hround :
      (op.usesC && singleResult form && !e₀.vectors.isSingle e₀.word.frc (lowerOnly form)) =
        roundsThird p s.word form op := by
    rw [h₀.fixed.word, Vectors.isSingle, hprec]
    rfl
  dsimp only
  rw [hround, h₀.fixed.word]
  generalize hvec : e₀.vectors = vectors at hprec
  refine wp_bind (h₀.readFpr_spec s.word.ra) ?_
  rintro a e₁ m₁ ⟨h₁, -, ha₁, -⟩
  refine wp_bind (h₁.readFprIf_spec op.usesB s.word.rb a) ?_
  rintro b e₂ m₂ ⟨h₂, hk₂, hb₂⟩
  have ha₂ := hk₂.hasV ha₁
  refine wp_bind (h₂.readFprIf_spec op.usesC s.word.frc a) ?_
  rintro r e₃ m₃ ⟨h₃, hk₃, hc₃⟩
  have ha₃ := hk₃.hasV ha₂
  have hb₃ := fun hu => hk₃.hasV (hb₂ hu)
  have hused : roundsThird p s.word form op = true → op.usesC = true := by
    intro hr
    simp only [roundsThird, Bool.and_eq_true] at hr
    exact hr.1.1
  refine wp_bind (h₃.roundedIf_spec form hused hc₃) ?_
  rintro temp e₄ m₄ ⟨h₄, hk₄, hc₄⟩
  have ha₄ := hk₄.hasV ha₃
  have hb₄ := fun hu => hk₄.hasV (hb₃ hu)
  refine wp_bind (h₄.writeFpr_spec s.word.rd (form = .double) (arithPrecision form)) ?_
  rintro dst e₅ m₅ ⟨h₅, hk₅, hd₅, hkeep⟩
  have ha₅ := hk₅.hasV ha₄
  have hb₅ := fun hu => hk₅.hasV (hb₄ hu)
  refine wp_bind (h₅.emitV (h₅.looseV_bound hd₅ rfl) (step_arithInst m₅ op _ dst a b _)
    (.setV m₅ dst _)) ?_
  rintro - e₆ m₆ ⟨h₆, hk₆, rfl⟩
  have hd₆ := hk₆.boundV _ _ hd₅
  refine wp_bind (h₆.releaseHeldVector_spec rfl) ?_
  rintro - e₇ m₇ ⟨h₇, hk₇, rfl⟩
  have hd₇ := hk₇ _ _ hd₆
  obtain ⟨m₈, hexec, hsame, hval⟩ := exec_finishForm (m₅.setV dst (onLanes (formLanes form)
    (m₅.getV dst) fun i => arithEval op (lane (m₅.getV a) i) (lane (m₅.getV b) i)
      (lane (m₅.getV (temp.getD r)) i))) form dst
  have hvalue : m₈.getV dst = arithValue form op (roundsThird p s.word form op)
      (c.ps s.word.rd) (c.ps s.word.ra) (c.ps s.word.rb) (c.ps s.word.frc) := by
    rw [hval, Machine.getV_setV, if_pos rfl]
    refine finishValue_congr (fun hform => hkeep (by simp [hform])) ?_
    intro i hi
    rw [ha₅.val]
    refine arithEval_congr op (fun hu => by rw [(hb₅ hu).val]) ?_
    intro hu
    obtain ⟨w, hw, hlane⟩ := hc₄ hu
    rw [(hk₅.hasV hw).val, hlane i hi]
  refine wp_bind (h₇.emitAllPs hd₇ hexec hsame hvalue) ?_
  rintro - e₈ m₈' ⟨h₈, -, hd₈, hv₈⟩
  have hcheck := h₈.checkSingle_spec (arithInputs s.word op) (lowerOnly form) hprec
  refine wp_bind hcheck ?_
  rintro - e₉ m₉ ⟨rfl, rfl⟩
  refine wp_mono (h₈.updateClass_spec dst (singleResult form)) ?_
  rintro - e₁₀ m₁₀ h₁₀
  rw [hv₈] at h₁₀
  exact ⟨_, _, h₁₀⟩

end Emit

end Recompiler
