import Recompiler.Proofs.CompilationTotal

/-!
# The carry in the host flag

Between two instructions the carry may wait in the carry flag of the host. An instruction that does
not write the carry then leaves the flags alone, or first stores the flag as the carry byte. Without
lazy carries it never waits there.
-/

namespace Recompiler

open Alloc Arm Block Emit Lower PowerPC

namespace Emit

/-- Instructions that leave the flags as they are, no calls, and the carry stays where it is. -/
def Silent : Permits := ⟨fun _ i => i.writesFlags = false, False, False⟩

instance : AllowsSilent Silent where
  silent h := by
    have hflags := (Bool.and_eq_true_iff.1 h).2
    rwa [Bool.not_eq_true'] at hflags
  integer {layout i} h := by
    cases h with
    | load | store => rfl
    | constant slot reg value =>
      unfold Silent Access.integer IntSlot.constant
      dsimp only
      split <;> rfl
  vector {layout i} h := by
    cases h <;> rfl

/-- Any code, as long as the carry stays where it is. -/
def CarryKept : Permits := ⟨fun _ _ => True, True, False⟩

instance : Allows CarryKept where
  computes _ := trivial
  integer _ := trivial
  vector _ := trivial
  status := trivial
  calls := trivial

variable {α β : Type} {P : Permits} {e e' e₁ : Emitter}

theorem Emitter.Moves.carry_eq (h : e.Moves P e') (hP : ¬P.carry) : e'.carry = e.carry := by
  induction h with
  | refl => rfl
  | tail _ hmove ih =>
    cases hmove with
    | carry carry hc => exact absurd hc hP
    | _ => exact ih

theorem Emitter.Moves.config_eq (h : e.Moves P e') : e'.config = e.config := by
  induction h with
  | refl => rfl
  | tail _ hmove ih => cases hmove <;> exact ih

theorem writesFlags_of_isBranch {i : Inst} (h : i.isBranch = true) : i.writesFlags = false := by
  cases i <;> first | rfl | cases h

/-- Silent moves add no instruction that writes the flags. -/
theorem Emitter.Moves.writesFlags (h : e.Moves Silent e') (region : Region) :
    ∃ added, (e'.code.code region).toList = (e.code.code region).toList ++ added ∧
      ∀ i ∈ added, i.writesFlags = false := by
  obtain ⟨added, hcode, hin⟩ := h.added region
  refine ⟨added, hcode, fun i hi => ?_⟩
  rcases hin i hi with hsilent | hbranch | ⟨hcalls, -⟩
  · exact hsilent
  · exact writesFlags_of_isBranch hbranch
  · exact hcalls.elim

/-! ## Steps that mind the carry -/

/-- The step touches neither the carry nor the flags, or it puts the carry away first. -/
structure Minds (prog : EmitM Unit) : Prop where
  moves : ∀ {e e'}, prog.run.run e = (.ok (), e') → e.Moves Silent e' ∨
    ∃ e₁, flushCarry.run.run e = (.ok (), e₁) ∧ e₁.Moves CarryKept e'

namespace Minds

variable {prog a b : EmitM Unit}

theorem of_emits (h : Emits Silent prog) : Minds prog := ⟨fun hrun => .inl (h.moves hrun)⟩

theorem of_flushes (h : Emits.Flushes CarryKept prog) : Minds prog where
  moves hrun := by
    obtain ⟨rest, rfl, hrest⟩ := h
    obtain ⟨⟨⟩, e₁, hflush, hafter⟩ := run_bind_eq_ok hrun
    exact .inr ⟨e₁, hflush, hrest.moves hafter⟩

/-- Looking at the emitter first changes nothing. -/
theorem look {f : Emitter → α} {rest : α → EmitM Unit} (h : ∀ a, Minds (rest a)) :
    Minds ((do return f (← get)) >>= rest) where
  moves {e _} hrun := (h (f e)).moves hrun

theorem ite {c : Prop} [Decidable c] (ha : Minds a) (hb : Minds b) :
    Minds (if c then a else b) := by
  split
  · exact ha
  · exact hb

theorem divideChecked {dst a b : GuestReg} : Minds (divideChecked dst a b) :=
  of_flushes ⟨_, rfl, .bind .readGpr fun _ => .bind .readGpr fun _ => .bind .scratch fun _ =>
    .bind .writeGpr fun _ => .bind .newLabel fun _ => .bind .newLabel fun _ =>
    .bind .newLabel fun _ => .bind (.branchTo rfl) fun _ => .bind (.emit rfl) fun _ =>
    .bind (.emit rfl) fun _ => .bind (.branchTo rfl) fun _ => .bind (.emit rfl) fun _ =>
    .bind (.branchTo rfl) fun _ => .bind .placeLabel fun _ => .bind (.emit rfl) fun _ =>
    .bind (.branchTo rfl) fun _ => .bind .placeLabel fun _ => .bind (.emit rfl) fun _ =>
    .bind .placeLabel fun _ => .bind .release fun _ => .record⟩

theorem divideByConstant {dst a b : GuestReg} {divisor : BitVec 32} :
    Minds (divideByConstant dst a b divisor) :=
  ite (of_emits (.bind .readGpr fun _ => .bind .writeGpr fun _ => .bind (.silent rfl) fun _ =>
      .record))
    (ite divideChecked (of_emits (.bind .readGpr fun _ => .bind .scratchConstant fun _ =>
      .bind .writeGpr fun _ => .bind (.silent rfl) fun _ => .bind .release fun _ => .record)))

theorem divw : Minds divw := by
  refine look fun _ => look fun _ => look fun _ => ?_
  split
  · exact of_emits .fold
  · exact divideByConstant
  · exact divideChecked

/-- Of the instructions that do not write the carry only divisions check with the flags. -/
theorem lowerInteger : ∀ {op : IntOp}, op.writesCa = false → Minds (lowerInteger op)
  | .addImm _, _ => of_emits .addImm
  | .mulli, _ => of_emits .mulli
  | .logicImm _ _, _ => of_emits .logicImm
  | .compare _ _, _ => of_emits .integerCompare
  | .rlwimi, _ => of_emits .rlwimi
  | .rlwinm, _ => of_emits .rlwinm
  | .rlwnm, _ => of_emits .rlwnm
  | .shift _, _ => of_emits .shift
  | .bool _, _ => of_emits .bool
  | .unary _, _ => of_emits .unary
  | .add, _ => of_emits .add
  | .subf, _ => of_emits .subf
  | .neg, _ => of_emits .neg
  | .mul _, _ => of_emits .mul
  | .divw, _ => divw
  | .divwu, _ => of_emits .divwu

/-- Floating-point code puts the carry away before anything else. -/
theorem lower : ∀ {op : Op}, op.writesCa = false → Minds (lower op)
  | .int _, h => lowerInteger h
  | .float _, _ => of_flushes Emits.lowerFloat

end Minds

/-! ## Steps that settle the carry -/

/-- Without lazy carries the step does not leave the carry in the host flag. -/
structure Settles (prog : EmitM α) : Prop where
  carry : ∀ {e a e'}, prog.run.run e = (.ok a, e') → e.config.lazyCarry = false →
    e'.carry ≠ .inHostCarry

namespace Settles

/-- The end of a program decides. -/
theorem bind {prog : EmitM α} {f : α → EmitM β} (h : Emits Plain prog)
    (hf : ∀ a, Settles (f a)) : Settles (prog >>= f) where
  carry hrun hlazy := by
    obtain ⟨a, e₁, hprog, hrest⟩ := run_bind_eq_ok hrun
    refine (hf a).carry hrest ?_
    rw [(h.moves hprog).config_eq]
    exact hlazy

/-- Steps that do not move the carry may follow. -/
theorem before {prog : EmitM α} {f : α → EmitM β} (h : Settles prog)
    (hf : ∀ a, Emits CarryKept (f a)) : Settles (prog >>= f) where
  carry hrun hlazy := by
    obtain ⟨a, e₁, hprog, hrest⟩ := run_bind_eq_ok hrun
    rw [((hf a).moves hrest).carry_eq id]
    exact h.carry hprog hlazy

theorem ite {c : Prop} [Decidable c] {a b : EmitM α} (ha : Settles a) (hb : Settles b) :
    Settles (if c then a else b) := by
  split
  · exact ha
  · exact hb

/-- Branches that go on in the same way. -/
theorem join {γ : Type} {f : α → EmitM β} {body : (α → EmitM β) → EmitM γ} (hf : ∀ a, Settles (f a))
    (h : ∀ rest, (∀ a, Settles (rest a)) → Settles (body rest)) :
    Settles (have rest := f; body rest) := h f hf

theorem setCarry {carry : Carry} (h : carry ≠ .inHostCarry) : Settles (setCarry carry) where
  carry hrun _ := by
    cases hrun
    exact h

theorem dropCarry : Settles dropCarry := setCarry nofun

theorem carryConstant {value : Bool} : Settles (carryConstant value) := by
  refine bind .get fun _ => ite (setCarry ?_) (setCarry nofun)
  cases value <;> nofun

theorem flushCarry : Settles flushCarry where
  carry {e a e'} hrun _ := by
    unfold Emit.flushCarry at hrun
    rw [run_get_bind] at hrun
    cases hcarry : e.carry with
    | inGuestState =>
      rw [hcarry] at hrun
      cases hrun
      rw [hcarry]
      nofun
    | inHostCarry | constantTrue | constantFalse =>
      rw [hcarry] at hrun
      cases hrun
      nofun

theorem carryFromFlags : Settles carryFromFlags where
  carry {e a e'} hrun hlazy := by
    unfold Emit.carryFromFlags at hrun
    rw [run_get_bind, hlazy, Bool.false_and] at hrun
    split at hrun
    · obtain ⟨⟨⟩, e₁, hset, hflush⟩ := run_bind_eq_ok hrun
      cases hset
      exact flushCarry.carry hflush hlazy
    · exact dropCarry.carry hrun hlazy

theorem carryFromReg {reg : HostReg} : Settles (carryFromReg reg) where
  carry {e a e'} hrun hlazy := by
    unfold Emit.carryFromReg at hrun
    rw [run_get_bind, hlazy, Bool.false_and] at hrun
    split at hrun
    · obtain ⟨⟨⟩, e₁, hstore, hset⟩ := run_bind_eq_ok hrun
      cases hset
      nofun
    · exact dropCarry.carry hrun hlazy

theorem addConstantCarrying {dst src : HostReg} {value : BitVec 32} :
    Settles (addConstantCarrying dst src value) :=
  bind .wantsCa fun
    | true => bind (.emit rfl) fun _ => carryFromFlags
    | false => bind (.emit rfl) fun _ => carryFromFlags

/-! ### Carrying sums -/

theorem addc : Settles addc := by
  refine bind .currentWord fun _ => bind .source fun _ => bind .source fun _ => ?_
  split
  · exact bind .fold fun _ => carryConstant
  · exact bind .writeGpr fun _ => addConstantCarrying.before fun _ => .record
  · exact bind .writeGpr fun _ => addConstantCarrying.before fun _ => .record
  · exact bind .writeGpr fun _ => bind .emitAdd fun _ => carryFromFlags.before fun _ => .record

theorem addCarryingImm {recording : Bool} : Settles (addCarryingImm recording) :=
  bind .currentWord fun _ => bind .gprConstant? fun
    | some _ => bind .foldGpr fun _ => carryConstant.before fun _ =>
        .ite (fun _ => .recordConstant) fun _ => .pure ()
    | none => bind .readGpr fun _ => bind .writeGpr fun _ => addConstantCarrying.before fun _ =>
        .ite (fun _ => .recordReg) fun _ => .pure ()

theorem subfc : Settles subfc := by
  refine bind .currentWord fun _ => bind .gprConstant? fun _ => bind .gprConstant? fun _ => ?_
  split
  · exact bind .fold fun _ => carryConstant
  · exact bind .readGpr fun _ => bind .readGpr fun _ => bind .writeGpr fun _ =>
      bind .emitSub fun _ => carryFromFlags.before fun _ => .record

theorem subfic : Settles subfic :=
  bind .currentWord fun _ => bind .gprConstant? fun
    | some _ => bind .foldGpr fun _ => carryConstant
    | none => bind .readGpr fun _ => ite
        (bind .writeGpr fun _ => bind (.emit rfl) fun _ => carryConstant)
        (ite
          (bind .writeGpr fun _ => bind .wantsCa fun
            | true => bind (.emit rfl) fun _ => carryFromFlags
            | false => bind (.emit rfl) fun _ => carryFromFlags)
          (bind .scratchConstant fun _ => bind .writeGpr fun _ => bind .emitSub fun _ =>
            bind .release fun _ => carryFromFlags))

/-- A carry that comes through a constant sum is where the incoming carry was. -/
theorem carryOfConstantSum {sum : BitVec 64} : Settles (carryOfConstantSum sum) := by
  refine ite carryConstant (ite carryConstant ⟨?_⟩)
  intro e a e' hrun hlazy
  rw [run_get_bind] at hrun
  split at hrun
  · exact carryFromFlags.carry hrun hlazy
  · next hcarry =>
    cases hrun
    exact hcarry

theorem addCarryToConstants {dst : GuestReg} {x y : BitVec 32} :
    Settles (addCarryToConstants dst x y) := by
  refine bind .get fun _ => ?_
  dsimp only
  split
  · exact bind .foldGpr fun _ => carryConstant.before fun _ => .pure _
  · exact ite
      (bind .writeGpr fun _ => bind (.emit rfl) fun _ => bind (.emit rfl) fun _ =>
        carryOfConstantSum.before fun _ => .pure _)
      (bind .scratchCarry fun _ => bind .writeGpr fun _ => bind .emitAddConstant fun _ =>
        bind .release fun _ => carryOfConstantSum.before fun _ => .pure _)

theorem addFlagToRegConstant {dst : GuestReg} {r : HostReg} {imm : BitVec 32} :
    Settles (addFlagToRegConstant dst r imm) := by
  have hrest : ∀ temp : Option HostReg, Settles (do
      let rd ← Emit.writeGpr dst false
      Lower.emitAdc rd r (temp.getD zeroReg)
      Lower.releaseHeld temp
      Emit.carryFromFlags
      return Source.reg rd) := fun _ => bind .writeGpr fun _ => bind .emitAdc fun _ =>
    bind .releaseHeld fun _ => carryFromFlags.before fun _ => .pure _
  exact ite (bind (.pure _) hrest) (bind (Emits.scratchConstant.map _) hrest)

theorem addCarryToRegConstant {dst : GuestReg} {r : HostReg} {imm : BitVec 32} :
    Settles (addCarryToRegConstant dst r imm) := by
  have hconstant : ∀ {rd : HostReg} {value : Bool}, Settles (do
      Lower.emitMove rd r
      Emit.carryConstant value
      return Source.reg rd) :=
    bind .emitMove fun _ => carryConstant.before fun _ => .pure _
  refine bind .get fun _ => ?_
  split
  · exact bind .writeGpr fun _ => ite hconstant (addConstantCarrying.before fun _ => .pure _)
  · exact bind .writeGpr fun _ => ite hconstant (addConstantCarrying.before fun _ => .pure _)
  · exact ite
      (bind .scratchCarry fun _ => bind .writeGpr fun _ => bind .emitAdd fun _ =>
        bind .release fun _ => carryFromFlags.before fun _ => .pure _)
      (bind .loadCarryIntoFlags fun _ => addFlagToRegConstant)
  · exact addFlagToRegConstant

theorem addCarryToRegs {dst : GuestReg} {x y : HostReg} : Settles (addCarryToRegs dst x y) :=
  bind .get fun _ => ite
    (bind .writeGpr fun _ => bind .emitAdd fun _ => carryFromFlags.before fun _ => .pure _)
    (bind .carryIntoFlags fun _ => bind .writeGpr fun _ => bind .emitAdc fun _ =>
      carryFromFlags.before fun _ => .pure _)

theorem onSource {sum : EmitM Source} {finish : Source → EmitM Unit} (hsum : Settles sum)
    (hconstant : ∀ value, Emits CarryKept (finish (.constant value)))
    (hreg : ∀ reg, Emits CarryKept (finish (.reg reg))) : Settles (sum >>= finish) := by
  refine hsum.before fun result => ?_
  cases result with
  | constant value => exact hconstant value
  | reg reg => exact hreg reg

theorem addExtended {inverted second : Bool} : Settles (addExtended inverted second) := by
  have hfolded : ∀ {temp : Option HostReg} (value : BitVec 32), Emits CarryKept (do
      Lower.releaseHeld temp
      Lower.recordFolded value) := fun _ => .bind .releaseHeld fun _ => .recordFolded
  have hrecord : ∀ {temp : Option HostReg} (reg : HostReg), Emits CarryKept (do
      Lower.releaseHeld temp
      Lower.record reg) := fun _ => .bind .releaseHeld fun _ => .record
  refine bind .currentWord fun _ => bind .source fun _ => join ?_
    fun _ hrest => ite (bind .complement hrest) (bind (.pure _) hrest)
  rintro ⟨x, temp⟩
  refine join (fun y => ?_) fun _ hrest => ite (bind .source hrest) (bind (.pure _) hrest)
  dsimp only
  split
  · exact onSource addCarryToConstants hfolded hrecord
  · exact onSource addCarryToRegConstant hfolded hrecord
  · exact onSource addCarryToRegConstant hfolded hrecord
  · exact onSource addCarryToRegs hfolded hrecord

/-! ### Algebraic shifts -/

theorem carryFromCommonBits {temp a b : HostReg} : Settles (carryFromCommonBits temp a b) :=
  bind (.emit rfl) fun _ => bind (.emit rfl) fun _ => carryFromReg.before fun _ => .release

theorem shiftAlgebraicBy {dst src : GuestReg} {n : Nat} : Settles (shiftAlgebraicBy dst src n) :=
  bind .gprConstant? fun
    | some _ => bind .fold fun _ => carryConstant
    | none => ite (bind .moveGpr fun _ => carryConstant) (bind .readGpr fun _ =>
        bind .wantsCa fun _ => ite
          (bind .scratch fun _ => bind (.emit rfl) fun _ => bind .writeGpr fun _ =>
            bind (.emit rfl) fun _ => carryFromCommonBits.before fun _ => .record)
          (bind .writeGpr fun _ => bind (.emit rfl) fun _ => dropCarry.before fun _ => .record))

theorem shiftAlgebraicOut {dst src : GuestReg} : Settles (shiftAlgebraicOut dst src) :=
  bind .readGpr fun _ => bind .wantsCa fun _ => ite
    (bind .scratch fun _ => bind (.emit rfl) fun _ => bind .writeGpr fun _ =>
      bind (.emit rfl) fun _ => carryFromReg.before fun _ => .bind .release fun _ => .record)
    (bind .writeGpr fun _ => bind (.emit rfl) fun _ => dropCarry.before fun _ => .record)

theorem shiftAlgebraicByReg {dst s b : GuestReg} : Settles (shiftAlgebraicByReg dst s b) :=
  bind .readGpr fun _ => bind .readGpr fun _ => bind .scratch fun _ => bind (.emit rfl) fun _ =>
    bind (.emit rfl) fun _ => bind .writeGpr fun _ => bind (.emit rfl) fun _ =>
      bind .wantsCa fun _ => ite (carryFromCommonBits.before fun _ => .record)
        (dropCarry.before fun _ => .bind .release fun _ => .record)

theorem srawi : Settles srawi := bind .currentWord fun _ => shiftAlgebraicBy

theorem sraw : Settles sraw := by
  refine bind .currentWord fun _ => bind .gprConstant? fun _ => bind .gprConstant? fun _ => ?_
  split
  · exact bind .fold fun _ => carryConstant
  · exact ite shiftAlgebraicOut shiftAlgebraicBy
  · exact shiftAlgebraicByReg

/-- Whatever writes the carry settles it. -/
theorem lower : ∀ {op : Op}, op.writesCa = true → Settles (lower op)
  | .int (.addCarryingImm _), _ => addCarryingImm
  | .int .subfic, _ => subfic
  | .int .sraw, _ => sraw
  | .int .srawi, _ => srawi
  | .int .addc, _ => addc
  | .int (.addExtended _ _), _ => addExtended
  | .int .subfc, _ => subfc

end Settles

/-! ## The code of words -/

/-- Between two emitters no code was added that writes the flags, and the carry is still in the host
flag. -/
def Emitter.HoldsCarry (e e' : Emitter) : Prop :=
  e'.carry = .inHostCarry ∧ ∀ region, ∃ added,
    (e'.code.code region).toList = (e.code.code region).toList ++ added ∧
      ∀ i ∈ added, i.writesFlags = false

/-- Between two emitters the host flag was stored as the carry byte, before any other code, and the
carry is now there. -/
def Emitter.StoresCarry (e e' : Emitter) : Prop :=
  e'.carry = .inGuestState ∧ ∃ added, e'.code.near.toList = e.code.near.toList ++
    .cset32 flushReg .cs :: .store .byte flushReg stateReg e.layout.xerCa :: added

theorem Emitter.Moves.holdsCarry (h : e.Moves Silent e') (hcarry : e.carry = .inHostCarry) :
    e.HoldsCarry e' := ⟨(h.carry_eq id).trans hcarry, h.writesFlags⟩

theorem Emitter.HoldsCarry.trans (h : e.HoldsCarry e₁) (h' : e₁.HoldsCarry e') :
    e.HoldsCarry e' := by
  refine ⟨h'.1, fun region => ?_⟩
  obtain ⟨left, hleft, hin⟩ := h.2 region
  obtain ⟨right, hright, hin'⟩ := h'.2 region
  refine ⟨left ++ right, by rw [hright, hleft, List.append_assoc], fun i hi => ?_⟩
  exact (List.mem_append.1 hi).elim (hin i) (hin' i)

theorem Emitter.storesCarry_flushCarry (hcarry : e.carry = .inHostCarry)
    (hregion : e.code.region = .near) (hflush : flushCarry.run.run e = (.ok (), e₁)) :
    e.StoresCarry e₁ := by
  unfold flushCarry at hflush
  rw [run_get_bind, hcarry] at hflush
  cases hflush
  have hnear : ∀ b : CodeBuffer, b.region = .near → ∀ i j : Inst,
      ((b.emit i).emit j).near.toList = b.near.toList ++ [i, j] := by
    intro b hb i j
    rw [b.emit_near i hb, CodeBuffer.emit_near { b with near := b.near.push i } j hb,
      Array.toList_push, Array.toList_push, List.append_assoc]
    rfl
  exact ⟨rfl, [], hnear e.code hregion _ _⟩

/-- Whatever follows the store, as long as the carry is not moved. -/
theorem Emitter.Moves.storesCarry (h : e₁.Moves CarryKept e') (hstored : e.StoresCarry e₁) :
    e.StoresCarry e' := by
  obtain ⟨hcarry, left, hleft⟩ := hstored
  obtain ⟨right, hright, -⟩ := h.added .near
  refine ⟨(h.carry_eq id).trans hcarry, left ++ right, ?_⟩
  calc e'.code.near.toList
      = e₁.code.near.toList ++ right := hright
    _ = _ := by
        rw [hleft, List.append_assoc]
        rfl

section Words

variable {word : Word} {hints : Hints} {next : Option NextInstruction} {s : Setting} {carry : Carry}
  {p : Bank 32 Precision} {c : Contents} {m m₁ : Machine}

theorem carry_of_lowered {op : Op} (hlow : e.config.lowers word = some op)
    (hwrites : op.writesCa = false) (hcarry : e.carry = .inHostCarry)
    (hregion : e.code.region = .near)
    (hrun : (emitWord word hints next).run.run e = (.ok (), e')) :
    e.HoldsCarry e' ∨ e.StoresCarry e' := by
  obtain ⟨e₁, hlower, hend⟩ := (emitWord_of_lowered hlow).1 hrun
  rcases (Minds.lower hwrites).moves hlower with hsilent | ⟨e₀, hflush, hkept⟩
  · have hheld : e.HoldsCarry e₁ := hsilent.holdsCarry hcarry
    have hended : e₁.HoldsCarry e' := (Emits.endInstruction.moves hend).holdsCarry hheld.1
    exact .inl (hheld.trans hended)
  · have hstored : e.StoresCarry e₀ :=
      Emitter.storesCarry_flushCarry (e := e.reading word hints next) hcarry hregion hflush
    have hended : Emitter.Moves CarryKept _ e' := Emits.endInstruction.moves hend
    exact .inr (hended.storesCarry (hkept.storesCarry hstored))

/-- A word that is left to the interpreter needs the carry in memory. -/
theorem Defers.storesCarry (h : Defers s word hints next c e m e₁ m₁)
    (hcarry : e.carry = .inHostCarry) (hregion : e.code.region = .near) : e.StoresCarry e₁ := by
  have hslots : Emits CarryKept (do
      flushIntegers
      flushVectors) := .bind .flushIntegers fun _ => .flushVectors
  obtain ⟨⟨⟩, e₀, hflush, hrest⟩ := run_bind_eq_ok h.flushed
  have hstored : e.StoresCarry e₀ :=
    Emitter.storesCarry_flushCarry (e := e.reading word hints next) hcarry hregion hflush
  exact (hslots.moves hrest).storesCarry hstored

/-- The code of a word that does not write the carry, when the carry is in the host flag. -/
theorem Boundary.carry_emitWord (h : Boundary s carry p c e m) (hcarry : e.carry = .inHostCarry)
    (hwrites : ∀ op, Op.decode word = some op → op.writesCa = false) (hints : Hints)
    (next : Option NextInstruction) : ∃ e', (emitWord word hints next).run.run e = (.ok (), e') ∧
      (e.HoldsCarry e' ∨ e.StoresCarry e') := by
  have hregion : e.code.region = .near := h.fixed.code.region
  have hconfig : e.config = s.config := h.fixed.config
  cases hlow : s.config.lowers word with
  | some op =>
    obtain ⟨⟨⟩, e', m', hrun, -⟩ := h.lowered_spec hlow hints next
    have hop := hwrites op (Config.lowers_eq_some hlow).1
    rw [← hconfig] at hlow
    exact ⟨e', hrun, carry_of_lowered hlow hop hcarry hregion hrun⟩
  | none =>
    obtain ⟨e₁, m₁, hd⟩ := h.defers word hints next
    obtain ⟨e', hrun, hcode, hresume⟩ := hd.resume hlow
    have hcall : e₁.Moves CarryKept { e₁ with code := e₁.code.emit (.interpret word) } :=
      .single (.emit _ trivial)
    obtain ⟨-, hstored⟩ := hcall.storesCarry (hd.storesCarry hcarry hregion)
    rw [← hcode] at hstored
    exact ⟨e', hrun, .inr ⟨(hresume m₁ hd.hosts).fixed.carry, hstored⟩⟩

/-! ## Without lazy carries -/

theorem settled_of_lowered {op : Op} (hlow : e.config.lowers word = some op)
    (hlazy : e.config.lazyCarry = false) (hcarry : e.carry ≠ .inHostCarry)
    (hrun : (emitWord word hints next).run.run e = (.ok (), e')) : e'.carry ≠ .inHostCarry := by
  obtain ⟨e₁, hlower, hend⟩ := (emitWord_of_lowered hlow).1 hrun
  have hended : Emitter.Moves CarryKept _ e' := Emits.endInstruction.moves hend
  have hsame : e'.carry = e₁.carry := hended.carry_eq id
  have hreading : (e.reading word hints next).config.lazyCarry = false := hlazy
  rw [hsame]
  cases hwrites : op.writesCa with
  | true => exact (Settles.lower hwrites).carry hlower hreading
  | false =>
    rcases (Minds.lower hwrites).moves hlower with hsilent | ⟨e₀, hflush, hkept⟩
    · rw [hsilent.carry_eq id]
      exact hcarry
    · rw [hkept.carry_eq id]
      exact Settles.flushCarry.carry hflush hreading

theorem Boundary.settled_emitWord (h : Boundary s carry p c e m)
    (hlazy : s.config.lazyCarry = false) (hcarry : e.carry ≠ .inHostCarry)
    (hrun : (emitWord word hints next).run.run e = (.ok (), e')) : e'.carry ≠ .inHostCarry := by
  have hconfig : e.config = s.config := h.fixed.config
  cases hlow : s.config.lowers word with
  | some op =>
    rw [← hconfig] at hlow hlazy
    exact settled_of_lowered hlow hlazy hcarry hrun
  | none =>
    obtain ⟨e₁, m₁, hd⟩ := h.defers word hints next
    have hguest : e'.carry = .inGuestState := (hd.boundary_of_run hlow hrun).fixed.carry
    rw [hguest]
    nofun

theorem Boundary.settled_emitWords (hlazy : s.config.lazyCarry = false)
    (next pairs : List (Word × Hints)) (h : Boundary s carry p c e m)
    (hcarry : e.carry ≠ .inHostCarry) :
    ∃ e', (emitWords next pairs).run.run e = (.ok (), e') ∧ e'.carry ≠ .inHostCarry := by
  obtain ⟨e', hrun, -, hcarry', -⟩ := Boundary.emits_keeping
    (I := fun _ e => e.carry ≠ .inHostCarry)
    (fun h hcarry hrun => h.settled_emitWord hlazy hcarry hrun) next pairs [] h hcarry
  exact ⟨e', hrun, hcarry'⟩

end Words

end Emit

/-! ## Compilation -/

namespace Block

variable {config : Config} {layout : Layout} {compiler : Compiler}

/-- Words can be compiled one after the other, with any hints and whatever follows them. When the
carry then is in the host flag, the code of a word that does not write the carry leaves the flags
alone, or starts with storing the flag. Without lazy carries the carry is never in the host flag
between two words. -/
theorem held_carry_is_never_clobbered (hnew : Compiler.new config layout = .ok compiler)
    (before after : List (Word × Hints)) :
    ∃ e, (emitWords after before).run.run (.new config layout) = (.ok (), e) ∧
      (e.carry = .inHostCarry → ∀ word hints next,
        (∀ op, Op.decode word = some op → op.writesCa = false) →
          ∃ e', (emitWord word hints next).run.run e = (.ok (), e') ∧
            (e.HoldsCarry e' ∨ e.StoresCarry e')) ∧
      (config.lazyCarry = false → e.carry ≠ .inHostCarry) := by
  obtain ⟨haccepted, rfl⟩ := Compiler.new_eq_ok hnew
  let s : Setting := ⟨config, layout, haccepted, 0, {}, none, false, ⟨config.fprf⟩⟩
  have hstart := Boundary.start (hosts_zeros s)
  obtain ⟨e, hrun, -, carry, p, c, m, h⟩ := hstart.emits after before
  refine ⟨e, hrun, fun hcarry word hints next hwrites => ?_, fun hlazy => ?_⟩
  · exact h.carry_emitWord hcarry hwrites hints next
  · have hlazy' : s.config.lazyCarry = false := hlazy
    obtain ⟨e₁, hrun₁, hcarry₁⟩ := Boundary.settled_emitWords hlazy' after before hstart nofun
    rw [hrun] at hrun₁
    cases hrun₁
    exact hcarry₁

/-- Behind `addc` the carry waits in the host flag while `add` is compiled, and is stored when
`divw` is. -/
theorem carry_waits_behind_sum : ∃ e,
    (emitWords [(0x7CC74214, {})] [(0x7C642814, {})]).run.run (.new {} .standard) = (.ok (), e) ∧
    e.carry = .inHostCarry ∧
    (∃ e', (emitWord 0x7CC74214 {} none).run.run e = (.ok (), e') ∧ e.HoldsCarry e') ∧
    ∃ e', (emitWord 0x7CC743D6 {} none).run.run e = (.ok (), e') ∧ e.StoresCarry e' := by
  have hnew : Compiler.new {} .standard = .ok ⟨{}, .standard⟩ := rfl
  let start := (emitWords [(0x7CC74214, {})] [(0x7C642814, {})]).run.run (.new {} .standard)
  have hcarry : start.2.carry = .inHostCarry := by decide +kernel
  have hwaits : ((emitWord 0x7CC74214 {} none).run.run start.2).2.carry = .inHostCarry := by
    decide +kernel
  have hstored : ((emitWord 0x7CC743D6 {} none).run.run start.2).2.carry = .inGuestState := by
    decide +kernel
  have hadd : ∀ op, Op.decode 0x7CC74214 = some op → op.writesCa = false := by
    intro op hop
    cases hop
    rfl
  have hdiv : ∀ op, Op.decode 0x7CC743D6 = some op → op.writesCa = false := by
    intro op hop
    cases hop
    rfl
  obtain ⟨e, hrun, hheld, -⟩ :=
    held_carry_is_never_clobbered hnew [(0x7C642814, {})] [(0x7CC74214, {})]
  have hstart : start = (.ok (), e) := hrun
  rw [hstart] at hcarry hwaits hstored
  obtain ⟨e₁, hrun₁, hends₁⟩ := hheld hcarry 0x7CC74214 {} none hadd
  obtain ⟨e₂, hrun₂, hends₂⟩ := hheld hcarry 0x7CC743D6 {} none hdiv
  -- where the carry is at the end tells the two cases apart
  refine ⟨e, hrun, hcarry, ⟨e₁, hrun₁, hends₁.resolve_right ?_⟩, e₂, hrun₂, hends₂.resolve_left ?_⟩
  · rintro ⟨hguest, -⟩
    rw [hrun₁] at hwaits
    exact absurd (hwaits.symm.trans hguest) nofun
  · rintro ⟨hhost, -⟩
    rw [hrun₂] at hstored
    exact absurd (hstored.symm.trans hhost) nofun

end Block

end Recompiler
