import Recompiler.Proofs.QuietCode

/-!
# What host instructions touch

The predicates on host instructions say which parts of the machine an instruction may write: the
flags, one general register, the guest state, the stack. Vector registers and the noise of calls are
left out. The machine keeps to them: a step changes nothing else, and a run of code changes nothing
that none of its instructions may write. Control goes where the predicates say, too.
-/

namespace Recompiler.Arm

open PowerPC

/-! ## Footprints -/

/-- Parts of the machine: flags, general registers, guest state, stack. -/
structure Footprint where
  flags : Prop
  x : HostReg → Prop
  state : Prop
  stack : Prop

namespace Inst

/-- Instructions that write general registers of which `target?` does not tell. -/
def writesMany : Inst → Bool
  | .call _ | .interpret _ | .pop _ => true
  | _ => false

/-- Whether the guest state may be written. -/
def writesGuest : Inst → Bool
  | .store .. | .storeVector .. | .call _ | .interpret _ => true
  | _ => false

/-- Whether the stack is used. -/
def usesStack : Inst → Bool
  | .push _ | .pop _ => true
  | _ => false

/-- What the predicates say of an instruction. -/
def footprint (i : Inst) : Footprint where
  flags := i.writesFlags = true
  x reg := i.writesMany = true ∨ (i.target? = some reg ∧ reg ≠ zeroReg)
  state := i.writesGuest = true
  stack := i.usesStack = true

end Inst

namespace Machine

theorem stack_scrambleV (regs : List HostReg) (m : Machine) :
    (regs.foldl scrambleV m).stack = m.stack := by
  induction regs generalizing m with
  | nil => rfl
  | cons reg regs ih => exact ih _

theorem stack_scrambleCallerSaved (m : Machine) : m.scrambleCallerSaved.stack = m.stack :=
  calc m.scrambleCallerSaved.stack
    _ = (callerSavedVectors.toList.foldl scrambleV
          (callerSaved.toList.foldl scrambleX m)).stack := (SameOutside.scrambleFlags _).stack
    _ = (callerSaved.toList.foldl scrambleX m).stack := stack_scrambleV _ _
    _ = m.stack := (SameOutside.scramble _ m).stack

end Machine

namespace Footprint

/-- What the predicates say of some instruction or other. -/
def ofCode (code : Array Inst) : Footprint where
  flags := ∃ i ∈ code, i.footprint.flags
  x reg := ∃ i ∈ code, i.footprint.x reg
  state := ∃ i ∈ code, i.footprint.state
  stack := ∃ i ∈ code, i.footprint.stack

/-- The machines agree, except for the footprint, vector registers and noise. -/
structure Within (f : Footprint) (m m' : Machine) : Prop where
  flags : ¬f.flags → m'.flags = m.flags
  x : ∀ reg, ¬f.x reg → m'.x.get reg = m.x.get reg
  state : ¬f.state → m'.state = m.state
  stack : ¬f.stack → m'.stack = m.stack

namespace Within

variable {f : Footprint} {l m n : Machine} {i : Inst}

theorem refl (f : Footprint) (m : Machine) : f.Within m m :=
  ⟨fun _ => rfl, fun _ _ => rfl, fun _ => rfl, fun _ => rfl⟩

theorem trans (h : f.Within l m) (h' : f.Within m n) : f.Within l n where
  flags hf := (h'.flags hf).trans (h.flags hf)
  x reg hf := (h'.x reg hf).trans (h.x reg hf)
  state hf := (h'.state hf).trans (h.state hf)
  stack hf := (h'.stack hf).trans (h.stack hf)

/-- Code may do what one of its instructions may do. -/
theorem ofCode {code : Array Inst} (hi : i ∈ code) (h : i.footprint.Within m n) :
    (ofCode code).Within m n where
  flags hf := h.flags fun hflags => hf ⟨i, hi, hflags⟩
  x reg hf := h.x reg fun hx => hf ⟨i, hi, hx⟩
  state hf := h.state fun hstate => hf ⟨i, hi, hstate⟩
  stack hf := h.stack fun hstack => hf ⟨i, hi, hstack⟩

/-! ## Single writes -/

theorem setX {dst : HostReg} (h : i.target? = some dst) (value : BitVec 64) :
    i.footprint.Within m (m.setX dst value) := by
  unfold Machine.setX
  split
  · exact .refl _ m
  · next hdst =>
    refine ⟨fun _ => rfl, fun reg hreg => ?_, fun _ => rfl, fun _ => rfl⟩
    have hne : reg ≠ dst := by
      rintro rfl
      exact hreg (.inr ⟨h, hdst⟩)
    exact Bank.get_set_of_ne _ _ hne

theorem setV (f : Footprint) (m : Machine) (dst : HostReg) (value : BitVec 128) :
    f.Within m (m.setV dst value) :=
  ⟨fun _ => rfl, fun _ _ => rfl, fun _ => rfl, fun _ => rfl⟩

theorem setFlags (h : i.footprint.Within m n) (hi : i.writesFlags = true) (flags : Flags) :
    i.footprint.Within m { n with flags } :=
  ⟨fun hf => absurd hi hf, h.x, h.state, h.stack⟩

theorem setState (m : Machine) (hi : i.writesGuest = true) (state : State) :
    i.footprint.Within m { m with state } :=
  ⟨fun _ => rfl, fun _ _ => rfl, fun hf => absurd hi hf, fun _ => rfl⟩

/-- A fault in the operand leaves the machine alone. -/
theorem proceed {α : Type} {result : Except Fault α} {g : α → Machine}
    (h : ∀ a, f.Within m (g a)) : f.Within m (m.proceed (result.map g)).machine := by
  cases result with
  | ok a => exact h a
  | error fault => exact .refl f m

theorem writeElement (f : Footprint) (m : Machine) (size : ElemSize) (reg : HostReg) (index : Nat)
    (value : BitVec 64) : f.Within m (m.proceed (m.writeElement size reg index value)).machine := by
  unfold Machine.writeElement
  split
  · exact .setV f m reg _
  · exact .refl f m

theorem writeState {w : Nat} (hi : i.writesGuest = true) (base : HostReg) (offset : BitVec 32)
    (value : BitVec w) :
    i.footprint.Within m (m.proceed (m.writeState base offset value)).machine := by
  unfold Machine.writeState
  split
  · exact proceed fun state => .setState m hi state
  · exact .refl _ m

theorem branch (f : Footprint) (m : Machine) (c : Prop) [Decidable c] (offset : Int) :
    f.Within m (if c then Outcome.jump offset m else .next m).machine := by
  split <;> exact .refl f m

/-! ## Many writes at once -/

theorem popRegs (saved : RegSet) (regs : List HostReg) (m : Machine) :
    (Inst.pop saved).footprint.Within m (m.popRegs regs).machine := by
  induction regs generalizing m with
  | nil => exact .refl _ m
  | cons reg regs ih =>
    unfold Machine.popRegs
    split
    · exact .refl _ m
    · next value stack _ =>
      have hset : (Inst.pop saved).footprint.Within m ({ m with stack }.setX reg value) :=
        ⟨fun _ => Emit.flags_setX _ _ _, fun _ hf => absurd (.inl rfl) hf,
          fun _ => Machine.state_setX _ _ _, fun hf => absurd rfl hf⟩
      exact hset.trans (ih _)

theorem callRoutine (m : Machine) (routine : Routine) :
    (Inst.call routine).footprint.Within m (m.callRoutine routine) :=
  ⟨fun hf => absurd rfl hf, fun _ hf => absurd (.inl rfl) hf, fun hf => absurd rfl hf,
    fun _ => (m.called_callRoutine routine).stack⟩

/-- Executing a word of the guest leaves the stack alone. -/
theorem interpret (m : Machine) (word : BitVec 32) (state : State) :
    (Inst.interpret word).footprint.Within m { m with state }.scrambleCallerSaved :=
  ⟨fun hf => absurd rfl hf, fun _ hf => absurd (.inl rfl) hf, fun hf => absurd rfl hf,
    fun _ => Machine.stack_scrambleCallerSaved _⟩

end Within

/-! ## Steps and runs -/

/-- A step changes nothing outside the footprint of its instruction. -/
theorem within_step (m : Machine) (i : Inst) : i.footprint.Within m (m.step i).machine := by
  cases i with
  | movImm32 | movImm64 | unary | binary | adc32 | imm32 | addImm64 | andRor32 | shift | bitfield
  | cset32 | csel32 | fcvtzs => exact .setX rfl _
  | setFlags | adcs32 | addsImm32 | negs32 => exact .setFlags (.setX rfl _) rfl _
  | test | testImm | fcmp | fcmpSingle => exact .setFlags (.refl _ m) rfl _
  | load size => cases size <;> exact .proceed fun _ => .setX rfl _
  | store size => cases size <;> exact .writeState rfl _ _ _
  | loadVector => exact .proceed fun _ => .setV _ m _ _
  | storeVector => exact .writeState rfl _ _ _
  | branch | exit => exact .refl _ m
  | branchIf | branchIfZero => exact .branch _ m _ _
  | call routine => exact .callRoutine m routine
  | push => exact ⟨fun _ => rfl, fun _ _ => rfl, fun _ => rfl, fun hf => absurd rfl hf⟩
  | pop saved => exact .popRegs saved _ m
  | interpret word => exact .proceed fun state => .interpret m word state
  | farith | ffused | funary | fabsSingle | fcsel | fcvt | fmovFromGeneral | dup | vmov | vmovImm
  | vand | vadd64 | facgtSingle => exact .setV _ m _ _
  | umov => exact .proceed fun _ => .setX rfl _
  | fmovToGeneral size dst src =>
    rw [Machine.step]
    exact .proceed fun _ => .setX rfl _
  | insGeneral => exact .writeElement _ m _ _ _ _
  | insElement size dst dstIndex src srcIndex =>
    show Within _ m (m.proceed ((m.readElement size src srcIndex).bind fun value =>
      m.writeElement size dst dstIndex value)).machine
    cases m.readElement size src srcIndex with
    | ok value => exact .writeElement _ m _ _ _ _
    | error fault => exact .refl _ m

/-- A run changes nothing outside the footprints of its instructions. -/
theorem within_runFrom (code : Array Inst) (fuel pc : Nat) (m : Machine) :
    (ofCode code).Within m (Machine.runFrom code fuel pc m).1 := by
  refine Machine.runFrom_keeps (I := (ofCode code).Within m) ?_ fuel pc m (.refl _ m)
  intro i hi n hn
  exact hn.trans (.ofCode hi (within_step n i))

end Footprint

/-! ## Control -/

/-- The outcomes that the predicates allow. A fault is always possible. -/
def Inst.Leads (i : Inst) : Outcome → Prop
  | .next _ => i.isTerminating = false
  | .jump offset _ => i.isBranch = true ∧ i.branchOffset? = some offset
  | .exit _ => i = .exit
  | .fault .. => True

namespace Inst.Leads

variable {i : Inst}

theorem proceed (h : i.isTerminating = false) (m : Machine) (result : Except Fault Machine) :
    i.Leads (m.proceed result) := by
  cases result with
  | ok after => exact h
  | error fault => trivial

theorem popRegs (saved : RegSet) (regs : List HostReg) (m : Machine) :
    (Inst.pop saved).Leads (m.popRegs regs) := by
  induction regs generalizing m with
  | nil => exact rfl
  | cons reg regs ih =>
    unfold Machine.popRegs
    split
    · trivial
    · exact ih _

/-- A branch with a condition jumps by its offset or goes on. -/
theorem branch {offset : Int} (hb : i.isBranch = true) (ho : i.branchOffset? = some offset)
    (ht : i.isTerminating = false) (m : Machine) (c : Prop) [Decidable c] :
    i.Leads (if c then .jump offset m else .next m) := by
  split
  · exact ⟨hb, ho⟩
  · exact ht

theorem step (m : Machine) (i : Inst) : i.Leads (m.step i) := by
  cases i with
  | branch => exact ⟨rfl, rfl⟩
  | branchIf | branchIfZero => exact .branch rfl rfl rfl m _
  | exit => exact rfl
  | pop saved => exact .popRegs saved _ m
  | load size => cases size <;> exact .proceed rfl m _
  | store size => cases size <;> exact .proceed rfl m _
  | loadVector | storeVector | interpret | umov | insGeneral | insElement =>
    exact .proceed rfl m _
  | fmovToGeneral size dst src =>
    rw [Machine.step]
    exact .proceed rfl m _
  | _ => exact rfl

end Inst.Leads

/-- A step leaves the flags as they are unless the instruction is said to write them, every general
register but the one it is said to write, the guest state unless it stores or calls, and the stack
unless it pushes or pops. It jumps only at branches, leaves the block only at the exit, and does not
go on past what is said to end a block. What no instruction of some code is said to write, no run of
the code changes. -/
theorem Machine.execution_follows_predicates (m : Machine) :
    (∀ i : Inst,
      (i.writesFlags = false → (m.step i).machine.flags = m.flags) ∧
      (i.writesMany = false → ∀ reg, i.target? ≠ some reg ∨ reg = zeroReg →
        (m.step i).machine.x.get reg = m.x.get reg) ∧
      (i.writesGuest = false → (m.step i).machine.state = m.state) ∧
      (i.usesStack = false → (m.step i).machine.stack = m.stack) ∧
      (∀ offset after, m.step i = .jump offset after → i.isBranch = true) ∧
      (∀ after, m.step i = .exit after → i = .exit) ∧
      (i.isTerminating = true → ∀ after, m.step i ≠ .next after)) ∧
    ∀ code fuel pc, (Footprint.ofCode code).Within m (runFrom code fuel pc m).1 := by
  refine ⟨fun i => ?_, fun code fuel pc => Footprint.within_runFrom code fuel pc m⟩
  have hwithin := Footprint.within_step m i
  have hleads := Inst.Leads.step m i
  refine ⟨fun h => hwithin.flags (Bool.eq_false_iff.1 h), ?_,
    fun h => hwithin.state (Bool.eq_false_iff.1 h), fun h => hwithin.stack (Bool.eq_false_iff.1 h),
    ?_, ?_, ?_⟩
  · intro hmany reg hreg
    refine hwithin.x reg ?_
    rintro (h | ⟨htarget, hzero⟩)
    · exact Bool.eq_false_iff.1 hmany h
    · exact hreg.elim (· htarget) hzero
  · intro offset after h
    rw [h] at hleads
    exact hleads.1
  · intro after h
    rw [h] at hleads
    exact hleads
  · intro hterminating after h
    rw [h] at hleads
    exact Bool.eq_false_iff.1 hleads hterminating

/-- An addition with carry writes its target only; a branch jumps, and goes on nowhere else. -/
theorem Machine.adc_and_branch_follow_predicates :
    ∃ m : Machine, (m.step (.adc32 3 4 5)).machine.flags = m.flags ∧
      (m.step (.adc32 3 4 5)).machine.x.get 4 = m.x.get 4 ∧
      (m.step (.adc32 31 4 5)).machine.x.get 31 = m.x.get 31 ∧
      (m.step (.adc32 3 4 5)).machine.state = m.state ∧
      (m.step (.adc32 3 4 5)).machine.stack = m.stack ∧
      m.step (.branch 2) = .jump 2 m ∧ (Inst.branch 2).isBranch = true ∧
      m.step (.branch 2) ≠ .next m ∧ m.step .exit = .exit m := by
  let m : Machine := { state := .zeroed .standard }
  obtain ⟨hstep, -⟩ := m.execution_follows_predicates
  obtain ⟨hflags, hx, hstate, hstack, -⟩ := hstep (.adc32 3 4 5)
  obtain ⟨-, hzero, -⟩ := hstep (.adc32 31 4 5)
  obtain ⟨-, -, -, -, hjump, -, hnext⟩ := hstep (.branch 2)
  exact ⟨m, hflags rfl, hx rfl 4 (.inl (by decide)), hzero rfl 31 (.inr rfl), hstate rfl,
    hstack rfl, rfl, hjump 2 m rfl, hnext rfl m, rfl⟩

end Recompiler.Arm
