import Mathlib.Logic.Relation
import Recompiler.Lower.Operand
import Recompiler.Proofs.EmitLogic
import Recompiler.Proofs.SlotCache

/-!
# What a step of compilation adds to the code

A step of compilation appends instructions to the two regions of the buffer, places labels, and
moves slots and the carry. `Emits P prog` says that `prog` does of this only what `P` permits: which
instructions it appends on its own account, whether it calls support routines, whether it moves the
carry. Branches come on top, and calls are counted. Nothing is said about steps that fail.
-/

namespace Recompiler

open Alloc Arm Block Emit Lower PowerPC

/-- Instructions that compute: they do not store, call or leave the block, and a bitfield move takes
some bits within a word. -/
def Arm.Inst.computes : Inst → Bool
  | .store .. | .storeVector .. | .call _ | .interpret _ | .exit => false
  | .bitfield _ _ _ lsb width => lsb + width ≤ 32 && 1 ≤ width
  | _ => true

/-- Instructions that compute and leave the flags as they are. -/
def Arm.Inst.silent (i : Inst) : Bool := i.computes && !i.writesFlags

/-! ## Slots on the move -/

namespace Alloc

variable {n : Nat}

/-- The instructions that an access moves slots with. -/
inductive Access.Gives (access : Access n) : Inst → Prop
  | load (slot : Fin n) (reg : HostReg) : access.Gives (access.load slot reg)
  | store (slot : Fin n) (reg : HostReg) : access.Gives (access.store slot reg)
  | constant (slot : Fin n) (reg : HostReg) (value : BitVec 64) :
      access.Gives (access.constant slot reg value)

namespace Cache

variable {access : Access n} {cache : Cache n} {grant : Grant n} {slot : Fin n} {i : Inst}

theorem gives_writeBack {cell : Cell} (h : i ∈ writeBack access slot cell) : access.Gives i := by
  unfold writeBack at h
  split at h
  · split at h
    · simp at h
    · rw [List.mem_singleton] at h
      exact h ▸ .store slot _
    · split at h
      · rw [List.mem_singleton] at h
        exact h ▸ .store slot zeroReg
      · rw [List.mem_cons, List.mem_singleton] at h
        rcases h with rfl | rfl
        · exact .constant slot flushReg _
        · exact .store slot flushReg
  · simp at h

theorem gives_flushSlot (h : i ∈ (flushSlot access cache slot).1) : access.Gives i :=
  gives_writeBack h

theorem gives_flushSlots {slots : List (Fin n)} (h : i ∈ (flushSlots access cache slots).1) :
    access.Gives i := by
  induction slots generalizing cache with
  | nil => simp [flushSlots] at h
  | cons slot slots ih =>
    rcases List.mem_append.1 h with h | h
    · exact gives_flushSlot h
    · exact ih h

theorem gives_allocate (hok : allocate access cache = .ok grant) (h : i ∈ grant.code) :
    access.Gives i := by
  obtain ⟨r, -, rfl⟩ | ⟨r, s, -, rfl⟩ := allocate_eq_ok hok
  · simp at h
  · exact gives_flushSlot h

theorem gives_read (hok : read access cache slot = .ok grant) (h : i ∈ grant.code) :
    access.Gives i := by
  obtain ⟨r, -, rfl⟩ | ⟨given, fill, dirty, hgiven, hfill, rfl⟩ := read_eq_ok hok
  · simp at h
  · rcases List.mem_append.1 h with h | h
    · exact gives_allocate hgiven h
    · rw [List.mem_singleton.1 h]
      cases hfill with
      | constant => exact .constant slot _ _
      | memory => exact .load slot _

theorem gives_write {keep : Bool} (hok : write access cache slot keep = .ok grant)
    (h : i ∈ grant.code) : access.Gives i := by
  obtain ⟨r, -, rfl⟩ | ⟨given, -, hread, rfl⟩ | ⟨given, -, hgiven, -, rfl⟩ := write_eq_ok hok
  · simp at h
  · exact gives_read hread h
  · exact gives_allocate hgiven h

theorem gives_scratch (hok : scratch access cache = .ok grant) (h : i ∈ grant.code) :
    access.Gives i := by
  obtain ⟨given, hgiven, rfl⟩ := scratch_eq_ok hok
  exact gives_allocate hgiven h

theorem gives_lock {regs : List HostReg} (h : i ∈ (lock access cache regs).code) :
    access.Gives i := by
  induction cache, regs using lock_induction access with
  | nil cache => simp at h
  | skip cache r regs hr ih => exact ih h
  | busy cache r regs hr huse => simp at h
  | free cache r regs hr huse hown ih => exact ih h
  | evict cache r regs slot hr huse hown ih =>
    rcases List.mem_append.1 h with h | h
    · exact gives_flushSlot h
    · exact ih h

end Cache

end Alloc

namespace Emit

/-! ## Moves of the emitter -/

/-- What steps of compilation may do: the instructions that they append on their own account, calls
of support routines, and moves of the carry. -/
structure Permits where
  inst : Layout → Inst → Prop
  calls : Prop
  carry : Prop

/-- One thing that the code of an instruction is made by. -/
inductive Emitter.Move (P : Permits) (e : Emitter) : Emitter → Prop
  | emit (i : Inst) (h : P.inst e.layout i) : e.Move P { e with code := e.code.emit i }
  | branch (i : Inst) (label : Nat) (h : i.isBranch = true) :
      e.Move P { e with code := e.code.branchTo i label }
  | call (routine : Routine) (h : P.calls) : e.Move P { e with
      code := e.code.emit (.call routine)
      stats := { e.stats with helperCalls := e.stats.helperCalls + 1 } }
  | labels (region : Region) (labels : Array (Option Position)) :
      e.Move P { e with code := { e.code with region, labels } }
  | carry (carry : Carry) (h : P.carry) : e.Move P { e with carry }
  | aside (integers : Cache 40) (vectors : Vectors) (folds flushes : Nat) :
      e.Move P { e with
        integers, vectors
        stats := { e.stats with constantFolds := folds, carryFlushes := flushes } }

/-- Any number of them. -/
def Emitter.Moves (P : Permits) : Emitter → Emitter → Prop :=
  Relation.ReflTransGen (Emitter.Move P)

/-- The step, if it succeeds, makes moves only. -/
structure Emits (P : Permits) {α : Type} (prog : EmitM α) : Prop where
  moves : ∀ {e a e'}, prog.run.run e = (.ok a, e') → e.Moves P e'

/-- All instructions that compute without touching the flags, or move slots, are permitted. -/
class AllowsSilent (P : Permits) : Prop where
  silent : ∀ {layout i}, i.silent = true → P.inst layout i
  integer : ∀ {layout i}, (Access.integer layout).Gives i → P.inst layout i
  vector : ∀ {layout i}, (Access.vector layout).Gives i → P.inst layout i

/-- All instructions that compute, move slots or keep the status word are permitted, and calls. -/
class Allows (P : Permits) : Prop extends AllowsSilent P where
  computes : ∀ {layout i}, i.computes = true → P.inst layout i
  status : ∀ {layout reg}, P.inst layout (.store .word reg stateReg layout.fpscr)
  calls : P.calls
  silent h := computes (Bool.and_eq_true_iff.1 h).1

/-- What is permitted for one layout. -/
def ForLayout (P : Permits) (fixed : Layout) : Permits :=
  { P with inst := fun layout i => layout = fixed → P.inst layout i }

instance (P : Permits) [Allows P] (fixed : Layout) : Allows (ForLayout P fixed) where
  computes h _ := Allows.computes h
  integer h _ := AllowsSilent.integer h
  vector h _ := AllowsSilent.vector h
  status _ := Allows.status
  calls := Allows.calls (P := P)

variable {α β : Type} {P : Permits} {e e' : Emitter} {insts : List Inst}

theorem Emitter.Moves.layout_eq (h : e.Moves P e') : e'.layout = e.layout := by
  induction h with
  | refl => rfl
  | tail _ hmove ih => cases hmove <;> exact ih

/-- The layout never changes, so only what is asked for it counts. -/
theorem Emitter.Moves.forLayout (h : e.Moves (ForLayout P e.layout) e') : e.Moves P e' := by
  induction h with
  | refl => exact .refl
  | tail hmoves hmove ih =>
    refine ih.tail ?_
    cases hmove with
    | emit i hi => exact .emit i (hi (Emitter.Moves.layout_eq hmoves))
    | branch i label hi => exact .branch i label hi
    | call routine hc => exact .call routine hc
    | labels region labels => exact .labels region labels
    | carry carry hc => exact .carry carry hc
    | aside => exact .aside ..

theorem CodeBuffer.code_emit (b : CodeBuffer) (i : Inst) (region : Region) :
    ((b.emit i).code region).toList =
      (b.code region).toList ++ if b.region = region then [i] else [] := by
  unfold emit
  cases hr : b.region <;> cases region <;> simp [code]

/-- An instruction that moves may add. -/
def Appendable (P : Permits) (layout : Layout) (i : Inst) : Prop :=
  P.inst layout i ∨ i.isBranch = true ∨ (P.calls ∧ ∃ routine, i = .call routine)

theorem Emitter.Move.added (h : e.Move P e') (region : Region) :
    ∃ insts, (e'.code.code region).toList = (e.code.code region).toList ++ insts ∧
      ∀ i ∈ insts, Appendable P e.layout i := by
  have hone : ∀ (b : CodeBuffer) (i : Inst), Appendable P e.layout i → ∃ insts,
      ((b.emit i).code region).toList = (b.code region).toList ++ insts ∧
        ∀ j ∈ insts, Appendable P e.layout j := by
    intro b i hi
    refine ⟨_, b.code_emit i region, ?_⟩
    intro j hj
    split at hj
    · rw [List.mem_singleton] at hj
      exact hj ▸ hi
    · cases hj
  have hnone : ∀ insts : List Inst, insts = insts ++ [] ∧
      ∀ i ∈ ([] : List Inst), Appendable P e.layout i :=
    fun insts => ⟨(List.append_nil insts).symm, nofun⟩
  cases h with
  | emit i hi => exact hone e.code i (.inl hi)
  | branch i label hi =>
    let b : CodeBuffer := { e.code with fixups := e.code.fixups.push ⟨e.code.here, label⟩ }
    have hb : (b.code region).toList = (e.code.code region).toList := by cases region <;> rfl
    exact hb ▸ hone b i (.inr (.inl hi))
  | call routine hc => exact hone e.code (.call routine) (.inr (.inr ⟨hc, routine, rfl⟩))
  | labels r labels => cases region <;> exact ⟨[], hnone _⟩
  | carry | aside => exact ⟨[], hnone _⟩

/-- All that moves add to a region are permitted instructions, branches and permitted calls. -/
theorem Emitter.Moves.added (h : e.Moves P e') (region : Region) :
    ∃ insts, (e'.code.code region).toList = (e.code.code region).toList ++ insts ∧
      ∀ i ∈ insts, Appendable P e.layout i := by
  induction h with
  | refl => exact ⟨[], (List.append_nil _).symm, nofun⟩
  | tail hmoves hmove ih =>
    obtain ⟨left, hleft, hin⟩ := ih
    obtain ⟨right, hright, hin'⟩ := hmove.added region
    refine ⟨left ++ right, by rw [hright, hleft, List.append_assoc], ?_⟩
    rw [Emitter.Moves.layout_eq hmoves] at hin'
    intro i hi
    exact (List.mem_append.1 hi).elim (hin i) (hin' i)

theorem Emitter.moves_emitAll (h : ∀ i ∈ insts, P.inst e.layout i) :
    e.Moves P { e with code := e.code.emitAll insts } := by
  induction insts generalizing e with
  | nil => exact .refl
  | cons i insts ih =>
    have hi : e.Move P { e with code := e.code.emit i } := .emit i (h i List.mem_cons_self)
    exact .head hi (ih fun j hj => h j (List.mem_cons_of_mem i hj))

theorem Emitter.moves_call {before after : List Inst} (routine : Routine) (hcalls : P.calls)
    (hbefore : ∀ i ∈ before, P.inst e.layout i) (hafter : ∀ i ∈ after, P.inst e.layout i) :
    e.Moves P { e with
      code := e.code.emitAll (before ++ .call routine :: after)
      stats := { e.stats with helperCalls := e.stats.helperCalls + 1 } } := by
  have hcall := (moves_emitAll hbefore).tail (.call routine hcalls)
  rw [CodeBuffer.emitAll_append]
  exact hcall.trans (moves_emitAll hafter)

/-! ## Programs -/

/-- A program that succeeds does so part by part. -/
theorem run_bind_eq_ok {prog : EmitM α} {f : α → EmitM β} {b : β}
    (h : (prog >>= f).run.run e = (.ok b, e')) : ∃ a e₁, prog.run.run e = (.ok a, e₁) ∧
      (f a).run.run e₁ = (.ok b, e') := by
  rw [ExceptT.run_bind, StateT.run_bind] at h
  rcases hr : prog.run.run e with ⟨fault | a, e₁⟩
  · rw [hr] at h
    cases h
  · rw [hr] at h
    exact ⟨a, e₁, rfl, h⟩

namespace Emits

protected theorem pure (a : α) : Emits P (Pure.pure a : EmitM α) where
  moves h := by
    cases h
    exact .refl

protected theorem bind {prog : EmitM α} {f : α → EmitM β} (h : Emits P prog)
    (hf : ∀ a, Emits P (f a)) : Emits P (prog >>= f) where
  moves {e b e'} hrun := by
    obtain ⟨a, e₁, hprog, hrest⟩ := run_bind_eq_ok hrun
    exact (h.moves hprog).trans ((hf a).moves hrest)

protected theorem map {prog : EmitM α} (h : Emits P prog) (g : α → β) : Emits P (g <$> prog) := by
  rw [map_eq_pure_bind]
  exact h.bind fun a => .pure (g a)

theorem ite {c : Prop} [Decidable c] {a b : EmitM α} (ha : c → Emits P a) (hb : ¬c → Emits P b) :
    Emits P (if c then a else b) := by
  split
  · next h => exact ha h
  · next h => exact hb h

/-- Branches that go on in the same way. -/
theorem join {γ : Type} {f : α → EmitM β} {body : (α → EmitM β) → EmitM γ} (hf : ∀ a, Emits P (f a))
    (h : ∀ rest, (∀ a, Emits P (rest a)) → Emits P (body rest)) :
    Emits P (have rest := f; body rest) := h f hf

theorem throw {fault : Fault} : Emits P (MonadExcept.throw fault : EmitM α) where
  moves h := by cases h

/-- A step that only looks at the emitter. -/
theorem look {f : Emitter → α} : Emits P (do return f (← get) : EmitM α) where
  moves h := by
    cases h
    exact .refl

theorem get : Emits P (MonadState.get : EmitM Emitter) := look

/-- A program that looks at the emitter first knows the layout. -/
theorem get_bind {f : Emitter → EmitM α} (h : ∀ e, Emits (ForLayout P e.layout) (f e)) :
    Emits P (MonadState.get >>= f) where
  moves {e a e'} hrun := by
    rw [run_get_bind] at hrun
    exact Emitter.Moves.forLayout ((h e).moves hrun)

theorem modify {g : Emitter → Emitter} (h : ∀ e : Emitter, e.Moves P (g e)) :
    Emits P (modify g : EmitM Unit) where
  moves {e a e'} hrun := by
    cases hrun
    exact h e

/-- A step that stores an instruction of its own. -/
theorem emitOf {i : Inst} (h : ∀ layout, P.inst layout i) : Emits P (Emit.emit i) :=
  modify fun e => .single (.emit i (h e.layout))

theorem newLabel : Emits P newLabel where
  moves {e a e'} h := by
    cases h
    exact .single (.labels e.code.region (e.code.labels.push none))

theorem placeLabel {label : Nat} : Emits P (placeLabel label) :=
  modify fun e => .single (.labels e.code.region _)

theorem branchTo {i : Inst} {label : Nat} (h : i.isBranch = true) : Emits P (branchTo i label) :=
  modify fun _ => .single (.branch i label h)

theorem switchTo {region : Region} : Emits P (switchTo region) :=
  modify fun e => .single (.labels region e.code.labels)

theorem release {reg : HostReg} : Emits P (release reg) := modify fun _ => .single (.aside ..)

theorem releaseVector {reg : HostReg} : Emits P (releaseVector reg) :=
  modify fun _ => .single (.aside ..)

theorem unlockRegs {regs : RegSet} : Emits P (unlockRegs regs) :=
  modify fun _ => .single (.aside ..)

theorem setSlotConstant {slot : IntSlot} {value : BitVec 64} :
    Emits P (setSlotConstant slot value) := modify fun _ => .single (.aside ..)

theorem setCarry {carry : Carry} (h : P.carry) : Emits P (setCarry carry) :=
  modify fun _ => .single (.carry carry h)

theorem foldGpr {reg : GuestReg} {value : BitVec 32} : Emits P (foldGpr reg value) :=
  .bind setSlotConstant fun _ => modify fun _ => .single (.aside ..)

theorem gprConstant? {reg : GuestReg} : Emits P (gprConstant? reg) := look

theorem currentWord : Emits P currentWord := look

theorem wantsCa : Emits P wantsCa := look

theorem carryConstant {value : Bool} (h : P.carry) : Emits P (carryConstant value) :=
  .bind get fun _ => ite (fun _ => setCarry h) fun _ => setCarry h

theorem recordConstant {value : BitVec 32} : Emits P (recordConstant value) := setSlotConstant

theorem recordFolded {value : BitVec 32} : Emits P (recordFolded value) :=
  .bind currentWord fun _ => ite (fun _ => recordConstant) fun _ => .pure ()

theorem fold {reg : GuestReg} {value : BitVec 32} : Emits P (fold reg value) :=
  .bind foldGpr fun _ => recordFolded

theorem releaseHeld : ∀ {temp : Option HostReg}, Emits P (releaseHeld temp)
  | some _ => release
  | none => .pure ()

theorem checkSingle {numbers : List Nat} {lowerOnly expected : Bool} :
    Emits P (checkSingle numbers lowerOnly expected) :=
  .bind get fun e => by
    split
    · exact throw
    · exact .pure ()

theorem finishCall {call : PreparedCall} : Emits P (finishCall call) := unlockRegs

theorem endIntegers : Emits P endIntegers where
  moves {e a e'} hrun := by
    unfold Emit.endIntegers at hrun
    rw [run_get_bind] at hrun
    split at hrun
    · cases hrun
    · cases hrun
      exact .single (.aside ..)

theorem endVectors : Emits P endVectors where
  moves {e a e'} hrun := by
    unfold Emit.endVectors at hrun
    rw [run_get_bind] at hrun
    split at hrun
    · cases hrun
    · cases hrun
      exact .single (.aside ..)

theorem endInstruction : Emits P endInstruction := .bind endIntegers fun _ => endVectors

section Silent

variable [AllowsSilent P]

theorem silent {i : Inst} (h : i.silent = true) : Emits P (Emit.emit i) :=
  emitOf fun _ => AllowsSilent.silent h

theorem silentAll (h : insts.all Inst.silent = true) : Emits P (emitAll insts) :=
  modify fun _ => Emitter.moves_emitAll fun i hi =>
    AllowsSilent.silent (List.all_eq_true.1 h i hi)

/-! ## Slots -/

theorem requestInteger {request : Access 40 → Cache 40 → Except (Refusal 40) (Grant 40)}
    (h : ∀ access cache grant, request access cache = .ok grant →
      ∀ i ∈ grant.code, access.Gives i) : Emits P (requestInteger request) where
  moves {e a e'} hrun := by
    unfold Emit.requestInteger at hrun
    rw [run_get_bind] at hrun
    split at hrun
    · cases hrun
    · next grant hgrant =>
      cases hrun
      have hcode : ∀ i ∈ grant.code, P.inst e.layout i :=
        fun i hi => AllowsSilent.integer (h _ _ _ hgrant i hi)
      exact (Emitter.moves_emitAll hcode).tail (.aside ..)

theorem readSlot {slot : IntSlot} : Emits P (readSlot slot) :=
  requestInteger fun _ _ _ hok _ hi => Cache.gives_read hok hi

theorem writeSlot {slot : IntSlot} {keep : Bool} : Emits P (writeSlot slot keep) :=
  requestInteger fun _ _ _ hok _ hi => Cache.gives_write hok hi

theorem readGpr {reg : GuestReg} : Emits P (readGpr reg) := readSlot

theorem writeGpr {reg : GuestReg} {keep : Bool} : Emits P (writeGpr reg keep) := writeSlot

theorem writeCr {field : CrField} : Emits P (writeCr field) := writeSlot

theorem scratch : Emits P scratch :=
  requestInteger fun _ _ _ hok _ hi => Cache.gives_scratch hok hi

theorem requestVector {request : Access 32 → Cache 32 → Except (Refusal 32) (Grant 32)}
    (h : ∀ access cache grant, request access cache = .ok grant →
      ∀ i ∈ grant.code, access.Gives i) : Emits P (requestVector request) where
  moves {e a e'} hrun := by
    unfold Emit.requestVector at hrun
    rw [run_get_bind] at hrun
    split at hrun
    · cases hrun
    · next grant hgrant =>
      cases hrun
      have hcode : ∀ i ∈ grant.code, P.inst e.layout i :=
        fun i hi => AllowsSilent.vector (h _ _ _ hgrant i hi)
      exact (Emitter.moves_emitAll hcode).tail (.aside ..)

theorem readFpr {reg : GuestReg} : Emits P (readFpr reg) :=
  requestVector fun _ _ _ hok _ hi => Cache.gives_read hok hi

theorem writeFpr {reg : GuestReg} {keep : Bool} {precision : Precision} :
    Emits P (writeFpr reg keep precision) :=
  .bind (requestVector fun _ _ _ hok _ hi => Cache.gives_write hok hi) fun _ =>
    .bind (modify fun _ => .single (.aside ..)) fun _ => .pure _

theorem scratchVector : Emits P scratchVector :=
  requestVector fun _ _ _ hok _ hi => Cache.gives_scratch hok hi

theorem flushIntegers : Emits P flushIntegers := by
  refine modify fun e => ?_
  have hcode : ∀ i ∈ (Cache.flush (.integer e.layout) e.integers).1, P.inst e.layout i :=
    fun i hi => AllowsSilent.integer (Cache.gives_flushSlots hi)
  exact (Emitter.moves_emitAll hcode).tail (.aside ..)

theorem flushVectors : Emits P flushVectors := by
  refine modify fun e => ?_
  have hcode : ∀ i ∈ (Cache.flush (.vector e.layout) e.vectors.cache).1, P.inst e.layout i :=
    fun i hi => AllowsSilent.vector (Cache.gives_flushSlots hi)
  exact (Emitter.moves_emitAll hcode).tail (.aside ..)

theorem lockRegs {regs : RegSet} : Emits P (lockRegs regs) where
  moves {e a e'} hrun := by
    have hcode : ∀ i ∈ (Cache.lock (.integer e.layout) e.integers regs.toList).code,
        P.inst e.layout i := fun i hi => AllowsSilent.integer (Cache.gives_lock hi)
    have hmoves := (Emitter.moves_emitAll hcode).tail (.aside
      (Cache.lock (.integer e.layout) e.integers regs.toList).cache e.vectors
      e.stats.constantFolds e.stats.carryFlushes)
    unfold Emit.lockRegs at hrun
    rw [run_get_bind] at hrun
    dsimp only at hrun
    cases hfault : (Cache.lock (.integer e.layout) e.integers regs.toList).fault with
    | some fault =>
      rw [hfault] at hrun
      cases hrun
    | none =>
      rw [hfault] at hrun
      cases hrun
      exact hmoves

/-! ## Operands -/

theorem source {reg : GuestReg} : Emits P (source reg) :=
  .bind gprConstant? fun
    | some _ => .pure _
    | none => .bind readGpr fun _ => .pure _

theorem recordReg {src : HostReg} : Emits P (recordReg src) := .bind writeCr fun _ => silent rfl

theorem record {host : HostReg} : Emits P (record host) :=
  .bind currentWord fun _ => ite (fun _ => recordReg) fun _ => .pure ()

theorem scratchConstant {value : BitVec 32} : Emits P (scratchConstant value) :=
  .bind scratch fun _ => .bind (silent rfl) fun _ => .pure _

theorem moveGpr {dst src : GuestReg} : Emits P (moveGpr dst src) :=
  .bind gprConstant? fun
    | some _ => fold
    | none => .bind readGpr fun _ => ite (fun _ => record) fun _ =>
        .bind writeGpr fun _ => .bind (silent rfl) fun _ => record

theorem emitMove {dst src : HostReg} : Emits P (emitMove dst src) :=
  ite (fun _ => silent rfl) fun _ => .pure ()

theorem emitAddConstant {dst src : HostReg} {value : BitVec 32} :
    Emits P (emitAddConstant dst src value) := ite (fun _ => silent rfl) fun _ => emitMove

end Silent

section

variable [Allows P]

theorem emit {i : Inst} (h : i.computes = true) : Emits P (emit i) :=
  emitOf fun _ => Allows.computes h

theorem emitAll (h : insts.all Inst.computes = true) : Emits P (emitAll insts) :=
  modify fun _ => Emitter.moves_emitAll fun i hi => Allows.computes (List.all_eq_true.1 h i hi)

theorem emitAdd {dst a b : HostReg} : Emits P (emitAdd dst a b) :=
  .bind wantsCa fun
    | true => emit rfl
    | false => emit rfl

/-! ## Calls -/

theorem prepareCall {routine : Routine} : Emits P (prepareCall routine) :=
  .bind lockRegs fun _ => .pure _

theorem emitCall {call : PreparedCall} {setup teardown : List Inst}
    (hsetup : setup.all Inst.computes = true) (hteardown : teardown.all Inst.computes = true) :
    Emits P (emitCall call setup teardown) := by
  refine modify fun e => ?_
  have hall :
      ∀ {insts : List Inst}, insts.all Inst.computes = true → ∀ i ∈ insts, P.inst e.layout i :=
    fun h i hi => Allows.computes (List.all_eq_true.1 h i hi)
  have hstack : ∀ (saved : RegSet) {i : Inst}, i.computes = true →
      (if saved.isEmpty then [] else [i]).all Inst.computes = true := by
    intro saved i hi
    split
    · rfl
    · rw [List.all_cons, hi]
      rfl
  let saved := call.saved e.integers
  have hbefore := hall (List.all_append.trans
    (Bool.and_eq_true_iff.2 ⟨hstack saved (i := .push saved) rfl, hsetup⟩))
  have hafter := hall (List.all_append.trans
    (Bool.and_eq_true_iff.2 ⟨hteardown, hstack saved (i := .pop saved) rfl⟩))
  have hcode := Emitter.moves_call call.routine Allows.calls hbefore hafter
  simp only [List.append_assoc, List.singleton_append, PreparedCall.code] at hcode ⊢
  exact hcode

theorem updateClass {vector : HostReg} {single : Bool} : Emits P (updateClass vector single) :=
  .bind get fun _ => ite (fun _ => .bind prepareCall fun _ => .bind (emitCall rfl rfl) fun _ =>
    finishCall) fun _ => .pure ()

end

end Emits

end Emit

end Recompiler
