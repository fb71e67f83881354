import Recompiler.Proofs.BlockAccounts
import Recompiler.Proofs.CacheHistory
import Recompiler.Proofs.Lower.Conversion

/-!
# The size of code

A step of compilation appends a bounded number of instructions: a slot is moved by three at most,
and a flush moves every slot once. Hence the block of one floating-point operation, or of one
conversion, is far below the number of steps that a machine takes.
-/

namespace Recompiler

open Alloc Arm Block Emit Lower PowerPC

/-! ## Slots on the move -/

namespace Alloc.Cache

variable {n : Nat} {access : Access n} {cache : Cache n} {grant : Grant n} {slot : Fin n}

theorem length_writeBack (access : Access n) (slot : Fin n) (cell : Cell) :
    (writeBack access slot cell).length ≤ 2 := by
  unfold writeBack
  split
  · split
    · exact Nat.zero_le 2
    · exact Nat.le_succ 1
    · split
      · exact Nat.le_succ 1
      · exact Nat.le_refl 2
  · exact Nat.zero_le 2

theorem length_flushSlots (access : Access n) (cache : Cache n) (slots : List (Fin n)) :
    (flushSlots access cache slots).1.length ≤ 2 * slots.length := by
  induction slots generalizing cache with
  | nil => exact Nat.le_refl 0
  | cons slot slots ih =>
    have hslot : (flushSlot access cache slot).1.length ≤ 2 := length_writeBack ..
    have hrest := ih (flushSlot access cache slot).2
    rw [flushSlots, List.length_append, List.length_cons]
    omega

theorem length_allocate (h : allocate access cache = .ok grant) : grant.code.length ≤ 2 := by
  obtain ⟨r, -, rfl⟩ | ⟨r, s, -, rfl⟩ := allocate_eq_ok h
  · exact Nat.zero_le 2
  · exact length_writeBack ..

theorem length_read (h : read access cache slot = .ok grant) : grant.code.length ≤ 3 := by
  obtain ⟨r, -, rfl⟩ | ⟨given, fill, dirty, hgiven, -, rfl⟩ := read_eq_ok h
  · exact Nat.zero_le 3
  · have hlength := length_allocate hgiven
    rw [List.length_append, List.length_singleton]
    omega

theorem length_write {keep : Bool} (h : write access cache slot keep = .ok grant) :
    grant.code.length ≤ 3 := by
  obtain ⟨r, -, rfl⟩ | ⟨given, -, hread, rfl⟩ | ⟨given, -, hgiven, -, rfl⟩ := write_eq_ok h
  · exact Nat.zero_le 3
  · exact (length_read hread :)
  · exact Nat.le_succ_of_le (length_allocate hgiven :)

theorem length_scratch (h : scratch access cache = .ok grant) : grant.code.length ≤ 2 := by
  obtain ⟨given, hgiven, rfl⟩ := scratch_eq_ok h
  exact (length_allocate hgiven :)

theorem length_lock (access : Access n) (cache : Cache n) (regs : List HostReg) :
    (lock access cache regs).code.length ≤ 2 * regs.length := by
  induction cache, regs using lock_induction access with
  | nil cache => exact Nat.le_refl 0
  | skip cache r regs hr ih | free cache r regs hr huse hown ih =>
    rw [List.length_cons]
    omega
  | busy cache r regs hr huse => exact Nat.zero_le _
  | evict cache r regs slot hr huse hown ih =>
    have hslot : (flushSlot access cache slot).1.length ≤ 2 := length_writeBack ..
    rw [List.length_append, List.length_cons]
    omega

end Alloc.Cache

namespace Emit

theorem CodeBuffer.size_emit (b : CodeBuffer) (i : Inst) : (b.emit i).size = b.size + 1 := by
  unfold emit size
  cases b.region with
  | near =>
    dsimp only
    rw [Array.size_push, Nat.add_right_comm]
  | far =>
    dsimp only
    rw [Array.size_push, Nat.add_assoc]

theorem CodeBuffer.size_emitAll (b : CodeBuffer) (insts : List Inst) :
    (b.emitAll insts).size = b.size + insts.length := by
  induction insts generalizing b with
  | nil => rfl
  | cons i insts ih =>
    have htail : (b.emitAll (i :: insts)).size = ((b.emit i).emitAll insts).size := rfl
    rw [htail, ih, b.size_emit, List.length_cons]
    omega

/-! ## Programs -/

/-- The step, if it succeeds, appends at most so many instructions. -/
structure AtMost (n : Nat) {α : Type} (prog : EmitM α) : Prop where
  size : ∀ {e a e'}, prog.run.run e = (.ok a, e') → e'.code.size ≤ e.code.size + n

namespace AtMost

variable {α β : Type} {m n : Nat}

theorem mono {prog : EmitM α} (h : AtMost m prog) (hle : m ≤ n) : AtMost n prog :=
  ⟨fun hrun => Nat.le_trans (h.size hrun) (Nat.add_le_add_left hle _)⟩

protected theorem pure (a : α) : AtMost n (Pure.pure a : EmitM α) where
  size h := by
    cases h
    exact Nat.le_add_right _ _

protected theorem bind {prog : EmitM α} {f : α → EmitM β} (h : AtMost m prog)
    (hf : ∀ a, AtMost n (f a)) : AtMost (m + n) (prog >>= f) where
  size hrun := by
    obtain ⟨a, e₁, hprog, hrest⟩ := run_bind_eq_ok hrun
    have hleft := h.size hprog
    have hright := (hf a).size hrest
    omega

/-- A step without code may come first. -/
theorem still {prog : EmitM α} {f : α → EmitM β} (h : AtMost 0 prog) (hf : ∀ a, AtMost n (f a)) :
    AtMost n (prog >>= f) := (h.bind hf).mono (Nat.le_of_eq (Nat.zero_add n))

theorem ite {c : Prop} [Decidable c] {a b : EmitM α} (ha : AtMost n a) (hb : AtMost n b) :
    AtMost n (if c then a else b) := by
  split
  · exact ha
  · exact hb

theorem throw {fault : Fault} : AtMost n (MonadExcept.throw fault : EmitM α) where
  size h := by cases h

theorem get : AtMost 0 (MonadState.get : EmitM Emitter) where
  size h := by
    cases h
    exact Nat.le_refl _

theorem update {g : Emitter → Emitter} (h : ∀ e, (g e).code.size ≤ e.code.size + n) :
    AtMost n (modify g : EmitM Unit) where
  size {e a e'} hrun := by
    cases hrun
    exact h e

theorem emit {i : Inst} : AtMost 1 (emit i) := update fun e => Nat.le_of_eq (e.code.size_emit i)

theorem emitAll (insts : List Inst) : AtMost insts.length (emitAll insts) :=
  update fun e => Nat.le_of_eq (e.code.size_emitAll insts)

theorem requestVector {request : Access 32 → Cache 32 → Except (Refusal 32) (Grant 32)}
    (h : ∀ access cache grant, request access cache = .ok grant → grant.code.length ≤ n) :
    AtMost n (requestVector request) where
  size {e a e'} hrun := by
    unfold Emit.requestVector at hrun
    rw [run_get_bind] at hrun
    split at hrun
    · cases hrun
    · next grant hgrant =>
      cases hrun
      have hlength := h _ _ _ hgrant
      have hsize := e.code.size_emitAll grant.code
      exact Nat.le_trans (Nat.le_of_eq hsize) (Nat.add_le_add_left hlength _)

theorem readFpr {reg : GuestReg} : AtMost 3 (readFpr reg) :=
  requestVector fun _ _ _ h => Cache.length_read h

theorem writeFpr {reg : GuestReg} {keep : Bool} {precision : Precision} :
    AtMost 3 (writeFpr reg keep precision) := by
  have hwrite :
      AtMost 3 (Emit.requestVector fun access cache => Cache.write access cache reg keep) :=
    requestVector fun _ _ _ h => Cache.length_write h
  have hprecision : ∀ host : HostReg, AtMost 0 (do
      modify fun e : Emitter => { e with vectors := e.vectors.setPending reg precision }
      return host) := fun _ => .still (update fun _ => Nat.le_refl _) fun _ => .pure _
  exact .bind hwrite hprecision

theorem scratchVector : AtMost 2 scratchVector :=
  requestVector fun _ _ _ h => Cache.length_scratch h

theorem releaseVector {reg : HostReg} : AtMost 0 (releaseVector reg) :=
  update fun _ => Nat.le_refl _

theorem flushIntegers : AtMost 80 flushIntegers := by
  refine update fun e => ?_
  have hlength := Cache.length_flushSlots (.integer e.layout) e.integers (List.finRange 40)
  rw [List.length_finRange] at hlength
  exact Nat.le_trans (Nat.le_of_eq (e.code.size_emitAll _)) (Nat.add_le_add_left hlength _)

theorem flushVectors : AtMost 64 flushVectors := by
  refine update fun e => ?_
  have hlength := Cache.length_flushSlots (.vector e.layout) e.vectors.cache (List.finRange 32)
  rw [List.length_finRange] at hlength
  exact Nat.le_trans (Nat.le_of_eq (e.code.size_emitAll _)) (Nat.add_le_add_left hlength _)

theorem storeCarry {reg : HostReg} : AtMost 1 (storeCarry reg) := still get fun _ => emit

theorem flushCarry : AtMost 2 flushCarry := by
  have hcount : AtMost 0 (modify fun e : Emitter => { e with
      carry := .inGuestState
      stats := { e.stats with carryFlushes := e.stats.carryFlushes + 1 } }) :=
    update fun _ => Nat.le_refl _
  refine still get fun _ => ?_
  split
  · exact .pure _
  · exact .bind emit fun _ => .bind storeCarry fun _ => hcount
  · exact .bind emit fun _ => .bind storeCarry fun _ => hcount
  · exact mono (.bind storeCarry fun _ => hcount) (by decide)

theorem flushAll : AtMost 146 flushAll :=
  .bind flushCarry fun _ => .bind flushIntegers fun _ => flushVectors

/-! ## Calls -/

theorem lockRegs {regs : RegSet} : AtMost 512 (lockRegs regs) where
  size {e a e'} hrun := by
    have hregs : regs.toList.length ≤ 256 := by
      rw [RegSet.toList]
      exact Nat.le_trans (List.length_filter_le _ _) (Nat.le_of_eq (List.length_finRange))
    have hlength := Cache.length_lock (.integer e.layout) e.integers regs.toList
    have hsize := e.code.size_emitAll (Cache.lock (.integer e.layout) e.integers regs.toList).code
    unfold Emit.lockRegs at hrun
    rw [run_get_bind] at hrun
    dsimp only at hrun
    cases hfault : (Cache.lock (.integer e.layout) e.integers regs.toList).fault with
    | some fault =>
      rw [hfault] at hrun
      cases hrun
    | none =>
      rw [hfault] at hrun
      cases hrun
      refine Nat.le_trans (Nat.le_of_eq hsize) (Nat.add_le_add_left ?_ _)
      omega

theorem emitCall (call : PreparedCall) (setup teardown : List Inst) :
    AtMost (setup.length + teardown.length + 3) (emitCall call setup teardown) := by
  refine update fun e => Nat.le_trans (Nat.le_of_eq (e.code.size_emitAll _)) ?_
  refine Nat.add_le_add_left ?_ _
  have hstack : ∀ (saved : RegSet) (i : Inst), (if saved.isEmpty then [] else [i]).length ≤ 1 := by
    intro saved i
    split
    · exact Nat.zero_le 1
    · exact Nat.le_refl 1
  have hpush := hstack (call.saved e.integers) (.push (call.saved e.integers))
  have hpop := hstack (call.saved e.integers) (.pop (call.saved e.integers))
  simp only [PreparedCall.code, List.length_append, List.length_singleton]
  omega

theorem prepareCall {routine : Routine} : AtMost 512 (prepareCall routine) :=
  .bind lockRegs fun _ => .pure (n := 0) _

theorem finishCall {call : PreparedCall} : AtMost 0 (finishCall call) :=
  update fun _ => Nat.le_refl _

theorem updateClass {vector : HostReg} {single : Bool} :
    AtMost 516 (updateClass vector single) := by
  have hcall : ∀ (call : PreparedCall) (arg : HostReg),
      AtMost 4 (Emit.emitCall call [.fmovToGeneral .double arg vector] []) :=
    fun call arg => emitCall call [.fmovToGeneral .double arg vector] []
  refine still get fun _ => ?_
  refine ite ?_ (.pure _)
  exact .bind prepareCall fun _ => .bind (hcall _ _) fun _ => finishCall

/-! ## Arithmetic -/

theorem readFprIf {used : Bool} {reg : GuestReg} {other : HostReg} :
    AtMost 3 (readFprIf used reg other) := ite readFpr (.pure _)

theorem roundedIf {rounding : Bool} {src : HostReg} {lanes : Lanes} :
    AtMost 7 (roundedIf rounding src lanes) := by
  have hcode : ∀ dst : HostReg, AtMost 5 (Emit.emitAll (roundTo25Code dst src lanes)) :=
    fun dst => emitAll (roundTo25Code dst src lanes)
  have hround : ∀ dst : HostReg, AtMost 5 (roundTo25 dst src lanes) :=
    fun dst => ite (still throw fun _ => hcode dst) (hcode dst)
  have hrounded : AtMost 7 (roundedOperand src lanes) :=
    .bind scratchVector fun dst => .bind (hround dst) fun _ => .pure (n := 0) _
  refine ite ?_ (.pure _)
  rw [map_eq_pure_bind]
  exact .bind hrounded fun _ => .pure (n := 0) _

theorem releaseHeldVector : ∀ {temp : Option HostReg}, AtMost 0 (releaseHeldVector temp)
  | some _ => releaseVector
  | none => .pure _

theorem checkSingle {numbers : List Nat} {lowerOnly expected : Bool} :
    AtMost 0 (checkSingle numbers lowerOnly expected) :=
  still get fun _ => by
    split
    · exact throw
    · exact .pure _

theorem floatArith {form : FpForm} {op : FpArith} : AtMost 540 (floatArith form op) := by
  have hfinish : ∀ dst, AtMost 2 (Emit.emitAll (finishForm form dst)) := by
    intro dst
    refine (emitAll _).mono ?_
    cases form with
    | double => exact Nat.zero_le 2
    | single => exact Nat.le_refl 2
    | paired => exact Nat.le_succ 1
  have hsteps : AtMost _ (Lower.floatArith form op) := .bind flushCarry fun _ =>
    still get fun _ => .bind readFpr fun _ => .bind readFprIf fun _ => .bind readFprIf fun _ =>
      .bind roundedIf fun _ => .bind writeFpr fun _ => .bind emit fun _ =>
        still releaseHeldVector fun _ => .bind (hfinish _) fun _ => still checkSingle fun _ =>
          updateClass
  exact hsteps.mono (by decide)

/-! ## Conversions -/

section Conversions

variable {kind : Conversion} {call : PreparedCall} {dst src : HostReg}

theorem convertByRoutine : AtMost 11 (convertByRoutine kind call dst src) := by
  have hcall : ∀ setup teardown : Inst, AtMost 5 (Emit.emitCall call [setup] [teardown]) :=
    fun setup teardown => emitCall call [setup] [teardown]
  cases kind with
  | singleToDouble | doubleToSingle => exact (hcall _ _).mono (by decide)
  | singleToDoublePair => exact mono (.bind (hcall _ _) fun _ => hcall _ _) (by decide)
  | doubleToSinglePair => exact .bind (hcall _ _) fun _ => .bind (hcall _ _) fun _ => emit

theorem withFarPath {cond : Cond} {near : EmitM Unit} (hnear : AtMost n near) :
    AtMost (n + 13) (withFarPath kind call dst src cond near) := by
  have hlabel : AtMost 0 newLabel := ⟨fun h => by cases h; exact Nat.le_refl _⟩
  have hplace : ∀ label, AtMost 0 (placeLabel label) := fun _ => update fun _ => Nat.le_refl _
  have hswitch : ∀ region, AtMost 0 (switchTo region) := fun _ => update fun _ => Nat.le_refl _
  have hbranch : ∀ inst label, AtMost 1 (branchTo inst label) :=
    fun inst _ => update fun _ => Nat.le_of_eq (CodeBuffer.size_emit _ inst)
  have hsteps : AtMost _ (Lower.withFarPath kind call dst src cond near) :=
    still hlabel fun _ => still hlabel fun _ => .bind (hbranch _ _) fun _ => .bind hnear fun _ =>
      still (hplace _) fun _ => still (hswitch _) fun _ => still (hplace _) fun _ =>
      .bind convertByRoutine fun _ => .bind (hbranch _ _) fun _ => still (hswitch _) fun _ =>
      finishCall
  exact hsteps.mono (by omega)

theorem widenChecked : AtMost 20 (widenChecked kind call dst src) := by
  rw [widenChecked_eq]
  have hcheck : ∀ temp, AtMost 4 (Emit.emitAll (widenCheck kind temp src)) := by
    intro temp
    refine (emitAll _).mono ?_
    cases kind with
    | singleToDouble | doubleToSingle => exact (by decide : 2 ≤ 4)
    | singleToDoublePair | doubleToSinglePair => exact Nat.le_refl 4
  exact .bind scratchVector fun _ => .bind (hcheck _) fun _ => still releaseVector fun _ =>
    withFarPath emit

theorem narrowChecked : AtMost 23 (narrowChecked kind call dst src) := by
  have hkeep : ∀ temp, AtMost 14 (Lower.withFarPath kind call dst src kind.farCond do
      Emit.emit (.vmov dst temp)
      Emit.releaseVector temp) :=
    fun _ => withFarPath (.bind emit fun _ => releaseVector)
  cases hlower : kind.isLower with
  | true =>
    rw [narrowChecked_lower hlower]
    have hcheck : ∀ temp, AtMost 3 (Emit.emitAll [.fcvt kind.native temp src,
        .fabsSingle vectorScratch temp, .fcmpSingle vectorScratch]) :=
      fun temp => emitAll [_, .fabsSingle vectorScratch temp, _]
    exact mono (.bind scratchVector fun _ => .bind (hcheck _) fun _ => hkeep _) (by decide)
  | false =>
    rw [narrowChecked_pair hlower]
    have hcheck : ∀ temp mask, AtMost 5 (Emit.emitAll
        (.fcvt kind.native temp src :: bothNonzeroCode mask temp)) :=
      fun temp mask => emitAll (_ :: bothNonzeroCode mask temp)
    exact .bind scratchVector fun _ => .bind scratchVector fun _ => .bind (hcheck _ _) fun _ =>
      still releaseVector fun _ => hkeep _

theorem convertRegs {fast : Bool} : AtMost 535 (convertRegs kind dst src fast) :=
  .bind prepareCall fun _ => still get fun _ => ite
    (ite (widenChecked.mono (by decide)) narrowChecked)
    (mono (.bind convertByRoutine fun _ => finishCall) (by decide))

theorem convert {src dst : GuestReg} : AtMost 543 (convert kind src dst) :=
  .bind flushCarry fun _ => .bind readFpr fun _ => still get fun _ => .bind writeFpr fun _ =>
    convertRegs

end Conversions

/-! ## Words -/

theorem deferWord : AtMost 147 deferWord := by
  have hcount : AtMost 0 (modify fun e : Emitter => { e with
      vectors := e.vectors.resetPrecision
      stats := { e.stats with deferred := e.stats.deferred + 1 } }) :=
    update fun _ => Nat.le_refl _
  exact .bind flushAll fun _ => still get fun _ => .bind emit fun _ => hcount

theorem endInstruction : AtMost 0 endInstruction := by
  have hintegers : AtMost 0 endIntegers := by
    refine ⟨fun {e a e'} hrun => ?_⟩
    unfold endIntegers at hrun
    rw [run_get_bind] at hrun
    split at hrun
    · cases hrun
    · cases hrun
      exact Nat.le_refl _
  have hvectors : AtMost 0 endVectors := by
    refine ⟨fun {e a e'} hrun => ?_⟩
    unfold endVectors at hrun
    rw [run_get_bind] at hrun
    split at hrun
    · cases hrun
    · cases hrun
      exact Nat.le_refl _
  exact .bind hintegers fun _ => hvectors

/-- A word whose code is one floating-point operation, or a call of the interpreter. -/
theorem compileWord {word : Word} {form : FpForm} {op : FpArith}
    (hop : Op.decode word = some (.float (.arith form op))) :
    AtMost 540 (Compiler.compileWord word) := by
  have hcount : AtMost 0 (modify fun e : Emitter =>
      { e with stats := { e.stats with lowered := e.stats.lowered + 1 } }) :=
    update fun _ => Nat.le_refl _
  unfold Compiler.compileWord
  rw [hop]
  refine still get fun e => ?_
  cases e.config.deferral? word with
  | none => exact .bind floatArith fun _ => hcount
  | some reason => exact deferWord.mono (by decide)

end AtMost

theorem CodeBuffer.size_finish {b : CodeBuffer} {code : Array Inst} (h : b.finish = .ok code) :
    code.size = b.size := by
  have hmap := congrArg Array.size (CodeBuffer.map_finish (f := fun _ => ()) (fun _ _ => rfl) h)
  rwa [Array.size_map, Array.size_map, Array.size_append] at hmap

end Emit

namespace Block

theorem size_assemble {n : Nat} {compiler : Compiler} {prog : EmitM Unit} {block : CompiledBlock}
    (h : AtMost n prog) (hblock : compiler.assemble prog = .ok block) :
    block.code.size ≤ n + 147 := by
  have hclose : AtMost 147 Compiler.closeBlock := .bind .flushAll fun _ => .emit
  unfold Compiler.assemble at hblock
  split at hblock
  · cases hblock
  · next e hprog =>
    unfold Compiler.finish at hblock
    split at hblock
    · cases hblock
    · next e₁ hclosed =>
      unfold Compiler.collected at hblock
      split at hblock
      · cases hblock
      · next code hcode =>
        cases hblock
        have hstart : (Emitter.new compiler.config compiler.layout).code.size = 0 := rfl
        have hleft := h.size hprog
        have hright := hclose.size hclosed
        have hfinal := CodeBuffer.size_finish hcode
        dsimp only
        omega

section Sizes

variable {compiler : Compiler} {block : CompiledBlock}

theorem size_compileConversion {kind : Conversion} {src dst : GuestReg} {hints : Hints}
    (hblock : compiler.compileConversion kind src dst hints = .ok block) :
    block.code.size ≤ Machine.stepLimit := by
  have hbegin : AtMost 0 (beginInstruction 0 hints none) := .update fun _ => Nat.le_refl _
  have hsteps : AtMost 543 (do
      beginInstruction 0 hints none
      convert kind src dst
      endInstruction) :=
    .still hbegin fun _ => .bind .convert fun _ => .endInstruction
  have heq : compiler.compileConversion kind src dst hints = compiler.assemble _ :=
    dif_pos ⟨src.isLt, dst.isLt⟩
  have hsize : block.code.size ≤ 543 + 147 := size_assemble hsteps (heq ▸ hblock)
  exact Nat.le_trans hsize (by decide)

/-- The block of one floating-point operation is small. -/
theorem size_compile_arith {word : Word} {form : FpForm} {op : FpArith}
    (hop : Op.decode word = some (.float (.arith form op)))
    (hblock : compiler.compile [word] none = .ok block) : block.code.size ≤ Machine.stepLimit := by
  have hbegin : ∀ hints next, AtMost 0 (beginInstruction word hints next) :=
    fun _ _ => .update fun _ => Nat.le_refl _
  have hwords : ∀ hints : Hints, AtMost 540 (Compiler.compileWords [(word, hints)]) :=
    fun _ => .still (hbegin _ _) fun _ => .bind (.compileWord hop) fun _ =>
      .bind .endInstruction fun _ => .pure (n := 0) _
  have hsize : block.code.size ≤ 540 + 147 := size_assemble (hwords _) hblock
  exact Nat.le_trans hsize (by decide)

end Sizes

end Block

end Recompiler
