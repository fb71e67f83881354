import Recompiler.Proofs.CodeSize
import Recompiler.Proofs.NativeConversion
import Recompiler.Proofs.QuietCode

/-!
# Blocks of one conversion

A conversion compiles with any settings and hints. Its block gives the destination what loads and
stores make of the operand, by either path, and changes nothing else in the state block.
-/

namespace Recompiler

open Alloc Arm Block Emit Lower PowerPC

namespace Emit

variable {P : Permits} [Allows P] {kind : Conversion} {call : PreparedCall}
  {dst src : HostReg} {e e' : Emitter}

/-! ## The code of a conversion -/

namespace Emits

theorem convertByRoutine : Emits P (convertByRoutine kind call dst src) := by
  cases kind with
  | singleToDouble | doubleToSingle => exact emitCall rfl rfl
  | singleToDoublePair => exact .bind (emitCall rfl rfl) fun _ => emitCall rfl rfl
  | doubleToSinglePair =>
    exact .bind (emitCall rfl rfl) fun _ => .bind (emitCall rfl rfl) fun _ => emit rfl

theorem withFarPath {cond : Cond} {near : EmitM Unit} (hnear : Emits P near) :
    Emits P (withFarPath kind call dst src cond near) :=
  .bind newLabel fun _ => .bind newLabel fun _ => .bind (branchTo rfl) fun _ => .bind hnear fun _ =>
    .bind placeLabel fun _ => .bind switchTo fun _ => .bind placeLabel fun _ =>
    .bind convertByRoutine fun _ => .bind (branchTo rfl) fun _ => .bind switchTo fun _ => finishCall

theorem widenChecked : Emits P (widenChecked kind call dst src) := by
  rw [widenChecked_eq]
  refine .bind scratchVector fun temp => .bind (emitAll ?_) fun _ => .bind releaseVector fun _ =>
    withFarPath (emit rfl)
  cases kind <;> rfl

theorem narrowChecked : Emits P (narrowChecked kind call dst src) := by
  have hkeep : ∀ temp, Emits P (Lower.withFarPath kind call dst src kind.farCond do
      Emit.emit (.vmov dst temp)
      Emit.releaseVector temp) :=
    fun _ => withFarPath (.bind (emit rfl) fun _ => releaseVector)
  cases hlower : kind.isLower with
  | true =>
    rw [narrowChecked_lower hlower]
    exact .bind scratchVector fun temp => .bind (emitAll rfl) fun _ => hkeep temp
  | false =>
    rw [narrowChecked_pair hlower]
    exact .bind scratchVector fun temp => .bind scratchVector fun _ => .bind (emitAll rfl) fun _ =>
      .bind releaseVector fun _ => hkeep temp

theorem convertRegs {fast : Bool} : Emits P (convertRegs kind dst src fast) :=
  .bind prepareCall fun _ => .bind get fun _ => ite
    (fun _ => ite (fun _ => widenChecked) fun _ => narrowChecked)
    fun _ => .bind convertByRoutine fun _ => finishCall

end Emits

/-- With the carry in memory, a conversion does not touch it. -/
theorem moves_convert {src dst : GuestReg} (hcarry : e.carry = .inGuestState)
    (h : (convert kind src dst).run.run e = (.ok (), e')) : e.Moves P e' := by
  have hrest : Emits P (do
      let old ← readFpr src
      let e ← get
      let fast := !kind.toDouble && !e.config.exactConversions &&
        e.vectors.isSingle src kind.isLower && e.isStoreSafe src
      let new ← writeFpr dst false (if kind.toDouble then .bothSingle else .double)
      convertRegs kind new old fast) :=
    .bind .readFpr fun _ => .bind .get fun _ => .bind .writeFpr fun _ => .convertRegs
  exact hrest.moves ((run_bind_ok (run_flushCarry hcarry)).symm.trans h)

/-! ## The block -/

section Blocks

variable {s : Setting} {m : Machine}

/-- The steps of a block of one conversion. -/
def convertBlock (kind : Conversion) (src dst : GuestReg) (hints : Hints) : EmitM Unit := do
  beginInstruction 0 hints none
  convert kind src dst
  endInstruction

theorem compileConversion_eq (compiler : Compiler) (kind : Conversion) (src dst : GuestReg)
    (hints : Hints) : compiler.compileConversion kind src dst hints =
      compiler.assemble (convertBlock kind src dst hints) :=
  dif_pos ⟨src.isLt, dst.isLt⟩

/-- Whether the block tries the host's conversion. -/
def Setting.triesNative (s : Setting) (kind : Conversion) (src : GuestReg) (hints : Hints) : Bool :=
  kind.triesNative s.config
    (kind.fast (s.reading 0 hints none) (seeded (.replicate 32 .double) hints.singles) src)

/-- Narrowing by the host is tried only if the hints allow it. -/
theorem Setting.narrows_of_triesNative {src : GuestReg} {hints : Hints}
    (hkind : kind.toDouble = false) (h : s.triesNative kind src hints = true) :
    hints.singles.getLsbD src = true ∧ hints.storeSafe.getLsbD src = true := by
  unfold Setting.triesNative Conversion.triesNative Conversion.fast at h
  rw [hkind, if_neg Bool.false_ne_true, get_seeded, Bank.get_replicate] at h
  simp only [Bool.and_eq_true] at h
  refine ⟨?_, h.2⟩
  have hsingle := h.1.2
  split at hsingle
  · assumption
  · cases kind <;> cases hsingle

theorem Setting.convertBlock_spec (hm : s.Hosts m) (kind : Conversion) (src dst : GuestReg)
    (hints : Hints) : wp (convertBlock kind src dst hints) (fun _ e m' => ∃ p,
      Boundary (s.reading 0 hints none) .inGuestState p ((Contents.ofState m.state).setPs dst
        (kind.value (s.triesNative kind src hints) s.flush (m.state.fetch (.ps src)))) e m')
      (.new s.config s.layout) m := by
  refine wp_bind ((Boundary.start hm).begin_spec 0 hints none) ?_
  rintro - e₁ m₁ h₁
  have hroom : 5 ≤ (s.reading 0 hints none).vecs.order.length := (s.accepted.goodPool .vector).size
  refine wp_bind (Sim.convert_spec (h₁.weakenV hroom) kind src dst) ?_
  rintro - e₂ m₂ ⟨k, kv, h₂⟩
  refine wp_mono h₂.end_spec ?_
  rintro - e₃ m₃ ⟨h₃, -, -⟩
  exact ⟨_, h₃⟩

/-- The code of a conversion is quiet. -/
theorem isQuiet_convertBlock {src dst : GuestReg} {hints : Hints} {e : Emitter}
    (h : (convertBlock kind src dst hints).run.run (.new s.config s.layout) = (.ok (), e)) :
    e.IsQuiet ∧ e.layout = s.layout := by
  obtain ⟨⟨⟩, e₁, hbegin, hrest⟩ := run_bind_eq_ok h
  obtain ⟨⟨⟩, e₂, hconvert, hend⟩ := run_bind_eq_ok hrest
  cases hbegin
  have hmoves := (moves_convert (P := Quiet) rfl hconvert).trans (Emits.endInstruction.moves hend)
  refine ⟨Emitter.Moves.isQuiet hmoves ?_, Emitter.Moves.layout_eq hmoves⟩
  intro region i hi
  cases region <;> cases hi

theorem Contents.cell_setPs {layout : Layout} {state : State} (hon : state.On layout)
    (hv : layout.Valid) (reg : GuestReg) (v : BitVec 128) {cell : PowerPC.Cell}
    (hcell : cell.inXer = false) :
    ((Contents.ofState state).setPs reg v).cell cell = (state.put (.ps reg) v).fetch cell := by
  have hother : ∀ cell : PowerPC.Cell, cell ≠ .ps reg →
      (state.put (.ps reg) v).fetch cell = state.fetch cell :=
    fun _ hne => hon.fetch_put_of_ne hv _ _ hne
  cases cell with
  | ps other =>
    by_cases heq : other = reg
    · subst heq
      rw [hon.fetch_put_self hv]
      exact Function.update_self ..
    · rw [hother _ (fun he => heq (PowerPC.Cell.ps.inj he))]
      exact Function.update_of_ne heq ..
  | gpr | cr | fpscr =>
    rw [hother]
    · rfl
    · nofun
  | xerCa | xerSoOv => cases hcell

/-- A block of one conversion converts and changes nothing else. -/
theorem Setting.conversion_takes (hm : s.Hosts m) (kind : Conversion) (src dst : GuestReg)
    (hints : Hints) : ∃ block m',
      s.compiler.compileConversion kind src dst hints = .ok block ∧ block.Takes m m' ∧
      m'.state = m.state.put (.ps dst)
        (kind.value (s.triesNative kind src hints) s.flush (m.state.fetch (.ps src))) := by
  obtain ⟨⟨⟩, e, m₁, hrun, hruns, p, hboundary⟩ := s.convertBlock_spec hm kind src dst hints
  obtain ⟨hquiet, hlayout⟩ := isQuiet_convertBlock hrun
  obtain ⟨block, e₁, m', hclose⟩ := hboundary.closes
  have htakes := hclose.takes hruns
  refine ⟨block, m', ?_, htakes, ?_⟩
  · rw [compileConversion_eq, s.assemble_eq hrun]
    exact hclose.finished
  · have hcode := hquiet.finish hboundary.fixed.carry hclose.finished
    rw [hlayout] at hcode
    have hspares := Spares.runFrom s.valid (m := m) ⟨hm.on, fun _ _ => rfl⟩ hcode block.code.size 0
    rw [htakes _ (Nat.le_refl _)] at hspares
    refine hspares.on.ext (hm.on.put s.valid _ _) s.valid ?_ ?_
    · intro cell hcell
      rw [hclose.memory cell (by rintro rfl; cases hcell)]
      exact Contents.cell_setPs hm.on s.valid dst _ hcell
    · intro k hk
      have hout : ¬(PowerPC.Cell.ps dst).Covers s.layout k := fun hcovers => by cases hk _ hcovers
      rw [hspares.byte k hk, hm.on.byte_put s.valid hout]

end Blocks

end Emit

namespace Block

/-- A block of one conversion runs to its exit, in no more steps than it has instructions. It leaves
what loads and stores make of the operand in the destination, and the rest of the state block as it
was. This holds on either path, whatever the host does with denormal numbers; narrowing relies on
hints that mark the operand as single and rounded only if it is. -/
theorem conversions_are_exact {config : Config} {layout : Layout} {compiler : Compiler}
    (hnew : Compiler.new config layout = .ok compiler) (kind : Conversion) (src dst : GuestReg)
    (hints : Hints) {m : Machine} (hon : m.state.On layout) (hstack : m.stack = [])
    (hexact : kind.toDouble = false → hints.singles.getLsbD src = true →
      hints.storeSafe.getLsbD src = true → kind.Narrows (m.state.fetch (.ps src))) :
    ∃ block m', compiler.compileConversion kind src dst hints = .ok block ∧
      m.run block.code = (m', none) ∧ block.Takes m m' ∧
      m'.state = m.state.put (.ps dst) (kind.exact (m.state.fetch (.ps src))) := by
  obtain ⟨haccepted, rfl⟩ := Compiler.new_eq_ok hnew
  let s : Setting := ⟨config, layout, haccepted, 0, hints, none, m.flush, m.interpreter⟩
  have hm : s.Hosts m := ⟨hon, hstack, rfl, rfl⟩
  obtain ⟨block, m', hblock, htakes, hstate⟩ := s.conversion_takes hm kind src dst hints
  refine ⟨block, m', hblock, htakes _ (size_compileConversion hblock), htakes,
    hstate.trans (congrArg _ (kind.value_eq_exact _ _ _ ?_))⟩
  intro hnarrow hnative
  obtain ⟨hsingle, hsafe⟩ := s.narrows_of_triesNative hnarrow hnative
  exact hexact hnarrow hsingle hsafe

/-- The least denormal single beside one and a half, narrowed in place on a host that flushes. -/
theorem denormal_pair_narrows_in_place :
    let v : BitVec 128 := 0x36A00000000000003FF8000000000000
    let m : Machine := { state := (State.zeros .standard).put (.ps 3) v, flush := true }
    Conversion.Narrows .doubleToSinglePair v ∧ ∃ block m',
      Compiler.compileConversion ⟨{}, .standard⟩ .doubleToSinglePair 3 3
        { singles := 8, storeSafe := 8 } = .ok block ∧
      m.run block.code = (m', none) ∧ m'.state = m.state.put (.ps 3) 0x000000013FC00000 := by
  intro v m
  have hstate : ∀ {state : State} {I : State → Prop}, I state →
      I ({ state, flush := true } : Machine).state := fun h => h
  have hzeros := State.On.zeros .standard
  have hon := hstate (hzeros.put Layout.valid_standard (.ps 3) v)
  have hfetch := hstate (I := fun state => state.fetch (.ps 3) = v)
    (hzeros.fetch_put_self Layout.valid_standard (.ps 3) v)
  have hnarrows : Conversion.Narrows .doubleToSinglePair v :=
    ⟨by decide +kernel, fun _ => by decide +kernel⟩
  have hnew : Compiler.new {} .standard = .ok ⟨{}, .standard⟩ := rfl
  obtain ⟨block, m', hblock, hrun, -, hafter⟩ := conversions_are_exact hnew .doubleToSinglePair 3 3
    { singles := 8, storeSafe := 8 } hon rfl fun _ _ _ => hfetch.symm ▸ hnarrows
  have hvalue : Conversion.exact .doubleToSinglePair v = 0x000000013FC00000 := by decide +kernel
  rw [hfetch, hvalue] at hafter
  exact ⟨hnarrows, block, m', hblock, hrun, hafter⟩

end Block

end Recompiler
