import Recompiler.Emit.Call
import Recompiler.Proofs.BranchPiece

/-!
# Reasoning about steps of compilation

`wp prog Q e m` says that the step `prog` succeeds from emitter `e`, that machine `m` runs through
the code that it emits, and that `Q` holds of the result, the new emitter and the new machine. Steps
are followed one by one with the machine beside them.
-/

namespace Recompiler.Emit

open Alloc Arm

variable {α β : Type} {e e' : Emitter} {m m' : Machine}

def wp (prog : EmitM α) (Q : α → Emitter → Machine → Prop) (e : Emitter) (m : Machine) : Prop :=
  ∃ a e' m', prog.run.run e = (.ok a, e') ∧ e.code.Runs e'.code m m' ∧ Q a e' m'

theorem wp_mono {prog : EmitM α} {P Q : α → Emitter → Machine → Prop} (h : wp prog P e m)
    (hq : ∀ a e' m', P a e' m' → Q a e' m') : wp prog Q e m := by
  obtain ⟨a, e', m', hrun, hruns, hp⟩ := h
  exact ⟨a, e', m', hrun, hruns, hq a e' m' hp⟩

theorem run_bind_ok {prog : EmitM α} {f : α → EmitM β} {a : α}
    (h : prog.run.run e = (.ok a, e')) : (prog >>= f).run.run e = (f a).run.run e' := by
  rw [ExceptT.run_bind, StateT.run_bind, h]
  rfl

theorem wp_bind {prog : EmitM α} {f : α → EmitM β} {P : α → Emitter → Machine → Prop}
    {Q : β → Emitter → Machine → Prop} (h : wp prog P e m)
    (hf : ∀ a e' m', P a e' m' → wp (f a) Q e' m') : wp (prog >>= f) Q e m := by
  obtain ⟨a, e₁, m₁, hrun, hruns, hp⟩ := h
  obtain ⟨b, e₂, m₂, hrun', hruns', hq⟩ := hf a e₁ m₁ hp
  exact ⟨b, e₂, m₂, (run_bind_ok hrun).trans hrun', hruns.trans hruns', hq⟩

theorem wp_pure {a : α} {Q : α → Emitter → Machine → Prop} (h : Q a e m) :
    wp (pure a) Q e m :=
  ⟨a, e, m, rfl, .refl _ _, h⟩

theorem wp_map {prog : EmitM α} {P : α → Emitter → Machine → Prop} (g : α → β)
    (h : wp prog P e m) : wp (g <$> prog) (fun b e' m' => ∃ a, b = g a ∧ P a e' m') e m := by
  rw [map_eq_pure_bind]
  exact wp_bind h fun a _ _ hp => wp_pure ⟨a, rfl, hp⟩

/-- A step that only looks at the emitter. -/
theorem wp_look {prog : EmitM α} {f : α → EmitM β} {Q : β → Emitter → Machine → Prop} {a : α}
    (hrun : prog.run.run e = (.ok a, e)) (h : wp (f a) Q e m) : wp (prog >>= f) Q e m := by
  obtain ⟨b, e', m', hrun', hruns, hq⟩ := h
  exact ⟨b, e', m', (run_bind_ok hrun).trans hrun', hruns, hq⟩

theorem run_get_bind (f : Emitter → EmitM β) (e : Emitter) :
    (get >>= f).run.run e = (f e).run.run e := rfl

theorem wp_get {f : Emitter → EmitM β} {Q : β → Emitter → Machine → Prop} (h : wp (f e) Q e m) :
    wp (get >>= f) Q e m := wp_look rfl h

/-- A change of the emitter that leaves the code alone. -/
theorem wp_modify {g : Emitter → Emitter} {Q : Unit → Emitter → Machine → Prop}
    (hcode : (g e).code = e.code) (h : Q () (g e) m) : wp (modify g) Q e m := by
  refine ⟨(), g e, m, rfl, ?_, h⟩
  rw [hcode]
  exact .refl _ _

theorem wp_emit {inst : Inst} {Q : Unit → Emitter → Machine → Prop} (hok : e.code.Ok)
    (hs : m.step inst = .next m') (h : Q () { e with code := e.code.emit inst } m') :
    wp (emit inst) Q e m :=
  ⟨(), _, m', rfl, .emit hok hs, h⟩

theorem wp_emitAll {insts : List Inst} {Q : Unit → Emitter → Machine → Prop} (hok : e.code.Ok)
    (hs : m.execAll insts = some m') (h : Q () { e with code := e.code.emitAll insts } m') :
    wp (emitAll insts) Q e m :=
  ⟨(), _, m', rfl, .emitAll hok hs, h⟩

theorem wp_emitAll_nil {Q : Unit → Emitter → Machine → Prop} (h : Q () e m) :
    wp (emitAll []) Q e m := ⟨(), e, m, rfl, .refl _ _, h⟩

theorem wp_emitAll_cons {inst : Inst} {insts : List Inst} {Q : Unit → Emitter → Machine → Prop}
    (h : wp (do emit inst; emitAll insts) Q e m) : wp (emitAll (inst :: insts)) Q e m := h

/-- A step whose beginning changes nothing but the code, and ends as another step. -/
theorem wp_of_run {prog rest : EmitM α} {Q : α → Emitter → Machine → Prop}
    (hrun : prog.run.run e = rest.run.run e') (hruns : e.code.Runs e'.code m m')
    (h : wp rest Q e' m') : wp prog Q e m := by
  obtain ⟨a, e₁, m₁, hrest, hruns₁, hq⟩ := h
  exact ⟨a, e₁, m₁, hrun.trans hrest, hruns.trans hruns₁, hq⟩

/-- A step that begins with writing a piece of code. -/
theorem wp_writes {prog rest : EmitM α} {Q : α → Emitter → Machine → Prop} {steps : List Asm}
    {p : Piece} (hw : CodeBuffer.Writes steps p) (hp : p.Ok) (hok : e.code.Ok)
    (hrun : prog.run.run e =
      rest.run.run { e with code := e.code.writeAll e.code.labels.size steps })
    (hm : p.run p.size ⟨.near, 0⟩ m = some m')
    (h : (e.code.writeAll e.code.labels.size steps).Ok →
      wp rest Q { e with code := e.code.writeAll e.code.labels.size steps } m') :
    wp prog Q e m := by
  have hf := hw.follows hok.region
  exact wp_of_run hrun (hf.runs hok hp hm) (h (hf.ok hok hp))

theorem run_newLabel (rest : Nat → EmitM α) : (newLabel >>= rest).run.run e =
    (rest e.code.labels.size).run.run { e with code := e.code.addLabel } := rfl

theorem run_emitAll (insts : List Inst) (rest : Unit → EmitM α) :
    (emitAll insts >>= rest).run.run e =
      (rest ()).run.run { e with code := e.code.emitAll insts } := rfl

theorem run_branchTo (inst : Inst) (label : Nat) (rest : Unit → EmitM α) :
    (branchTo inst label >>= rest).run.run e =
      (rest ()).run.run { e with code := e.code.branchTo inst label } := rfl

theorem run_placeLabel (label : Nat) (rest : Unit → EmitM α) :
    (placeLabel label >>= rest).run.run e =
      (rest ()).run.run { e with code := e.code.placeLabel label } := rfl

theorem run_switchTo (region : Region) (rest : Unit → EmitM α) :
    (switchTo region >>= rest).run.run e =
      (rest ()).run.run { e with code := e.code.switchTo region } := rfl

theorem size_labels_addLabel (b : CodeBuffer) : b.addLabel.labels.size = b.labels.size + 1 :=
  Array.size_push _

end Recompiler.Emit
