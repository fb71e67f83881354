import Recompiler.Proofs.CarrySteps

/-!
# Operands and results

The shapes that the code of integer instructions is made of: operands that are constants or in
registers, destinations that are bound after them, and results that are recorded.
-/

namespace Recompiler

open Alloc Arm Block PowerPC Emit

/-- An operand stands for a word. -/
def Lower.Source.Is (src : Lower.Source) (e : Emitter) (m : Machine) (w : BitVec 32) : Prop :=
  match src with
  | .constant v => v = w
  | .reg r => e.Has m r (ofWord w)

theorem Lower.Source.Is.keeps {src : Lower.Source} {e e' : Emitter} {m m' : Machine}
    {w : BitVec 32} (h : src.Is e m w) (hk : Keeps e m e' m') : src.Is e' m' w := by
  cases src with
  | constant v => exact h
  | reg r => exact hk.has h

namespace Emit

open Lower

/-- The end of an instruction's code: everything is given back, and the contents are the given
ones. -/
def Ends (s : Setting) (f : FloatStage) (c : Contents) (e : Emitter) (m : Machine) : Prop :=
  ∃ k carry, Sim s ⟨⟨k, .empty, .empty, none⟩, carry, f⟩ c e m

variable {α : Type} {s : Setting} {c : Contents} {e e' : Emitter} {m m' : Machine} {k : Nat}
  {held locked : RegSet} {hole : Option IntSlot} {carry : Carry} {f : FloatStage} {dst : HostReg}
  {inst : Inst} {w : BitVec 32} {reg a b d : GuestReg} {Q : α → Emitter → Machine → Prop}

theorem Sim.ends (h : Sim s ⟨⟨k, .empty, .empty, none⟩, carry, f⟩ c e m) {c' : Contents}
    (hc : c = c') : Ends s f c' e m :=
  hc ▸ ⟨k, carry, h⟩

/-- A step that is the last of an instruction. -/
theorem wp_ends {prog : EmitM α} (h : wp prog (fun _ e' m' =>
      Sim s ⟨⟨k, .empty, .empty, none⟩, carry, f⟩ c e' m') e m) {c' : Contents} (hc : c = c') :
    wp prog (fun _ => Ends s f c') e m :=
  wp_mono h fun _ _ _ h' => h'.ends hc

/-- A program that ends with the carry, wherever that is kept from then on. -/
theorem wp_ends_carry {prog : EmitM α} (h : wp prog (fun _ e' m' =>
      ∃ carry', Sim s ⟨⟨k, .empty, .empty, none⟩, carry', f⟩ c e' m' ∧ Keeps e m e' m') e m)
    {c' : Contents} (hc : c = c') : wp prog (fun _ => Ends s f c') e m :=
  wp_mono h fun _ _ _ ⟨_, h', _⟩ => h'.ends hc

/-- The last instruction and the record of its result. -/
theorem Sim.emitRecord
    (h : Sim s ⟨⟨k + 1, held, locked, some (IntSlot.gpr reg)⟩, carry, f⟩ c e m)
    (hb : e.integers.Bound (IntSlot.gpr reg) dst)
    (hs : m.step inst = .next (m.setX dst (ofWord w))) : wp (do emit inst; record dst)
      (fun _ e' m' => Sim s ⟨⟨k, held, locked, none⟩, carry, f⟩
        ((c.setGpr reg w).recorded s.word.rc w) e' m') e m := by
  refine wp_bind (h.emitGpr hb hs) ?_
  rintro - e₁ m₁ ⟨h₁, -, hv⟩
  exact h₁.record_spec hv

/-- The same when a scratch register is given back in between. -/
theorem Sim.emitReleaseRecord {temp : HostReg}
    (h : Sim s ⟨⟨k, held.insert temp, locked, some (IntSlot.gpr reg)⟩, carry, f⟩ c e m)
    (hb : e.integers.Bound (IntSlot.gpr reg) dst)
    (hs : m.step inst = .next (m.setX dst (ofWord w))) (hheld : held.contains temp = false) :
    wp (do emit inst; release temp; record dst)
      (fun _ e' m' => Sim s ⟨⟨k, held, locked, none⟩, carry, f⟩
        ((c.setGpr reg w).recorded s.word.rc w) e' m') e m := by
  refine wp_bind (h.emitGpr hb hs) ?_
  rintro - e₁ m₁ ⟨h₁, hk₁, hv⟩
  refine wp_bind (h₁.release_spec hheld) ?_
  rintro - e₂ m₂ ⟨h₂, hk₂, -⟩
  have hne : dst ≠ temp := h.bound_ne_held hb (RegSet.contains_insert_self _ _)
  exact h₂.record_spec (hk₂.has hne hv)

/-- A destination is bound, written by one instruction and recorded. -/
theorem Sim.writeRecord (h : Sim s ⟨⟨k + 2, held, locked, none⟩, carry, f⟩ c e m)
    {inst : HostReg → Inst} (hs : ∀ rd e' m', Keeps e m e' m' →
      m'.step (inst rd) = .next (m'.setX rd (ofWord w))) :
    wp (do let rd ← writeGpr d false; emit (inst rd); record rd)
      (fun _ e' m' => Sim s ⟨⟨k, held, locked, none⟩, carry, f⟩
        ((c.setGpr d w).recorded s.word.rc w) e' m') e m := by
  refine wp_bind (h.writeSlot_spec (IntSlot.gpr d) false) ?_
  rintro rd e₁ m₁ ⟨h₁, hk₁, hd, -⟩
  exact h₁.emitRecord hd (hs rd e₁ m₁ hk₁)

/-- One register is read and another is bound. -/
theorem Sim.readWrite (h : Sim s ⟨⟨k + 2, held, locked, none⟩, carry, f⟩ c e m)
    {next : HostReg → HostReg → EmitM α}
    (hnext : ∀ ra rd e' m', Sim s ⟨⟨k, held, locked, some (IntSlot.gpr d)⟩, carry, f⟩ c e' m' →
      Keeps e m e' m' → e'.Has m' ra (ofWord (c.gpr a)) →
      e'.integers.Bound (IntSlot.gpr d) rd → wp (next ra rd) Q e' m') :
    wp (do let ra ← readGpr a; let rd ← writeGpr d false; next ra rd) Q e m := by
  refine wp_bind (h.readGpr_spec a) ?_
  rintro ra e₁ m₁ ⟨h₁, hk₁, ha, -⟩
  refine wp_bind (h₁.writeSlot_spec (IntSlot.gpr d) false) ?_
  rintro rd e₂ m₂ ⟨h₂, hk₂, hd, -⟩
  exact hnext ra rd e₂ m₂ h₂ (hk₁.trans hk₂) (hk₂.has ha) hd

/-- Two registers are read and another is bound. -/
theorem Sim.readReadWrite (h : Sim s ⟨⟨k + 3, held, locked, none⟩, carry, f⟩ c e m)
    {next : HostReg → HostReg → HostReg → EmitM α}
    (hnext : ∀ ra rb rd e' m', Sim s ⟨⟨k, held, locked, some (IntSlot.gpr d)⟩, carry, f⟩ c e' m' →
      e'.Has m' ra (ofWord (c.gpr a)) → e'.Has m' rb (ofWord (c.gpr b)) →
      e'.integers.Bound (IntSlot.gpr d) rd → wp (next ra rb rd) Q e' m') :
    wp (do let ra ← readGpr a; let rb ← readGpr b; let rd ← writeGpr d false; next ra rb rd) Q e
      m := by
  refine wp_bind (h.readGpr_spec a) ?_
  rintro ra e₁ m₁ ⟨h₁, -, ha, -⟩
  refine h₁.readWrite ?_
  intro rb rd e₂ m₂ h₂ hk₂ hb hd
  exact hnext ra rb rd e₂ m₂ h₂ (hk₂.has ha) hb hd

/-! ## Operands -/

theorem Sim.source_spec (h : Sim s ⟨⟨k + 1, held, locked, none⟩, carry, f⟩ c e m)
    (reg : GuestReg) : wp (source reg) (fun src e' m' =>
      Sim s ⟨⟨k, held, locked, none⟩, carry, f⟩ c e' m' ∧ Keeps e m e' m' ∧
        src.Is e' m' (c.gpr reg)) e m := by
  refine wp_look rfl ?_
  cases hc : e.gprConstant? reg with
  | some v => exact wp_pure ⟨h.weaken (Nat.le_succ k), .refl e m, (h.gprConstant_eq hc).symm⟩
  | none =>
    refine wp_bind (h.readGpr_spec reg) ?_
    rintro r e₁ m₁ ⟨h₁, hk₁, hr, -⟩
    exact wp_pure ⟨h₁, hk₁, hr⟩

/-- A scratch register that holds a constant. -/
theorem Sim.scratchConstant_spec (h : Sim s ⟨⟨k + 1, held, locked, hole⟩, carry, f⟩ c e m)
    (w : BitVec 32) : wp (scratchConstant w) (fun r e' m' =>
      Sim s ⟨⟨k, held.insert r, locked, hole⟩, carry, f⟩ c e' m' ∧ Keeps e m e' m' ∧
        held.contains r = false ∧ e'.Has m' r (ofWord w) ∧
        ∀ q, e.integers.Owns q → q ≠ r) e m := by
  refine wp_bind h.scratch_spec ?_
  rintro r e₁ m₁ ⟨h₁, hk₁, hheld, hown, hne⟩
  refine wp_bind (h₁.emitHeld (RegSet.contains_insert_self _ _) rfl) ?_
  rintro - e₂ m₂ ⟨h₂, hk₂, hv⟩
  exact wp_pure ⟨h₂, hk₁.but hk₂ hne, hheld, hv, hne⟩

/-! ## Results -/

/-- A copy of a register into the destination, which may be the register itself. -/
theorem Sim.emitMove_spec (h : Sim s ⟨⟨k, held, locked, some (IntSlot.gpr reg)⟩, carry, f⟩ c e m)
    (hb : e.integers.Bound (IntSlot.gpr reg) dst) {src : HostReg} (hsrc : e.Has m src (ofWord w)) :
    wp (emitMove dst src) (fun _ e' m' =>
      Sim s ⟨⟨k, held, locked, none⟩, carry, f⟩ (c.setGpr reg w) e' m' ∧ KeepsBut dst e m e' m' ∧
        e'.Has m' dst (ofWord w)) e m := by
  unfold emitMove
  split
  · apply h.emitGpr hb
    simp only [Machine.step, UnaryOp.eval, hsrc.val, low_ofWord]
  · next heq =>
    have hds : dst = src := by simpa using heq
    subst hds
    exact wp_pure ⟨h.closeGpr hb hsrc.val, (SameBut.refl dst m).keeps rfl rfl, hsrc⟩

theorem Sim.emitAddConstant_spec
    (h : Sim s ⟨⟨k, held, locked, some (IntSlot.gpr reg)⟩, carry, f⟩ c e m)
    (hb : e.integers.Bound (IntSlot.gpr reg) dst) {src : HostReg} (hsrc : e.Has m src (ofWord w))
    (i : BitVec 32) : wp (emitAddConstant dst src i) (fun _ e' m' =>
      Sim s ⟨⟨k, held, locked, none⟩, carry, f⟩ (c.setGpr reg (w + i)) e' m' ∧
        KeepsBut dst e m e' m' ∧ e'.Has m' dst (ofWord (w + i))) e m := by
  unfold emitAddConstant
  split
  · apply h.emitGpr hb
    simp only [Machine.step, Machine.setW, Machine.getW, ImmOp.eval, hsrc.val, low_ofWord]
  · next hi =>
    have hi' : i = 0 := by simpa using hi
    have hz : w + i = w := by
      rw [hi']
      exact BitVec.add_zero w
    rw [hz]
    exact h.emitMove_spec hb hsrc

/-- A sum whose carry is in the flags afterwards, if somebody looks at it. -/
theorem Sim.emitCarrying
    (h : Sim s ⟨⟨k, held, locked, some (IntSlot.gpr reg)⟩, carry, f⟩ c e m)
    (hb : e.integers.Bound (IntSlot.gpr reg) dst) {plain flagged : Inst} {sum : CarrySum}
    (hp : m.step plain = .next (m.setX dst (ofWord sum.value)))
    (hf : m.step flagged = .next { m.setX dst (ofWord sum.value) with flags := .ofSum sum }) :
    wp (emit (if e.hints.wantsCa then flagged else plain)) (fun _ e' m' =>
      Sim s ⟨⟨k, held, locked, none⟩, carry, f⟩ ((c.setCa none).setGpr reg sum.value) e' m' ∧
        KeepsBut dst e m e' m' ∧ e'.Has m' dst (ofWord sum.value) ∧
        (s.hints.wantsCa = true → m'.flags.c = sum.carry)) e m := by
  rw [h.fixed.hints]
  split
  · refine wp_mono (h.emitGprFlags hb hf) ?_
    rintro - e₁ m₁ ⟨h₁, hk₁, hv, hflags⟩
    refine ⟨h₁, hk₁, hv, ?_⟩
    intro _
    rw [hflags]
    rfl
  · next hw =>
    refine wp_mono (h.forgetCa.emitGpr hb hp) ?_
    rintro - e₁ m₁ ⟨h₁, hk₁, hv⟩
    exact ⟨h₁, hk₁, hv, fun hw' => absurd hw' hw⟩

/-- A copy of one guest register to another, recorded. -/
theorem Sim.moveGpr_spec (h : Sim s ⟨⟨k + 3, held, locked, none⟩, carry, f⟩ c e m)
    (d a : GuestReg) : wp (moveGpr d a) (fun _ e' m' =>
      Sim s ⟨⟨k, held, locked, none⟩, carry, f⟩
        ((c.setGpr d (c.gpr a)).recorded s.word.rc (c.gpr a)) e' m') e m := by
  unfold moveGpr
  refine wp_look rfl ?_
  cases ha : e.gprConstant? a with
  | some v =>
    rw [h.gprConstant_eq ha]
    exact (h.weaken (Nat.le_add_right k 3)).fold_spec d v
  | none =>
    refine wp_bind (h.readGpr_spec a) ?_
    rintro old e₁ m₁ ⟨h₁, -, hold, -⟩
    split
    · next hsame =>
      rw [hsame, Contents.setGpr_self]
      exact (h₁.weaken (Nat.le_succ (k + 1))).record_spec hold
    · refine wp_bind (h₁.writeSlot_spec (IntSlot.gpr d) false) ?_
      rintro new e₂ m₂ ⟨h₂, hk₂, hd, -⟩
      refine h₂.emitRecord hd ?_
      simp only [Machine.step, UnaryOp.eval, (hk₂.has hold).val, low_ofWord]

end Emit

end Recompiler
