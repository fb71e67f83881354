import Recompiler.Lower.Compare
import Recompiler.Proofs.FoldedValues
import Recompiler.Proofs.Operands

/-!
# The code of integer compares
-/

namespace Recompiler.Emit

open Alloc Arm Block PowerPC Lower

variable {s : Setting} {c : Contents} {e : Emitter} {m : Machine} {carry : Carry} {f : FloatStage}
  {k : Nat} {crf : CrField} {field ra : HostReg} {w : BitVec 32}

theorem Sim.startCompare_spec
    (h : Sim s ⟨⟨k, .empty, .empty, some (IntSlot.cr crf)⟩, carry, f⟩ c e m) (signed : Bool)
    (hf : e.integers.Bound (IntSlot.cr crf) field) (ha : e.Has m ra (ofWord w)) :
    wp (startCompare signed field ra) (fun _ e' m' =>
      Sim s ⟨⟨k, .empty, .empty, some (IntSlot.cr crf)⟩, carry, f⟩ c e' m' ∧
        KeepsBut field e m e' m' ∧ e'.Has m' field (extend signed w)) e m := by
  apply h.emit_spec hf.owns (h.loose_bound hf rfl)
  cases signed with
  | true => simp only [Machine.step, ha.val, UnaryOp.eval, low_ofWord, extend, if_true]
  | false =>
    simp only [Machine.step, ha.val, UnaryOp.eval, low_ofWord, extend, Bool.false_eq_true, if_false]
    rfl

variable (h : Sim s ⟨⟨5, .empty, .empty, none⟩, carry, f⟩ c e m)
include h

theorem Sim.compareConstant_spec (signed : Bool) (crf : CrField) (a : GuestReg) (b : BitVec 32) :
    wp (compareConstant signed crf a b) (fun _ => Ends s f
      (c.setCr crf (extend signed (c.gpr a) - extend signed b))) e m := by
  refine wp_bind (h.readGpr_spec a) ?_
  rintro ra e₁ m₁ ⟨h₁, -, ha, -⟩
  refine wp_bind (h₁.writeSlot_spec (IntSlot.cr crf) false) ?_
  rintro field e₂ m₂ ⟨h₂, hk₂, hf, -⟩
  refine wp_bind (h₂.startCompare_spec signed hf (hk₂.has ha)) ?_
  rintro - e₃ m₃ ⟨h₃, hk₃, hv⟩
  have hf₃ := hk₃.bound _ _ hf
  rw [BitVec.sub_eq_add_neg]
  dsimp only
  generalize -extend signed b = value
  split
  · refine wp_mono (h₃.emit_spec hf₃.owns (h₃.loose_bound hf₃ rfl) rfl) ?_
    rintro - e₄ m₄ ⟨h₄, hk₄, hv₄⟩
    rw [hv.val] at hv₄
    exact (h₄.closeCr (hk₄.bound _ _ hf₃) hv₄.val).ends rfl
  · next hz =>
    have hz' : value = 0#64 := by simpa using hz
    rw [hz', BitVec.add_zero]
    exact wp_pure ((h₃.closeCr hf₃ hv.val).ends rfl)

theorem Sim.compareRegs_spec (signed : Bool) (crf : CrField) (a b : GuestReg) :
    wp (compareRegs signed crf a b) (fun _ => Ends s f
      (c.setCr crf (extend signed (c.gpr a) - extend signed (c.gpr b)))) e m := by
  refine wp_bind (h.readGpr_spec a) ?_
  rintro ra e₁ m₁ ⟨h₁, -, ha, -⟩
  refine wp_bind (h₁.readGpr_spec b) ?_
  rintro rb e₂ m₂ ⟨h₂, hk₂, hb, hbound⟩
  refine wp_bind (h₂.writeSlot_spec (IntSlot.cr crf) false) ?_
  rintro field e₃ m₃ ⟨h₃, hk₃, hf, -⟩
  refine wp_bind (h₃.startCompare_spec signed hf (hk₃.has (hk₂.has ha))) ?_
  rintro - e₄ m₄ ⟨h₄, hk₄, hv⟩
  have hf₄ := hk₄.bound _ _ hf
  -- a condition field and a general register are never in the same host register
  have hne : rb ≠ field := by
    rintro rfl
    exact IntSlot.gpr_ne_cr b crf
      (h₃.ints.ready.owned.host_inj (hk₃.bound _ _ hbound).1 hf.1)
  have hb₄ := hk₄.has hne (hk₃.has hb)
  split
  · next hs =>
    refine wp_bind h₄.scratch_spec ?_
    rintro temp e₅ m₅ ⟨h₅, hk₅, hheld, hown, hfresh⟩
    have hb₅ := hk₅.has hb₄
    refine wp_bind (h₅.emitHeld (RegSet.contains_insert_self _ _) rfl) ?_
    rintro - e₆ m₆ ⟨h₆, hk₆, htemp⟩
    rw [hb₅.val] at htemp
    have hf₆ := hk₆.bound _ _ (hk₅.bound _ _ hf₄)
    have hv₆ := hk₆.has (hfresh _ hv.owns) (hk₅.has hv)
    refine wp_bind (h₆.emit_spec hf₆.owns (h₆.loose_bound hf₆ rfl) rfl) ?_
    rintro - e₇ m₇ ⟨h₇, hk₇, hv₇⟩
    rw [hv₆.val, htemp.val] at hv₇
    refine wp_mono ((h₇.closeCr (hk₇.bound _ _ hf₆) hv₇.val).release_spec hheld) ?_
    rintro - e₈ m₈ ⟨h₈, -, -⟩
    refine h₈.ends ?_
    simp only [BinaryOp.eval, UnaryOp.eval, low_ofWord, extend, hs, if_true]
  · next hs =>
    refine wp_mono (h₄.emit_spec hf₄.owns (h₄.loose_bound hf₄ rfl) rfl) ?_
    rintro - e₅ m₅ ⟨h₅, hk₅, hv₅⟩
    rw [hv.val, hb₄.val] at hv₅
    have hs' : signed = false := by simpa using hs
    subst hs'
    exact (h₅.closeCr (hk₅.bound _ _ hf₄) hv₅.val).ends rfl

theorem Sim.integerCompare_spec (signed immediate : Bool) : wp (integerCompare signed immediate)
    (fun _ => Ends s f (c.setCr s.word.crfd (extend signed (c.gpr s.word.ra) -
      extend signed (IntOp.compareOperand s.word signed immediate (c.gpr s.word.rb))))) e m := by
  unfold integerCompare
  refine wp_look rfl ?_
  rw [h.fixed.word]
  refine wp_look rfl ?_
  cases immediate with
  | true =>
    refine wp_look rfl ?_
    rw [compareOperand_immediate]
    cases ha : e.gprConstant? s.word.ra with
    | some a =>
      rw [h.gprConstant_eq ha]
      exact wp_ends (h.setCrConstant_spec _ _) rfl
    | none => exact h.compareConstant_spec _ _ _ _
  | false =>
    refine wp_look rfl ?_
    have hop : IntOp.compareOperand s.word signed false (c.gpr s.word.rb) = c.gpr s.word.rb := by
      cases signed <;> rfl
    rw [hop]
    cases hb : e.gprConstant? s.word.rb with
    | none =>
      cases ha : e.gprConstant? s.word.ra <;> exact h.compareRegs_spec _ _ _ _
    | some b =>
      rw [h.gprConstant_eq hb]
      cases ha : e.gprConstant? s.word.ra with
      | some a =>
        rw [h.gprConstant_eq ha]
        exact wp_ends (h.setCrConstant_spec _ _) rfl
      | none => exact h.compareConstant_spec _ _ _ _

end Recompiler.Emit
