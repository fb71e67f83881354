import Recompiler.Lower.Reciprocal
import Recompiler.Proofs.Lower.FloatMove

/-!
# Reciprocals

A reciprocal goes through a routine, so its value is that of the routine.
-/

namespace Recompiler.Emit

open Alloc Arm Block PowerPC Lower Ieee

variable {s : Setting} {c : Contents} {e e' : Emitter} {m m' : Machine} {p : Bank 32 Precision}
  {pd : Bank 32 (Option Precision)} {carry : Carry}

/-- The operand goes through the routine. The destination has its value, but it is still open. -/
theorem Sim.callOnLane_spec {value : BitVec 64}
    (h : Sim s ⟨s.idle, .inGuestState, ⟨⟨5, .empty, .empty, none⟩, p, pd⟩⟩ c e m)
    (routine : Routine) (keep : Bool) (take : HostReg → HostReg → Inst)
    (place : BitVec 128 → BitVec 64 → BitVec 128)
    (hstatus : ∀ arg status, routine.status arg status = status)
    (hresult : routine.convention.result = some (resultReg routine))
    (hvalue : routine.value (lane (c.ps s.word.rb) 0) = some value)
    (htake : ∀ (n : Machine) dst r,
      n.step (take dst r) = .next (n.setV dst (place (n.getV dst) (n.getX r)))) :
    wp (callOnLane routine keep take) (fun dst e' m' => ∃ old,
      Sim s ⟨s.idle, .inGuestState, ⟨⟨3, .empty, .empty, some s.word.rd⟩, p,
        pd.set s.word.rd (some .double)⟩⟩ c e' m' ∧ e'.vectors.cache.Bound s.word.rd dst ∧
      m'.getV dst = place old value ∧ (keep = true → old = c.ps s.word.rd)) e m := by
  refine wp_look rfl ?_
  rw [h.fixed.word]
  refine wp_bind (h.prepareCall_spec routine) ?_
  rintro _ e₁ m₁ ⟨rfl, h₁, -, -⟩
  refine wp_bind (h₁.readFpr_spec s.word.rb) ?_
  rintro src e₂ m₂ ⟨h₂, -, hs₂, -⟩
  refine wp_bind (h₂.writeFpr_spec s.word.rd keep .double) ?_
  rintro dst e₃ m₃ ⟨h₃, hk₃, hd₃, hkeep⟩
  have hs₃ := hk₃.hasV hs₂
  have hsetup : ∀ n : Machine, n.v = m₃.v →
      n.step (.fmovToGeneral .double routine.convention.arg src) =
        .next (n.setX routine.convention.arg (lane (c.ps s.word.rb) 0)) := by
    intro n hn
    have hv : n.getV src = c.ps s.word.rb :=
      (congrArg (fun bank => Bank.get bank src) hn).trans hs₃.val
    rw [step_fmovToGeneral, hv]
  have htear : ∀ n : Machine, n.v = m₃.v → (∀ r w, routine.convention.result = some r →
      routine.value (lane (c.ps s.word.rb) 0) = some w → n.getX r = w) →
      n.execAll [take dst (resultReg routine)] =
        some { n with v := m₃.v.set dst (place (m₃.getV dst) value) } := by
    intro n hn hr
    rw [Machine.execAll_cons _ (htake n dst _), hr _ _ hresult hvalue, Machine.execAll_nil]
    simp only [Machine.setV, Machine.getV, hn]
  have hother : ∀ r, r ≠ dst → (m₃.v.set dst (place (m₃.getV dst) value)).get r = m₃.getV r :=
    fun r hr => Bank.get_set_of_ne _ _ hr
  refine wp_bind (h₃.emitCall_spec (h₃.looseV_bound hd₃ rfl) hother hsetup htear) ?_
  rintro - e₄ m₄ ⟨h₄, hb₄, hv₄⟩
  have hnoted : c.noted routine (lane (c.ps s.word.rb) 0) = c := by
    rw [Contents.noted, hstatus]
    rfl
  rw [hnoted] at h₄
  refine wp_bind h₄.finishCall_spec ?_
  rintro - e₅ m₅ ⟨h₅, hk₅, rfl⟩
  refine wp_pure ⟨m₃.getV dst, h₅, hk₅.boundV _ _ (hb₄ _ _ hd₃), ?_, hkeep⟩
  rw [Machine.getV, hv₄, Bank.get_set_self]

theorem withElement_zero (x : BitVec 64) : withElement 0 .double 0 x = join x 0 := by
  rw [withElement_double_zero]
  simp [lane]

/-- The contents after `fres`. -/
def Contents.reciprocal (c : Contents) (s : Setting) : Contents :=
  let value := Double.reciprocal (lane (c.ps s.word.rb) 0)
  (c.setPs s.word.rd (join value value)).classed s true value

theorem Sim.fres_spec (h : Sim s ⟨s.idle, carry, ⟨⟨5, .empty, .empty, none⟩, p, pd⟩⟩ c e m) :
    wp Lower.fres (fun _ =>
      FloatEnds s p (pd.set s.word.rd (some .double)) (c.reciprocal s)) e m := by
  refine wp_bind h.flushCarry_spec ?_
  rintro - e₀ m₀ ⟨h₀, -⟩
  have hcall := h₀.callOnLane_spec .fres false
    (fun dst result => .fmovFromGeneral .double dst result) (fun _ w => withElement 0 .double 0 w)
    (fun _ _ => rfl) rfl rfl (fun _ _ _ => rfl)
  refine wp_bind hcall ?_
  rintro dst e₁ m₁ ⟨-, h₁, hd₁, hv₁, -⟩
  have hdup : m₁.step (.dup dst dst) = .next (m₁.setV dst (join (lane (m₁.getV dst) 0)
      (lane (m₁.getV dst) 0))) := rfl
  refine wp_bind (h₁.emitV (h₁.looseV_bound hd₁ rfl) hdup (.setV m₁ dst _)) ?_
  rintro - e₂ m₂ ⟨h₂, hk₂, hm₂⟩
  have hv₂ : m₂.getV dst = join (Double.reciprocal (lane (c.ps s.word.rb) 0))
      (Double.reciprocal (lane (c.ps s.word.rb) 0)) := by
    rw [hm₂, Machine.getV_setV, if_pos rfl, hv₁, withElement_zero, lane_join_zero]
  have h₃ := h₂.closePs (hk₂.boundV _ _ hd₁) hv₂
  refine wp_mono (h₃.updateClass_spec dst true) ?_
  rintro - e₄ m₄ h₄
  rw [hv₂, lane_join_zero] at h₄
  exact ⟨_, _, h₄⟩

/-- The contents after `frsqrte`. -/
def Contents.reciprocalSqrt (c : Contents) (s : Setting) : Contents :=
  let value := Double.reciprocalSqrt (lane (c.ps s.word.rb) 0)
  (c.setPs s.word.rd (join value (lane (c.ps s.word.rd) 1))).classed s false value

theorem Sim.frsqrte_spec (h : Sim s ⟨s.idle, carry, ⟨⟨5, .empty, .empty, none⟩, p, pd⟩⟩ c e m) :
    wp Lower.frsqrte (fun _ =>
      FloatEnds s p (pd.set s.word.rd (some .double)) (c.reciprocalSqrt s)) e m := by
  refine wp_bind h.flushCarry_spec ?_
  rintro - e₀ m₀ ⟨h₀, -⟩
  have hcall := h₀.callOnLane_spec .frsqrte true
    (fun dst result => .insGeneral .double dst 0 result) (fun old w => withElement old .double 0 w)
    (fun _ _ => rfl) rfl rfl (fun _ _ _ => rfl)
  refine wp_bind hcall ?_
  rintro dst e₁ m₁ ⟨old, h₁, hd₁, hv₁, hold⟩
  rw [hold rfl, withElement_double_zero] at hv₁
  have h₂ := h₁.closePs hd₁ hv₁
  refine wp_mono (h₂.updateClass_spec dst false) ?_
  rintro - e₃ m₃ h₃
  rw [hv₁, lane_join_zero] at h₃
  exact ⟨_, _, h₃⟩

end Recompiler.Emit
