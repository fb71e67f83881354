import Recompiler.Proofs.ConditionForm
import Recompiler.Proofs.HostUnit

/-!
# Contents that follow a guest state

Compiled code keeps guest contents that differ from the state of the guest in form, condition fields
above all, and in what nobody wants. `Contents.Tracks` relates the two. The code of an instruction
keeps them related, with what is wanted before the instruction on the left and what is wanted after
it on the right.
-/

namespace Recompiler

open Arm Block Emit Ieee Lower PowerPC
open Alloc (Precision)

/-! ## Contents cell by cell -/

namespace Emit.Contents

/-- The value of a cell. A carry of which nothing is known counts as clear. -/
def cell (c : Contents) : (cell : Cell) → BitVec cell.width
  | .gpr reg => c.gpr reg
  | .cr field => c.cr field
  | .ps reg => c.ps reg
  | .xerCa => (BitVec.ofBool (c.ca.getD false)).setWidth 8
  | .xerSoOv => c.soOv
  | .fpscr => c.fpscr

/-- Contents stand for a guest state as far as it is wanted. -/
structure Tracks (c : Contents) (layout : Layout) (w : Wanted) (g : State) : Prop where
  on : g.On layout
  same : ∀ cell, w.Same cell (c.cell cell) (g.fetch cell)
  known : w.ca = true → c.ca.isSome = true

namespace Tracks

variable {c c' : Contents} {layout : Layout} {w w' : Wanted} {g : State}

theorem gpr (h : c.Tracks layout w g) (reg : GuestReg) : c.gpr reg = g.gpr reg := h.same (.gpr reg)

theorem ps (h : c.Tracks layout w g) (reg : GuestReg) : c.ps reg = g.ps reg := h.same (.ps reg)

theorem ca (h : c.Tracks layout w g) (hw : w.ca = true) : c.ca = some g.xerCa := by
  obtain ⟨b, hb⟩ := Option.isSome_iff_exists.1 (h.known hw)
  have hsame : ((BitVec.ofBool (c.ca.getD false)).setWidth 8 != 0) = g.xerCa := h.same .xerCa hw
  rw [hb] at hsame ⊢
  rw [← hsame]
  cases b <;> rfl

theorem mono (h : c.Tracks layout w g) (hca : w'.ca = true → w.ca = true)
    (hfprf : w'.fprf = true → w.fprf = true) : c.Tracks layout w' g where
  on := h.on
  same cell := (h.same cell).mono (fun _ => hca) fun _ => hfprf
  known hw := h.known (hca hw)

/-- A cell takes a new value on both sides. Only there the values have to agree in what is newly
wanted. -/
theorem put (hv : layout.Valid) (h : c.Tracks layout w g) (cell : Cell) {value : BitVec cell.width}
    (hother : ∀ other, other ≠ cell → c'.cell other = c.cell other)
    (hself : w'.Same cell (c'.cell cell) value)
    (hknown : w'.ca = true → c'.ca.isSome = true)
    (hca : cell ≠ .xerCa → w'.ca = true → w.ca = true)
    (hfprf : cell ≠ .fpscr → w'.fprf = true → w.fprf = true) :
    c'.Tracks layout w' (g.put cell value) where
  on := h.on.put hv cell value
  same other := by
    by_cases ho : other = cell
    · subst ho
      rw [h.on.fetch_put_self hv]
      exact hself
    · rw [h.on.fetch_put_of_ne hv cell value ho, hother other ho]
      exact (h.same other).mono (fun he => hca fun hc => ho (he.trans hc.symm))
        fun he => hfprf fun hc => ho (he.trans hc.symm)
  known := hknown

/-- A cell other than the carry takes a value that agrees. -/
theorem put_same (hv : layout.Valid) (h : c.Tracks layout w g) (cell : Cell)
    {value : BitVec cell.width} (hother : ∀ other, other ≠ cell → c'.cell other = c.cell other)
    (hself : w.Same cell (c'.cell cell) value) (hca : c'.ca = c.ca) :
    c'.Tracks layout w (g.put cell value) :=
  h.put hv cell hother hself (fun hw => hca ▸ h.known hw) (fun _ hw => hw) fun _ hw => hw

theorem setGpr (hv : layout.Valid) (h : c.Tracks layout w g) (reg : GuestReg) (value : BitVec 32) :
    (c.setGpr reg value).Tracks layout w (g.setGpr reg value) := by
  refine h.put_same hv (.gpr reg) ?_ ?_ rfl
  · intro other ho
    cases other with
    | gpr r =>
      have hr : r ≠ reg := fun he => ho (he ▸ rfl)
      exact Function.update_of_ne hr _ _
    | _ => rfl
  · exact Function.update_self reg value c.gpr

theorem setPs (hv : layout.Valid) (h : c.Tracks layout w g) (reg : GuestReg) (value : BitVec 128) :
    (c.setPs reg value).Tracks layout w (g.put (.ps reg) value) := by
  refine h.put_same hv (.ps reg) ?_ ?_ rfl
  · intro other ho
    cases other with
    | ps r =>
      have hr : r ≠ reg := fun he => ho (he ▸ rfl)
      exact Function.update_of_ne hr _ _
    | _ => rfl
  · exact Function.update_self reg value c.ps

theorem setCr (hv : layout.Valid) (h : c.Tracks layout w g) (field : CrField) {value : BitVec 64}
    {bits : BitVec 4} (hbits : Condition.decode value = bits) :
    (c.setCr field value).Tracks layout w (g.setCrField field bits) := by
  refine h.put_same hv (.cr field) ?_ ?_ rfl
  · intro other ho
    cases other with
    | cr f =>
      have hf : f ≠ field := fun he => ho (he ▸ rfl)
      exact Function.update_of_ne hf _ _
    | _ => rfl
  · show Condition.decode (Function.update c.cr field value field) =
      Condition.decode (Condition.encode bits)
    rw [Function.update_self, hbits, Condition.decode_encode]

/-! ## Integer instructions -/

theorem recorded (hv : layout.Valid) (h : c.Tracks layout w g) (record : Bool) (value : BitVec 32) :
    (c.recorded record value).Tracks layout w
      (if record then g.setCrField 0 (Condition.ofSign value) else g) := by
  cases record with
  | false => exact h
  | true => exact h.setCr hv 0 (Condition.decode_ofResult value)

theorem setCa (hv : layout.Valid) (h : c.Tracks layout w g) {ca : Option Bool} {carry : Bool}
    (hca : w'.ca = true → ca = some carry) (hfprf : w'.fprf = true → w.fprf = true) :
    (c.setCa ca).Tracks layout w' (g.setXerCa carry) := by
  refine h.put hv .xerCa ?_ ?_ ?_ (fun hne => absurd rfl hne) fun _ => hfprf
  · intro other ho
    cases other with
    | xerCa => exact absurd rfl ho
    | _ => rfl
  · intro hw
    show ((BitVec.ofBool (ca.getD false)).setWidth 8 != 0#8) = _
    rw [hca hw, Option.getD_some]
    rfl
  · intro hw
    show ca.isSome = true
    rw [hca hw, Option.isSome_some]

/-- The carry of a result, if it has one. -/
theorem writeCarry (hv : layout.Valid) (h : c.Tracks layout w g) {ca carry : Option Bool}
    (hnone : carry = none → ca = c.ca ∧ (w'.ca = true → w.ca = true))
    (hsome : ∀ b, carry = some b → w'.ca = true → ca = some b)
    (hfprf : w'.fprf = true → w.fprf = true) :
    (c.setCa ca).Tracks layout w' (g.writeCarry carry) := by
  cases carry with
  | none =>
    obtain ⟨rfl, hca⟩ := hnone rfl
    exact h.mono hca hfprf
  | some b => exact h.setCa hv (hsome b rfl) hfprf

/-- The code of an integer instruction follows the guest. -/
theorem stepInteger (hv : layout.Valid) {s : Setting} {op : IntOp} (h : c.Tracks layout w g)
    (hafter : c.AfterInteger s op c') (hop : Op.decode s.word = some (.int op))
    (hoe : (op.hasOe && s.word.oe) = false)
    (hread : op.readsCa = true → w.ca = true)
    (hca : w'.ca = true → w.ca = true ∨ op.writesCa = true)
    (hfprf : w'.fprf = true → w.fprf = true) (hwants : w'.ca = true → s.hints.wantsCa = true) :
    c'.Tracks layout w' (g.stepInteger s.word op) := by
  have hwrote : c.Wrote s op c' → c'.Tracks layout w' (g.stepInteger s.word op) := by
    rintro ⟨reg, value, ca, hreg, rfl, hresult⟩
    have hknown := hresult g.xerCa fun hreads => h.ca (hread hreads)
    rw [h.gpr, h.gpr, h.gpr] at hknown
    dsimp only at hknown
    have hstep := State.stepInteger_of_not_oe g hop hoe hreg
    generalize hr : op.result s.word (g.gpr s.word.ra) (g.gpr s.word.rb) (g.gpr s.word.rd) g.xerCa =
      result at hknown hstep
    have hwrites : result.carry.isSome = op.writesCa := by
      rw [← hr, IntOp.isSome_carry_result]
    obtain ⟨rfl, rfl⟩ := hknown
    have hcarry : ((c.setGpr reg result.value).setCa (s.carryAfter c.ca result.carry)).Tracks layout
        w' ((g.setGpr reg result.value).writeCarry result.carry) := by
      refine (h.setGpr hv reg result.value).writeCarry hv ?_ ?_ hfprf
      · intro hnone
        rw [hnone] at hwrites ⊢
        refine ⟨rfl, fun hw => (hca hw).resolve_right ?_⟩
        rw [← hwrites]
        simp
      · intro b hb hw
        rw [hb, Setting.carryAfter, Setting.carryOut, if_pos (hwants hw)]
    have hrecord := hcarry.recorded hv (op.records s.word.rc) result.value
    rw [Contents.recorded_setCa] at hrecord
    rw [hstep, State.writeResult_false]
    exact hrecord
  cases op with
  | compare signed immediate =>
    have hc' : c' = _ := hafter
    rw [hc', h.gpr, h.gpr]
    refine Tracks.mono ?_ (fun hw => (hca hw).resolve_right (by simp [IntOp.writesCa])) hfprf
    exact h.setCr hv s.word.crfd (Condition.decode_difference _ _ _)
  | _ => exact hwrote hafter

/-! ## Floating-point instructions -/

theorem putValue (hv : layout.Valid) (h : c.Tracks layout w g) (reg : GuestReg)
    (value : Option (BitVec 128)) :
    (c.putValue reg value).Tracks layout w (g.putValue reg value) := by
  cases value with
  | none => exact h
  | some value => exact h.setPs hv reg value

theorem putCondition (hv : layout.Valid) (h : c.Tracks layout w g) (field : CrField)
    (bits : Option (BitVec 4)) :
    (c.putCondition field bits).Tracks layout w (g.putCondition field bits) := by
  cases bits with
  | none => exact h
  | some bits => exact h.setCr hv field (Condition.decode_encode bits)

theorem setFpscr (hv : layout.Valid) (h : c.Tracks layout w g) {x y : BitVec 32}
    (hxy : w'.Same .fpscr x y) (hca : w'.ca = true → w.ca = true) :
    (c.setFpscr x).Tracks layout w' (g.setFpscr y) := by
  refine h.put hv .fpscr ?_ hxy (fun hw => h.known (hca hw)) (fun _ => hca)
    fun hne => absurd rfl hne
  intro other ho
  cases other with
  | fpscr => exact absurd rfl ho
  | _ => rfl

variable {s : Setting} {unit : FloatUnit} {op : FloatOp}

/-- A class that nobody wants may be left out. -/
theorem putStatus (hv : layout.Valid) {x y z t : BitVec 128}
    (h : c.Tracks layout ((w.before (some (.float op))).under s.config.fprf) g)
    (hwants : w.fprf = true → s.hints.wantsFprf = true) :
    (c.putStatus s (unit.effect op x y z t).status).Tracks layout (w.under s.config.fprf)
      (g.putStatus s.config.fprf (unit.effect op x y z t).status) := by
  have hca : (w.under s.config.fprf).ca = true →
      ((w.before (some (.float op))).under s.config.fprf).ca = true := fun hw => hw
  cases hf : (unit.effect op x y z t).status with
  | none => exact h.mono hca (State.Agrees.wanted_of_kept (.inl hf))
  | some f =>
    unfold Contents.putStatus State.putStatus
    cases hfprf : s.config.fprf with
    | false =>
      rw [hfprf] at h
      exact h.mono hca fun _ => by simp [Wanted.under]
    | true =>
      rw [hfprf] at h
      cases hlook : s.hints.wantsFprf with
      | true => exact h.setFpscr hv (State.Agrees.same_status_effect hf (h.same .fpscr)) hca
      | false =>
        have hunwanted : (w.under true).fprf = false := by
          cases hw : w.fprf with
          | false => rw [Wanted.under, hw]; rfl
          | true => rw [hwants hw] at hlook; simp at hlook
        have houtside : f g.fpscr &&& ~~~Status.classMask = g.fpscr &&& ~~~Status.classMask := by
          rcases State.Agrees.status_effect hf with ⟨cls, rfl⟩ | ⟨-, bits, rfl⟩
          · exact State.Agrees.withClass_outside _ _
          · exact State.Agrees.withCompare_outside _ _
        have hkeep : (c.setFpscr c.fpscr).Tracks layout (w.under true)
            (g.setFpscr (f g.fpscr)) := by
          refine h.setFpscr hv ⟨?_, fun hw => ?_⟩ hca
          · rw [houtside]
            exact (h.same .fpscr).1
          · rw [hunwanted] at hw
            simp at hw
        exact hkeep

theorem floatWith (hv : layout.Valid)
    (h : c.Tracks layout ((w.before (some (.float op))).under s.config.fprf) g)
    (hwants : w.fprf = true → s.hints.wantsFprf = true) :
    (c.withEffect s (unit.effect op (c.ps s.word.rd) (c.ps s.word.ra) (c.ps s.word.rb)
      (c.ps s.word.frc))).Tracks layout (w.under s.config.fprf)
      (g.floatWith unit s.config.fprf s.word op) := by
  unfold State.floatWith State.writeEffect Contents.withEffect
  rw [h.ps, h.ps, h.ps, h.ps]
  exact ((h.putValue hv _ _).putCondition hv _ _).putStatus hv hwants

/-! ## All instructions -/

/-- The code of an instruction that is not deferred follows the guest. -/
theorem stepOp (hv : layout.Valid) {p : Bank 32 Precision} {op : Op}
    (h : c.Tracks layout ((w.before (some op)).under s.config.fprf) g)
    (hafter : c.AfterOp s p op c') (hop : Op.decode s.word = some op)
    (hdefer : s.config.opDeferral? s.word op = none)
    (hca : w.ca = true → s.hints.wantsCa = true) (hfprf : w.fprf = true → s.hints.wantsFprf = true)
    (hshort : SoundFor Double.IsShort p c.ps)
    (hsafe : skipsRounding p s.hints s.word.rb = true →
      Double.roundToSingle (lane (c.ps s.word.rb) 0) = lane (c.ps s.word.rb) 0) :
    c'.Tracks layout (w.under s.config.fprf)
      (s.word.stepOp (.host s.flush) s.config.fprf g op) := by
  unfold Config.opDeferral? at hdefer
  split at hdefer
  · simp at hdefer
  · split at hdefer
    · simp at hdefer
    · next hoe =>
      split at hdefer
      · simp at hdefer
      · next hrecord =>
        cases op with
        | int op =>
          refine h.stepInteger hv hafter hop (by simpa [Op.hasOe] using hoe) ?_ ?_ ?_ hca
          · intro hread
            cases op with
            | addExtended inverted second => rfl
            | _ => simp [IntOp.readsCa] at hread
          · intro hw
            by_cases hwrites : op.writesCa = true
            · exact .inr hwrites
            · left
              simpa [Wanted.under, Wanted.before, Op.writesCa, hwrites] using hw
          · intro hw
            simpa [Wanted.under, Wanted.before, Op.writesFprf] using hw
        | float op =>
          have hstep : s.word.stepOp (.host s.flush) s.config.fprf g (.float op) =
              g.floatWith (.host s.flush) s.config.fprf s.word op := by
            unfold Word.stepOp
            dsimp only
            rw [if_neg]
            simpa [Op.opClass, Op.isFcmp] using hrecord
          have hc' : c' = c.afterFloat s p op := hafter
          rw [hstep, hc', Contents.afterFloat_eq hshort hsafe]
          exact h.floatWith hv hfprf

end Tracks

end Emit.Contents

end Recompiler
