import Mathlib.Data.List.Basic
import Recompiler.Block.Hints
import Recompiler.PowerPC.Difference
import Recompiler.Proofs.GuestStep

/-!
# What later instructions look at

`State.Agrees w a b` says that two states differ at most in what is not wanted: the carry bit, and
the result class in the status word. Executing a word on both keeps them so, with what is wanted
before the word on the left and what is wanted after it on the right. Hence what the backward
analysis calls unwanted has no influence on the end of a run.
-/

namespace Recompiler

open PowerPC

namespace Block.Wanted

/-- When classes are not kept, nothing writes the result class, and it counts as wanted. -/
def under (w : Wanted) (fprf : Bool) : Wanted := { w with fprf := w.fprf || !fprf }

/-- The values of a cell may differ in what is not wanted. Condition fields count as four bits. -/
def Same (w : Wanted) : (cell : Cell) → BitVec cell.width → BitVec cell.width → Prop
  | .cr _, x, y => Condition.decode x = Condition.decode y
  | .xerCa, x, y => w.ca = true → (x != 0) = (y != 0)
  | .fpscr, x, y =>
    x &&& ~~~Status.classMask = y &&& ~~~Status.classMask ∧ (w.fprf = true → x = y)
  | .gpr _, x, y => x = y
  | .ps _, x, y => x = y
  | .xerSoOv, x, y => x = y

theorem Same.refl (w : Wanted) (cell : Cell) (x : BitVec cell.width) : w.Same cell x x := by
  cases cell <;> simp [Same]

theorem Same.symm {w : Wanted} {cell : Cell} {x y : BitVec cell.width} (h : w.Same cell x y) :
    w.Same cell y x := by
  cases cell with
  | xerCa => exact fun hw => (h hw).symm
  | fpscr => exact ⟨h.1.symm, fun hw => (h.2 hw).symm⟩
  | cr _ => exact Eq.symm (a := Condition.decode x) h
  | gpr _ | ps _ | xerSoOv => exact Eq.symm (a := x) h

theorem Same.trans {w : Wanted} {cell : Cell} {x y z : BitVec cell.width} (h : w.Same cell x y)
    (h' : w.Same cell y z) : w.Same cell x z := by
  cases cell with
  | xerCa => exact fun hw => (h hw).trans (h' hw)
  | fpscr => exact ⟨h.1.trans h'.1, fun hw => (h.2 hw).trans (h'.2 hw)⟩
  | cr _ => exact Eq.trans (a := Condition.decode x) h h'
  | gpr _ | ps _ | xerSoOv => exact Eq.trans (a := x) h h'

theorem Same.mono {w w' : Wanted} {cell : Cell} {x y : BitVec cell.width} (h : w.Same cell x y)
    (hca : cell = .xerCa → w'.ca = true → w.ca = true)
    (hfprf : cell = .fpscr → w'.fprf = true → w.fprf = true) : w'.Same cell x y := by
  cases cell with
  | xerCa => exact fun hw => h (hca rfl hw)
  | fpscr => exact ⟨h.1, fun hw => h.2 (hfprf rfl hw)⟩
  | gpr _ | ps _ | cr _ | xerSoOv => exact h

end Block.Wanted

namespace PowerPC.State

open Block

/-- Two states on a layout differ at most in what is not wanted. -/
structure Agrees (layout : Layout) (w : Wanted) (a b : State) : Prop where
  left : a.On layout
  right : b.On layout
  same : ∀ cell, w.Same cell (a.fetch cell) (b.fetch cell)

variable {layout : Layout} {w w' : Wanted} {a b : State}

theorem Agrees.refl (h : a.On layout) (w : Wanted) : Agrees layout w a a :=
  ⟨h, h, fun _ => .refl _ _ _⟩

namespace Agrees

theorem symm (h : Agrees layout w a b) : Agrees layout w b a :=
  ⟨h.right, h.left, fun cell => (h.same cell).symm⟩

theorem trans {c : State} (h : Agrees layout w a b) (h' : Agrees layout w b c) :
    Agrees layout w a c :=
  ⟨h.left, h'.right, fun cell => (h.same cell).trans (h'.same cell)⟩

theorem gpr (h : Agrees layout w a b) (reg : GuestReg) : a.gpr reg = b.gpr reg := h.same (.gpr reg)

theorem ps (h : Agrees layout w a b) (reg : GuestReg) : a.ps reg = b.ps reg := h.same (.ps reg)

theorem crField (h : Agrees layout w a b) (field : CrField) : a.crField field = b.crField field :=
  h.same (.cr field)

theorem xerCa (h : Agrees layout w a b) (hw : w.ca = true) : a.xerCa = b.xerCa :=
  h.same .xerCa hw

theorem xerSoOv (h : Agrees layout w a b) : a.xerSoOv = b.xerSoOv := h.same .xerSoOv

theorem fpscr (h : Agrees layout w a b) (hw : w.fprf = true) : a.fpscr = b.fpscr :=
  (h.same .fpscr).2 hw

theorem mono (h : Agrees layout w a b) (hca : w'.ca = true → w.ca = true)
    (hfprf : w'.fprf = true → w.fprf = true) : Agrees layout w' a b :=
  ⟨h.left, h.right, fun cell => (h.same cell).mono (fun _ => hca) (fun _ => hfprf)⟩

/-- Both states take a value in the same cell. Only the values there have to agree in what is newly
wanted. -/
theorem put (hv : layout.Valid) (h : Agrees layout w a b) (cell : Cell) {x y : BitVec cell.width}
    (hxy : w'.Same cell x y) (hca : cell ≠ .xerCa → w'.ca = true → w.ca = true)
    (hfprf : cell ≠ .fpscr → w'.fprf = true → w.fprf = true) :
    Agrees layout w' (a.put cell x) (b.put cell y) := by
  refine ⟨h.left.put hv cell x, h.right.put hv cell y, ?_⟩
  intro other
  by_cases ho : other = cell
  · subst ho
    rw [h.left.fetch_put_self hv, h.right.fetch_put_self hv]
    exact hxy
  · rw [h.left.fetch_put_of_ne hv cell x ho, h.right.fetch_put_of_ne hv cell y ho]
    exact (h.same other).mono (fun he => hca fun hc => ho (he.trans hc.symm))
      (fun he => hfprf fun hc => ho (he.trans hc.symm))

/-- The same value goes into the same cell. -/
theorem put_same (hv : layout.Valid) (h : Agrees layout w a b) (cell : Cell)
    (x : BitVec cell.width) : Agrees layout w (a.put cell x) (b.put cell x) :=
  h.put hv cell (.refl w cell x) (fun _ hw => hw) (fun _ hw => hw)

/-- One state takes a value that agrees with the cell of the other. -/
theorem put_right (hv : layout.Valid) (h : Agrees layout w a b) (cell : Cell)
    {y : BitVec cell.width} (hy : w.Same cell (a.fetch cell) y) :
    Agrees layout w a (b.put cell y) := by
  refine ⟨h.left, h.right.put hv cell y, ?_⟩
  intro other
  by_cases ho : other = cell
  · subst ho
    rw [h.right.fetch_put_self hv]
    exact hy
  · rw [h.right.fetch_put_of_ne hv cell y ho]
    exact h.same other

/-! ## Integer instructions -/

theorem recordOverflow (hv : layout.Valid) (h : Agrees layout w a b) (overflow : Bool) :
    Agrees layout w (a.recordOverflow overflow) (b.recordOverflow overflow) := by
  unfold State.recordOverflow
  rw [h.xerSoOv]
  exact h.put_same hv .xerSoOv _

/-- A carry that is written is the same in both states afterwards. -/
theorem writeCarry (hv : layout.Valid) (h : Agrees layout w a b) (carry : Option Bool)
    (hca : w'.ca = true → w.ca = true ∨ carry.isSome = true)
    (hfprf : w'.fprf = true → w.fprf = true) :
    Agrees layout w' (a.writeCarry carry) (b.writeCarry carry) := by
  cases carry with
  | none => exact h.mono (fun hw => (hca hw).resolve_right (by simp)) hfprf
  | some carry => exact h.put hv .xerCa (.refl w' _ _) (fun hne => absurd rfl hne) fun _ => hfprf

theorem writeResult (hv : layout.Valid) (h : Agrees layout w a b) (reg : GuestReg)
    (result : IntResult) (oe record : Bool)
    (hca : w'.ca = true → w.ca = true ∨ result.carry.isSome = true)
    (hfprf : w'.fprf = true → w.fprf = true) :
    Agrees layout w' (a.writeResult reg result oe record) (b.writeResult reg result oe record) := by
  have hwritten : ∀ a b, Agrees layout w a b → Agrees layout w'
      (if record then
        ((a.setGpr reg result.value).writeCarry result.carry).setCrField 0
          (Condition.ofSign result.value)
      else (a.setGpr reg result.value).writeCarry result.carry)
      (if record then
        ((b.setGpr reg result.value).writeCarry result.carry).setCrField 0
          (Condition.ofSign result.value)
      else (b.setGpr reg result.value).writeCarry result.carry) := by
    intro a b hab
    have hcarry := (hab.put_same hv (.gpr reg) result.value).writeCarry hv result.carry hca hfprf
    cases record with
    | false => exact hcarry
    | true => exact hcarry.put_same hv (.cr 0) _
  unfold State.writeResult
  cases result.overflow with
  | none => exact hwritten a b h
  | some overflow =>
    cases oe with
    | false => exact hwritten a b h
    | true => exact hwritten _ _ (h.recordOverflow hv overflow)

/-- The carry that goes in matters only to instructions that read it. -/
theorem result_congr {op : IntOp} {ca ca' : Bool} (h : op.readsCa = true → ca = ca') (word : Word)
    (x y z : BitVec 32) : op.result word x y z ca = op.result word x y z ca' := by
  cases op with
  | addExtended inverted second => rw [h rfl]
  | _ => rfl

theorem stepInteger (hv : layout.Valid) (word : Word) (op : IntOp)
    (h : Agrees layout w a b) (hread : op.readsCa = true → w.ca = true)
    (hca : w'.ca = true → w.ca = true ∨ op.writesCa = true)
    (hfprf : w'.fprf = true → w.fprf = true) :
    Agrees layout w' (a.stepInteger word op) (b.stepInteger word op) := by
  have hresult : op.result word (a.gpr word.ra) (a.gpr word.rb) (a.gpr word.rd) a.xerCa =
      op.result word (b.gpr word.ra) (b.gpr word.rb) (b.gpr word.rd) b.xerCa := by
    rw [h.gpr, h.gpr, h.gpr]
    exact result_congr (fun hop => h.xerCa (hread hop)) word _ _ _
  cases htarget : op.target word with
  | some reg =>
    rw [State.stepInteger_of_target a htarget, State.stepInteger_of_target b htarget, hresult]
    refine h.writeResult hv reg _ _ _ ?_ hfprf
    rwa [IntOp.isSome_carry_result]
  | none =>
    cases op with
    | compare signed immediate =>
      simp only [State.stepInteger, h.gpr]
      refine Agrees.mono ?_ (fun hw => (hca hw).resolve_right (by simp [IntOp.writesCa])) hfprf
      exact h.put_same hv (.cr word.crfd) _
    | _ => simp [IntOp.target] at htarget

/-! ## Floating-point instructions -/

/-- Writing a class makes status words equal that differed in the class only. -/
theorem withClass_congr {x y : BitVec 32}
    (h : x &&& ~~~Status.classMask = y &&& ~~~Status.classMask) (cls : BitVec 5) :
    Status.withClass x cls = Status.withClass y cls := by
  simp only [Status.withClass, h]

/-- A class leaves the status word as it was outside of the class. -/
theorem withClass_outside (status : BitVec 32) (cls : BitVec 5) :
    Status.withClass status cls &&& ~~~Status.classMask = status &&& ~~~Status.classMask := by
  have hfield : ∀ cls : BitVec 5,
      (cls.setWidth 32 <<< Status.classShift) &&& ~~~Status.classMask = 0#32 := by decide
  rw [Status.withClass, BitVec.and_or_distrib_right, hfield, BitVec.or_zero, BitVec.and_assoc,
    BitVec.and_self]

theorem withCompare_outside (status : BitVec 32) (bits : BitVec 4) :
    Status.withCompare status bits &&& ~~~Status.classMask = status &&& ~~~Status.classMask := by
  have hfield : ∀ bits : BitVec 4,
      (bits.setWidth 32 <<< Status.classShift) &&& ~~~Status.classMask = 0#32 := by decide
  have hmasks : ~~~Status.compareMask &&& ~~~Status.classMask = ~~~Status.classMask := by decide
  rw [Status.withCompare, BitVec.and_or_distrib_right, hfield, BitVec.or_zero, BitVec.and_assoc,
    hmasks]

/-- A compare keeps every bit outside the class, and one bit of it. -/
theorem same_withCompare {x y : BitVec 32} (h : w.Same .fpscr x y) (bits : BitVec 4) :
    w.Same .fpscr (Status.withCompare x bits) (Status.withCompare y bits) := by
  refine ⟨?_, fun hw => by rw [h.2 hw]⟩
  rw [withCompare_outside, withCompare_outside]
  exact h.1

theorem writeEffect (hv : layout.Valid) (h : Agrees layout w a b) (fprf : Bool) (word : Word)
    (effect : FloatEffect) (hca : w'.ca = true → w.ca = true)
    (hkept : effect.status = none ∨ fprf = false → w'.fprf = true → w.fprf = true)
    (hstatus : ∀ f, effect.status = some f → ∀ x y, w.Same .fpscr x y →
      w'.Same .fpscr (f x) (f y)) :
    Agrees layout w' (a.writeEffect fprf word effect) (b.writeEffect fprf word effect) := by
  have hvalue :
      Agrees layout w (a.putValue word.rd effect.value) (b.putValue word.rd effect.value) := by
    cases effect.value with
    | none => exact h
    | some value => exact h.put_same hv (.ps word.rd) value
  have hcond : Agrees layout w
      ((a.putValue word.rd effect.value).putCondition word.crfd effect.condition)
      ((b.putValue word.rd effect.value).putCondition word.crfd effect.condition) := by
    cases effect.condition with
    | none => exact hvalue
    | some bits => exact hvalue.put_same hv (.cr word.crfd) _
  unfold State.writeEffect
  cases hf : effect.status with
  | none => exact hcond.mono hca (hkept (.inl hf))
  | some f =>
    cases fprf with
    | false => exact hcond.mono hca (hkept (.inr rfl))
    | true =>
      exact hcond.put hv .fpscr (hstatus f hf _ _ (hcond.same .fpscr)) (fun _ => hca)
        (fun hne => absurd rfl hne)

/-- A record takes bits of the status word that are not in the class. -/
theorem recordFloat (hv : layout.Valid) (h : Agrees layout w a b) :
    Agrees layout w a.recordFloat b.recordFloat := by
  have hmask : ∀ x : BitVec 32, ((x &&& ~~~Status.classMask) >>> 28).setWidth 4 =
      (x >>> 28).setWidth 4 := by
    intro x
    rw [BitVec.ushiftRight_and_distrib]
    apply BitVec.eq_of_getLsbD_eq
    intro i hi
    have hbit : (~~~Status.classMask >>> 28).getLsbD i = true := by
      revert i
      decide
    simp only [BitVec.getLsbD_setWidth, BitVec.getLsbD_and, hbit, Bool.and_true]
  have htop : (a.fpscr >>> 28).setWidth 4 = (b.fpscr >>> 28).setWidth 4 := by
    rw [← hmask a.fpscr, ← hmask b.fpscr]
    exact congrArg (fun x : BitVec 32 => (x >>> 28).setWidth 4) (h.same .fpscr).1
  unfold State.recordFloat
  rw [htop]
  exact h.put_same hv (.cr 1) _

/-- What becomes of the status word: another class, or the outcome of a compare. -/
theorem status_effect {unit : FloatUnit} {op : FloatOp} {x y z t : BitVec 128}
    {f : BitVec 32 → BitVec 32} (h : (unit.effect op x y z t).status = some f) :
    (∃ cls, f = fun status => Status.withClass status cls) ∨
      (op.isCompare = true ∧ ∃ bits, f = fun status => Status.withCompare status bits) := by
  rcases op with ⟨_ | _ | _, op⟩ | ⟨_ | _, op⟩ | _ | _ | _ | _ | _ | ordered
  case fcmp => exact .inr ⟨rfl, _, (Option.some.inj h).symm⟩
  all_goals first
    | exact .inl ⟨_, (Option.some.inj h).symm⟩
    | simp [FloatUnit.effect] at h

theorem isSome_status_effect (unit : FloatUnit) (op : FloatOp) (x y z t : BitVec 128) :
    (unit.effect op x y z t).status.isSome = op.writesFprf := by
  rcases op with ⟨_ | _ | _, op⟩ | ⟨_ | _, op⟩ | _ | _ | _ | _ | _ | _ <;> rfl

/-- What becomes of the status word is the same wherever the old one was the same. -/
theorem same_status_effect {unit : FloatUnit} {op : FloatOp} {d x y z : BitVec 128}
    {f : BitVec 32 → BitVec 32} (hf : (unit.effect op d x y z).status = some f) {fprf : Bool}
    {p q : BitVec 32} (h : ((w.before (some (.float op))).under fprf).Same .fpscr p q) :
    (w.under fprf).Same .fpscr (f p) (f q) := by
  rcases status_effect hf with ⟨cls, rfl⟩ | ⟨hcmp, bits, rfl⟩
  · dsimp only
    rw [withClass_congr h.1]
    exact .refl _ _ _
  · refine same_withCompare (h.mono (fun he => nomatch he) fun _ hw => ?_) bits
    simpa [Wanted.under, Wanted.before, Op.isFcmp, hcmp] using hw

/-- A status word that is left alone is wanted before if it is wanted afterwards. -/
theorem wanted_of_kept {unit : FloatUnit} {op : FloatOp} {d x y z : BitVec 128} {fprf : Bool}
    (hkept : (unit.effect op d x y z).status = none ∨ fprf = false)
    (hw : (w.under fprf).fprf = true) :
    ((w.before (some (.float op))).under fprf).fprf = true := by
  rcases hkept with hnone | rfl
  · have hwrites : op.writesFprf = false := by
      rw [← isSome_status_effect unit op, hnone]
      rfl
    simpa [Wanted.under, Wanted.before, Op.writesFprf, hwrites] using hw
  · simp [Wanted.under]

theorem floatWith (hv : layout.Valid) (unit : FloatUnit) (fprf : Bool) (word : Word) (op : FloatOp)
    (h : Agrees layout ((w.before (some (.float op))).under fprf) a b) :
    Agrees layout (w.under fprf) (a.floatWith unit fprf word op)
      (b.floatWith unit fprf word op) := by
  unfold State.floatWith
  rw [h.ps, h.ps, h.ps, h.ps]
  exact h.writeEffect hv fprf word _ (fun hw => hw) wanted_of_kept
    fun f hf _ _ hsame => same_status_effect hf hsame

/-! ## Words -/

theorem stepOp (hv : layout.Valid) (unit : FloatUnit) (fprf : Bool) (word : Word) (op : Op)
    (h : Agrees layout ((w.before (some op)).under fprf) a b) :
    Agrees layout (w.under fprf) (word.stepOp unit fprf a op) (word.stepOp unit fprf b op) := by
  cases op with
  | int op =>
    refine h.stepInteger hv word op ?_ ?_ ?_
    · intro hread
      cases op with
      | addExtended inverted second => rfl
      | _ => simp [IntOp.readsCa] at hread
    · intro hw
      by_cases hwrites : op.writesCa = true
      · exact .inr hwrites
      · left
        simpa [Wanted.under, Wanted.before, Op.writesCa, hwrites] using hw
    · intro hw
      simpa [Wanted.under, Wanted.before, Op.writesFprf] using hw
  | float op =>
    unfold Word.stepOp
    dsimp only
    split
    · exact (h.floatWith hv unit fprf word op).recordFloat hv
    · exact h.floatWith hv unit fprf word op

theorem conditionWord (h : Agrees layout w a b) : a.conditionWord = b.conditionWord := by
  have hfield : ∀ n ∈ List.range 8, a.crField n = b.crField n := by
    intro n hn
    exact h.crField ⟨n, List.mem_range.1 hn⟩
  unfold State.conditionWord
  apply List.foldl_ext
  intro word n hn
  rw [hfield n hn]

/-- A word outside every family may look at everything. -/
theorem stepOther (hv : layout.Valid) {a' : State} {word : Word} (h : Agrees layout .all a b)
    (ha : Interpreter.stepOther a word = .ok a') :
    ∃ b', Interpreter.stepOther b word = .ok b' ∧ Agrees layout .all a' b' := by
  unfold Interpreter.stepOther at ha ⊢
  split at ha
  · next hmfcr =>
    rw [if_pos hmfcr, ← h.conditionWord]
    cases ha
    exact ⟨_, rfl, h.put_same hv (.gpr word.rd) _⟩
  · next hmfcr =>
    split at ha
    · next hmffs =>
      have hps : a.ps1 word.rd = b.ps1 word.rd := congrArg (·.extractLsb' 64 64) (h.ps word.rd)
      have hset : Agrees layout .all (a.setPs0 word.rd (wordInDouble a.fpscr))
          (b.setPs0 word.rd (wordInDouble b.fpscr)) := by
        unfold State.setPs0
        rw [h.fpscr rfl, hps]
        exact h.put_same hv (.ps word.rd) _
      rw [if_neg hmfcr, if_pos hmffs]
      cases ha
      refine ⟨_, rfl, ?_⟩
      cases word.rc with
      | false => exact hset
      | true => exact hset.recordFloat hv
    · simp at ha

theorem step (hv : layout.Valid) (unit : FloatUnit) (fprf : Bool) {word : Word} {a' : State}
    (h : Agrees layout ((w.before (Op.decode word)).under fprf) a b)
    (ha : word.step unit fprf a = .ok a') :
    ∃ b', word.step unit fprf b = .ok b' ∧ Agrees layout (w.under fprf) a' b' := by
  unfold Word.step at ha ⊢
  cases hop : Op.decode word with
  | some op =>
    rw [hop] at h ha
    cases ha
    exact ⟨_, rfl, h.stepOp hv unit fprf word op⟩
  | none =>
    rw [hop] at h ha
    obtain ⟨b', hb, hab⟩ := h.stepOther hv ha
    exact ⟨b', hb, hab.mono (fun _ => rfl) (fun _ => rfl)⟩

/-- Along a run everything that matters stays the same, and at the end everything matters. -/
theorem run (hv : layout.Valid) (units : Word → FloatUnit) (fprf : Bool) {words : List Word}
    {a' : State} (h : Agrees layout ((Wanted.scan words).1.under fprf) a b)
    (ha : Word.run units fprf a words = .ok a') :
    ∃ b', Word.run units fprf b words = .ok b' ∧ Agrees layout .all a' b' := by
  induction words generalizing a b with
  | nil =>
    cases ha
    exact ⟨b, rfl, h⟩
  | cons word words ih =>
    unfold Word.run at ha ⊢
    cases hstep : word.step (units word) fprf a with
    | error fault => simp [hstep] at ha
    | ok a₁ =>
      rw [hstep] at ha
      obtain ⟨b₁, hb₁, hab⟩ := Agrees.step hv (units word) fprf h hstep
      rw [hb₁]
      exact ih hab ha

/-- States that agree in everything show no difference. -/
theorem differences_eq_nil (h : Agrees layout .all a b) : a.differences b = [] := by
  have hlanes : ∀ reg : GuestReg, a.lanes reg = b.lanes reg := by
    intro reg
    simp only [lanes, ps0, ps1, h.ps]
  simp only [differences, Difference.between, h.gpr, hlanes, h.crField, h.xerCa rfl, h.xerSoOv,
    h.fpscr rfl, if_true]
  simp

end Agrees

theorem On.step (hv : layout.Valid) (hon : a.On layout) {unit : FloatUnit} {fprf : Bool}
    {word : Word} {a' : State} (h : word.step unit fprf a = .ok a') : a'.On layout := by
  obtain ⟨_, _, hagree⟩ := Agrees.step (w := .all) hv unit fprf (Agrees.refl hon _) h
  exact hagree.left

theorem On.run (hv : layout.Valid) (hon : a.On layout) {units : Word → FloatUnit} {fprf : Bool}
    {words : List Word} {a' : State} (h : Word.run units fprf a words = .ok a') : a'.On layout := by
  obtain ⟨_, _, hagree⟩ := (Agrees.refl hon _).run hv units fprf h
  exact hagree.left

end PowerPC.State

namespace Block

/-! ## The analysis -/

theorem getElem?_scan_wanted (words : List Word) (i : Nat) (hi : i < words.length) :
    (Wanted.scan words).2[i]? = some (Wanted.scan (words.drop (i + 1))).1 := by
  induction words generalizing i with
  | nil => simp at hi
  | cons word words ih =>
    cases i with
    | zero => rfl
    | succ i =>
      rw [List.drop_succ_cons, Wanted.scan, List.getElem?_cons_succ]
      exact ih i (Nat.lt_of_succ_lt_succ hi)

theorem getElem?_scan_singles (known : Singles) (words : List Word) (i : Nat)
    (hi : i < words.length) :
    (known.scan words)[i]? = some ((words.take i).foldl Singles.after known) := by
  induction words generalizing i known with
  | nil => simp at hi
  | cons word words ih =>
    cases i with
    | zero => rfl
    | succ i => exact ih (known.after word) i (Nat.lt_of_succ_lt_succ hi)

/-- The hints for a word: what is wanted by the words after it, and what is known from those before
it. -/
theorem getElem?_analyze (words : List Word) (i : Nat) (hi : i < words.length) :
    (analyze words)[i]? = some (.combine (words.get ⟨i, hi⟩) (Wanted.scan (words.drop (i + 1))).1
      ((words.take i).foldl Singles.after .none)) := by
  simp only [analyze, List.getElem?_map, List.getElem?_zip_eq_some, Option.map_eq_some_iff]
  refine ⟨(words.get ⟨i, hi⟩, _, _), ?_, rfl⟩
  exact ⟨by simp, getElem?_scan_wanted words i hi, getElem?_scan_singles .none words i hi⟩

theorem length_analyze (words : List Word) : (analyze words).length = words.length := by
  have hwanted : ∀ words : List Word, (Wanted.scan words).2.length = words.length := by
    intro words
    induction words with
    | nil => rfl
    | cons word words ih => simp [Wanted.scan, ih]
  have hknown : ∀ (words : List Word) (known : Singles),
      (known.scan words).length = words.length := by
    intro words
    induction words with
    | nil => exact fun _ => rfl
    | cons word words ih => exact fun known => congrArg (· + 1) (ih (known.after word))
  simp [analyze, hwanted, hknown]

/-- A state that differs only in what nobody wants runs to the same end. -/
theorem run_of_agrees {layout : Layout} (hv : layout.Valid) {interpreter : Interpreter}
    {words : List Word} {mid mid' final : State}
    (h : mid.Agrees layout ((Wanted.scan words).1.under interpreter.fprf) mid')
    (hrun : interpreter.run mid words = .ok final) :
    ∃ final', interpreter.run mid' words = .ok final' ∧ final.differences final' = [] := by
  rw [Interpreter.run_eq] at hrun
  obtain ⟨final', hrun', hend⟩ := h.run hv _ _ hrun
  exact ⟨final', by rw [Interpreter.run_eq, hrun'], hend.differences_eq_nil⟩

/-- What the backward analysis calls unwanted has no influence on the end of a run: neither the
carry bit after a word whose carry nobody wants, nor the class of the last result after a word whose
class nobody wants. -/
theorem unwanted_has_no_influence {layout : Layout} (hv : layout.Valid) (interpreter : Interpreter)
    {state final : State} (hon : state.On layout) (words : List Word)
    (hrun : interpreter.run state words = .ok final) (i : Nat) (hints : Hints)
    (hi : (analyze words)[i]? = some hints) :
    ∃ mid, interpreter.run state (words.take (i + 1)) = .ok mid ∧
      (hints.wantsCa = false →
        ∃ final', interpreter.run (mid.setXerCa (!mid.xerCa)) (words.drop (i + 1)) = .ok final' ∧
          final.differences final' = []) ∧
      (interpreter.fprf = true → hints.wantsFprf = false → ∀ cls : BitVec 5,
        ∃ final', interpreter.run (mid.setFpscr (Status.withClass mid.fpscr cls))
            (words.drop (i + 1)) = .ok final' ∧ final.differences final' = []) := by
  have hlt : i < words.length := by
    rw [← length_analyze]
    exact (List.getElem?_eq_some_iff.1 hi).1
  rw [getElem?_analyze words i hlt, Option.some.injEq] at hi
  subst hi
  have hsplit : Word.run (fun _ => .guest) interpreter.fprf state
      (words.take (i + 1) ++ words.drop (i + 1)) = .ok final := by
    rw [List.take_append_drop, ← Interpreter.run_eq]
    exact hrun
  obtain ⟨mid, hmid, hrest⟩ := Word.run_append hsplit
  obtain ⟨_, hmid', hagree⟩ := (State.Agrees.refl hon _).run hv _ _ hmid
  have hon' := hagree.left
  rw [← Interpreter.run_eq] at hmid hrest
  refine ⟨mid, hmid, ?_, ?_⟩
  · intro hca
    refine run_of_agrees hv ((State.Agrees.refl hon' _).put_right hv .xerCa ?_) hrest
    exact fun hw => nomatch (hw.symm.trans hca : true = false)
  · intro hfprf hclass cls
    refine run_of_agrees hv ((State.Agrees.refl hon' _).put_right hv .fpscr ⟨?_, ?_⟩) hrest
    · exact (State.Agrees.withClass_outside _ cls).symm
    · intro hw
      have hwanted : (Wanted.scan (words.drop (i + 1))).1.fprf = false := hclass
      simp [Wanted.under, hfprf, hwanted] at hw

/-- Between `addic` and another `addic` nobody looks at the carry bit, and before `fadds` nobody
looks at the class of the last result. -/
theorem unwanted_before_carrying_sum :
    ∃ mid final, Interpreter.run ⟨true⟩ (.zeroed .standard) [0x30640001] = .ok mid ∧
      Interpreter.run ⟨true⟩ (.zeroed .standard) [0x30640001, 0xEC22182A, 0x30A6FFFF] = .ok final ∧
      (∃ final', Interpreter.run ⟨true⟩ (mid.setXerCa (!mid.xerCa)) [0xEC22182A, 0x30A6FFFF] =
        .ok final' ∧ final.differences final' = []) ∧
      ∀ cls, ∃ final', Interpreter.run ⟨true⟩ (mid.setFpscr (Status.withClass mid.fpscr cls))
        [0xEC22182A, 0x30A6FFFF] = .ok final' ∧ final.differences final' = [] := by
  obtain ⟨mid, hmid, hca, hfprf⟩ := unwanted_has_no_influence Layout.valid_standard ⟨true⟩
    (State.On.zeroed Layout.valid_standard) [0x30640001, 0xEC22182A, 0x30A6FFFF] rfl 0 _ rfl
  exact ⟨mid, _, hmid, rfl, hca rfl, hfprf rfl rfl⟩

end Block

end Recompiler
