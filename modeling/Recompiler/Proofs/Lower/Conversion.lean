import Recompiler.Lower.Conversion
import Recompiler.Proofs.Lower.FloatCompare
import Recompiler.Proofs.Lower.Reciprocal

/-!
# Conversions between singles and doubles

The code of a conversion computes the host's conversion where a check allows it, and goes through a
routine otherwise.
-/

namespace Recompiler.Lower

open Alloc Arm Block PowerPC Emit Ieee

/-! ## Values -/

/-- Single `i` of a vector register. -/
def singleAt (v : BitVec 128) (i : Nat) : Single := v.extractLsb' (32 * i) 32

/-- What loads and stores make of a register. -/
def Conversion.exact (kind : Conversion) (v : BitVec 128) : BitVec 128 :=
  match kind with
  | .singleToDouble => join (Single.load (singleAt v 0)) 0
  | .singleToDoublePair => join (Single.load (singleAt v 0)) (Single.load (singleAt v 1))
  | .doubleToSingle => (Single.store (lane v 0)).setWidth 128
  | .doubleToSinglePair => join (Single.store (lane v 1) ++ Single.store (lane v 0)) 0

/-- The flags after the check of one single. -/
def lowerCheck (flush : Bool) (x : Single) : Flags :=
  .ofComparison (Single.compare? (flushSingle flush (x &&& ~~~Single.signMask)) 0)

/-- The number that the check of two singles compares with itself. -/
def pairMask (flush : Bool) (v : BitVec 128) : BitVec 128 :=
  let mask : BitVec 128 := join (greaterMagnitude flush (singleAt v 1) 0 ++
    greaterMagnitude flush (singleAt v 0) 0) 0
  withElement mask .byte 7 (element mask .byte 0)

/-- The flags after the check of two singles. -/
def pairCheck (flush : Bool) (v : BitVec 128) : Flags :=
  .ofComparison (comparison flush (lane (pairMask flush v) 0) (lane (pairMask flush v) 0))

namespace Conversion

/-- The call of the routine. -/
abbrev call (kind : Conversion) : PreparedCall :=
  ⟨kind.routine, passedIn kind.routine.convention⟩

/-- The flags after the check of a conversion. -/
def check (kind : Conversion) (flush : Bool) (v : BitVec 128) : Flags :=
  if kind.isLower then lowerCheck flush (singleAt v 0) else pairCheck flush v

/-- The condition on which the routine is called. -/
def farCond (kind : Conversion) : Cond := if kind.isLower then .le else .vc

/-- Whether the host's conversion is kept. -/
def keepsNative (kind : Conversion) (flush : Bool) (v : BitVec 128) : Bool :=
  !kind.farCond.holds (kind.check flush (if kind.toDouble then v else kind.native.eval flush v))

/-- Whether the host's conversion is tried. -/
def triesNative (kind : Conversion) (config : Config) (fast : Bool) : Bool :=
  if kind.toDouble then !config.exactConversions else fast

/-- Narrowing may be fast: the settings allow it, and the register is known to hold singles that
were rounded. -/
def fast (kind : Conversion) (s : Setting) (p : Bank 32 Precision) (src : GuestReg) :
    Bool :=
  !kind.toDouble && !s.config.exactConversions && (p.get src).isSingle kind.isLower &&
    s.hints.storeSafe.getLsbD src.val

/-- The precision that a conversion leaves. -/
def precision (kind : Conversion) : Precision :=
  if kind.toDouble then .bothSingle else .double

/-- What the code of a conversion computes. -/
def value (kind : Conversion) (native flush : Bool) (v : BitVec 128) : BitVec 128 :=
  if native && kind.keepsNative flush v then kind.native.eval flush v else kind.exact v

end Conversion

/-! ## Elements -/

theorem getLsbD_withElement (v : BitVec 128) (size : ElemSize) (index : Nat) (x : BitVec 64)
    {i : Nat} (hi : i < 128) : (withElement v size index x).getLsbD i =
      if size.bits * index ≤ i ∧ i < size.bits * index + size.bits then
        x.getLsbD (i - size.bits * index) else v.getLsbD i := by
  have hsize : size.bits ≤ 64 := by cases size <;> simp [ElemSize.bits]
  simp only [withElement, elementMask, BitVec.getLsbD_or, BitVec.getLsbD_and, BitVec.getLsbD_not,
    BitVec.getLsbD_shiftLeft, BitVec.getLsbD_setWidth, BitVec.getLsbD_allOnes, hi, decide_true,
    Bool.true_and]
  by_cases hlow : i < size.bits * index
  · have hnot : ¬(size.bits * index ≤ i ∧ i < size.bits * index + size.bits) := by omega
    simp [hlow, hnot]
  · by_cases hhigh : i < size.bits * index + size.bits
    · have hin : size.bits * index ≤ i ∧ i < size.bits * index + size.bits := by omega
      have h₁ : i - size.bits * index < 128 := by omega
      have h₂ : i - size.bits * index < size.bits := by omega
      simp [hlow, hin, h₁, h₂]
    · have hnot : ¬(size.bits * index ≤ i ∧ i < size.bits * index + size.bits) := by omega
      have h₁ : i - size.bits * index < 128 := by omega
      have h₂ : ¬(i - size.bits * index < size.bits) := by omega
      simp [hlow, hnot, h₁, h₂]

theorem getLsbD_join (low high : BitVec 64) (i : Nat) :
    (join low high).getLsbD i = if i < 64 then low.getLsbD i else high.getLsbD (i - 64) := by
  rw [join, BitVec.getLsbD_append]

theorem getLsbD_lane (v : BitVec 128) (index i : Nat) :
    (lane v index).getLsbD i = (decide (i < 64) && v.getLsbD (64 * index + i)) := by
  rw [lane, BitVec.getLsbD_extractLsb']

theorem withElement_double_one (v : BitVec 128) (x : BitVec 64) :
    withElement v .double 1 x = join (lane v 0) x := by
  apply BitVec.eq_of_getLsbD_eq
  intro i hi
  rw [getLsbD_withElement v .double 1 x hi, getLsbD_join, getLsbD_lane]
  by_cases h : i < 64
  · have hnot : ¬(64 ≤ i ∧ i < 64 + 64) := by omega
    simp [ElemSize.bits, h, hnot]
  · have hin : 64 ≤ i ∧ i < 64 + 64 := by omega
    simp [ElemSize.bits, h, hin]

theorem withElement_single_zero (x : Single) :
    withElement 0 .single 0 (x.setWidth 64) = x.setWidth 128 := by
  apply BitVec.eq_of_getLsbD_eq
  intro i hi
  rw [getLsbD_withElement 0 .single 0 _ hi]
  by_cases h : i < 32
  · have hw : i < 64 := by omega
    simp [ElemSize.bits, h, hi, hw]
  · simp [ElemSize.bits, h, BitVec.getLsbD_of_ge x i (by omega)]

theorem withElement_pair (v : BitVec 128) (x y : Single) :
    withElement (withElement (withElement v .single 0 (x.setWidth 64)) .single 1 (y.setWidth 64))
      .double 1 0 = join (y ++ x) 0 := by
  apply BitVec.eq_of_getLsbD_eq
  intro i hi
  rw [getLsbD_withElement _ .double 1 _ hi, getLsbD_withElement _ .single 1 _ hi,
    getLsbD_withElement _ .single 0 _ hi, getLsbD_join, BitVec.getLsbD_append]
  simp only [ElemSize.bits]
  by_cases h₁ : i < 32
  · have h₂ : i < 64 := by omega
    have h₃ : ¬(64 ≤ i) := by omega
    have h₄ : ¬(32 ≤ i) := by omega
    simp [h₁, h₂, h₃, h₄]
  · by_cases h₂ : i < 64
    · have h₃ : ¬(64 ≤ i) := by omega
      have h₄ : 32 ≤ i := by omega
      have h₅ : i - 32 < 64 := by omega
      simp [h₁, h₂, h₃, h₄, h₅]
    · have h₃ : 64 ≤ i ∧ i < 64 + 64 := by omega
      simp [h₂, h₃]

theorem singleAt_narrow (x : Single) : singleAt (x.setWidth 128) 0 = x := by
  apply BitVec.eq_of_getLsbD_eq
  intro i hi
  have hwide : i < 128 := by omega
  simp [singleAt, hi, hwide]

theorem element_single (v : BitVec 128) (i : Nat) :
    (element v .single i).setWidth 32 = singleAt v i := by
  simp [element, singleAt, ElemSize.bits]

end Recompiler.Lower

namespace Recompiler.Emit

open Alloc Arm Block PowerPC Lower Ieee

variable {s : Setting} {c : Contents} {e e' : Emitter} {m m' : Machine} {p : Bank 32 Precision}
  {pd : Bank 32 (Option Precision)} {carry : Carry} {f : FloatStage} {k : Nat}
  {hole : Option IntSlot} {dst src : HostReg} {v : BitVec 128} {kind : Conversion}

/-! ## Through the routine -/

/-- The code of a conversion by routine. -/
def routineCode (kind : Conversion) (call : PreparedCall) (saved : RegSet) (dst src : HostReg) :
    List Inst :=
  match kind with
  | .singleToDouble =>
    call.code saved [.fmovToGeneral .single 0 src] [.fmovFromGeneral .double dst 1]
  | .singleToDoublePair =>
    call.code saved [.umov .single 0 src 1] [.insGeneral .double dst 1 1] ++
      call.code saved [.fmovToGeneral .single 0 src] [.insGeneral .double dst 0 1]
  | .doubleToSingle =>
    call.code saved [.fmovToGeneral .double 0 src] [.fmovFromGeneral .single dst 1]
  | .doubleToSinglePair =>
    call.code saved [.fmovToGeneral .double 0 src] [.insGeneral .single dst 0 1] ++
      (call.code saved [.umov .double 0 src 1] [.insGeneral .single dst 1 1] ++
        [.insGeneral .double dst 1 zeroReg])

/-- How many calls that takes. -/
def routineCalls (kind : Conversion) : Nat := if kind.isLower then 1 else 2

theorem run_convertByRoutine (kind : Conversion) (call : PreparedCall) (dst src : HostReg)
    (e : Emitter) : (convertByRoutine kind call dst src).run.run e = (.ok (), { e with
      code := e.code.emitAll (routineCode kind call (call.saved e.integers) dst src)
      stats := { e.stats with helperCalls := e.stats.helperCalls + routineCalls kind } }) := by
  cases kind with
  | singleToDouble | doubleToSingle => rfl
  | singleToDoublePair =>
    rw [routineCode, CodeBuffer.emitAll_append]
    rfl
  | doubleToSinglePair =>
    rw [routineCode, CodeBuffer.emitAll_append, CodeBuffer.emitAll_append]
    rfl

/-- What the code of a conversion leaves of the machine, if it saves the given registers. -/
structure AfterConversion (routine : Routine) (saved : RegSet) (dst : HostReg) (v : BitVec 128)
    (m m' : Machine) : Prop where
  x : ∀ q : HostReg, saved.contains q = true ∨ routine.convention.clobbers.contains q = false →
    m'.getX q = m.getX q
  others : ∀ q, q ≠ dst → m'.getV q = m.getV q
  value : m'.getV dst = v
  state : m'.state = m.state
  stack : m'.stack = m.stack
  flush : m'.flush = m.flush
  interpreter : m'.interpreter = m.interpreter

theorem AfterConversion.trans {routine : Routine} {saved : RegSet} {v w : BitVec 128}
    {l m n : Machine} (h : AfterConversion routine saved dst v l m)
    (h' : AfterConversion routine saved dst w m n) : AfterConversion routine saved dst w l n where
  x q hq := (h'.x q hq).trans (h.x q hq)
  others q hq := (h'.others q hq).trans (h.others q hq)
  value := h'.value
  state := h'.state.trans h.state
  stack := h'.stack.trans h.stack
  flush := h'.flush.trans h.flush
  interpreter := h'.interpreter.trans h.interpreter

/-- Both routines take their argument in the first register and leave their result in the
second. -/
theorem convention_routine (kind : Conversion) : kind.routine.convention.arg = 0 ∧
    kind.routine.convention.result = some 1 ∧
      ∀ arg state, kind.routine.effect arg state = state := by
  cases kind <;> exact ⟨rfl, rfl, fun _ _ => rfl⟩

/-- One call of a conversion. -/
theorem exec_convertCall (kind : Conversion) (m : Machine) (locked : RegSet) {saved : RegSet}
    (setup take : Inst) (dst : HostReg) (arg : BitVec 64) {result : BitVec 64}
    (place : BitVec 128 → BitVec 64 → BitVec 128)
    (hvalue : kind.routine.value arg = some result)
    (hsaved : ∀ q : HostReg, saved.contains q = true →
      kind.routine.convention.clobbers.contains q = true)
    (hsetup : ∀ n : Machine, n.v = m.v → n.step setup = .next (n.setX 0 arg))
    (htake : ∀ n : Machine, n.step take = .next (n.setV dst (place (n.getV dst) (n.getX 1)))) :
    ∃ m', m.execAll (PreparedCall.code ⟨kind.routine, locked⟩ saved [setup] [take]) = some m' ∧
      AfterConversion kind.routine saved dst (place (m.getV dst) result) m m' := by
  obtain ⟨harg, hresult, heffect⟩ := convention_routine kind
  have hsetup' : ∀ n : Machine, n.v = m.v →
      n.step setup = .next (n.setX kind.routine.convention.arg arg) := by
    rw [harg]
    exact hsetup
  have htear : ∀ n : Machine, n.v = m.v → (∀ r w, kind.routine.convention.result = some r →
      kind.routine.value arg = some w → n.getX r = w) →
      n.execAll [take] = some { n with v := m.v.set dst (place (m.getV dst) result) } := by
    intro n hn hr
    rw [Machine.execAll_cons _ (htake n), hr _ _ hresult hvalue, Machine.execAll_nil]
    simp only [Machine.setV, Machine.getV, hn]
  obtain ⟨m', hexec, hafter⟩ :=
    Machine.exec_callCode ⟨kind.routine, locked⟩ saved hsetup' htear hsaved
  refine ⟨m', hexec, hafter.x, ?_, ?_, hafter.state.trans (heffect _ _), hafter.stack, hafter.flush,
    hafter.interpreter⟩
  · intro q hq
    rw [Machine.getV, hafter.v, Bank.get_set_of_ne _ _ hq]
    rfl
  · rw [Machine.getV, hafter.v, Bank.get_set_self]

theorem setX_element (n : Machine) {size : ElemSize} {i : Nat} (hi : size.holds i = true)
    (r src : HostReg) : n.step (.umov size r src i) =
      .next (n.setX r (element (n.getV src) size i)) := by
  simp only [Machine.step, Machine.readElement, hi, if_true]
  rfl

theorem getV_of_v {n : Machine} (h : n.v = m.v) (q : HostReg) : n.getV q = m.getV q :=
  congrArg (fun bank => Bank.get bank q) h

theorem element_double (v : BitVec 128) (i : Nat) : element v .double i = lane v i := by
  simp [element, lane, ElemSize.bits]

/-- The low half of a register does not see its upper lane. -/
theorem singleAt_upper (v : BitVec 128) (x : BitVec 64) :
    singleAt (withElement v .double 1 x) 0 = singleAt v 0 := by
  rw [withElement_double_one]
  apply BitVec.eq_of_getLsbD_eq
  intro i hi
  have hi' : i < 64 := by omega
  simp only [singleAt, BitVec.getLsbD_extractLsb', hi, decide_true, Bool.true_and, Nat.mul_zero,
    Nat.zero_add, getLsbD_join, getLsbD_lane, hi', if_true]

/-- The upper lane of a register does not see its low single. -/
theorem lane_one_low (v : BitVec 128) (x : BitVec 64) :
    lane (withElement v .single 0 x) 1 = lane v 1 := by
  apply BitVec.eq_of_getLsbD_eq
  intro i hi
  have hnot : ¬(ElemSize.single.bits * 0 ≤ 64 * 1 + i ∧
      64 * 1 + i < ElemSize.single.bits * 0 + ElemSize.single.bits) := by
    simp only [ElemSize.bits]
    omega
  rw [getLsbD_lane, getLsbD_lane, getLsbD_withElement v .single 0 x (by omega), if_neg hnot]

/-- What was not written is still there for the second half of a pair, also in place. -/
theorem AfterConversion.read {α : Type} {routine : Routine} {saved : RegSet} {w : BitVec 128}
    (h : AfterConversion routine saved dst w m m') (src : HostReg) (view : BitVec 128 → α)
    (hw : src = dst → view w = view (m.getV src)) : view (m'.getV src) = view (m.getV src) := by
  by_cases hs : src = dst
  · rw [← hw hs, ← h.value, hs]
  · rw [h.others src hs]

section Halves

variable {saved locked : RegSet}

theorem exec_widenPair
    (hsaved : ∀ q : HostReg, saved.contains q = true →
      Routine.singleToDouble.convention.clobbers.contains q = true) (m : Machine)
    (dst src : HostReg) :
    ∃ m', m.execAll (routineCode .singleToDoublePair ⟨.singleToDouble, locked⟩ saved dst src) =
        some m' ∧ AfterConversion .singleToDouble saved dst
          (Conversion.exact .singleToDoublePair (m.getV src)) m m' := by
  obtain ⟨m₁, hexec₁, hafter₁⟩ := exec_convertCall .singleToDoublePair m locked
    (.umov .single 0 src 1) (.insGeneral .double dst 1 1) dst
    (element (m.getV src) .single 1) (fun old w => withElement old .double 1 w) rfl hsaved
    (fun n hn => by rw [← getV_of_v hn]; exact setX_element n rfl 0 src) (fun _ => rfl)
  have hlow := hafter₁.read src (fun v => singleAt v 0) fun hs => by
    rw [hs]
    exact singleAt_upper _ _
  obtain ⟨m₂, hexec₂, hafter₂⟩ := exec_convertCall .singleToDoublePair m₁ locked
    (.fmovToGeneral .single 0 src) (.insGeneral .double dst 0 1) dst
    (element (m₁.getV src) .single 0) (fun old w => withElement old .double 0 w) rfl hsaved
    (fun n hn => by rw [← getV_of_v hn]; rfl) (fun _ => rfl)
  refine ⟨m₂, (Machine.execAll_append _ hexec₁).trans hexec₂, ?_⟩
  have hboth := hafter₁.trans hafter₂
  rw [hafter₁.value, element_single, element_single, hlow, withElement_double_zero,
    withElement_double_one, lane_join_one] at hboth
  exact hboth

theorem exec_narrowPair
    (hsaved : ∀ q : HostReg, saved.contains q = true →
      Routine.doubleToSingle.convention.clobbers.contains q = true) (m : Machine)
    (dst src : HostReg) :
    ∃ m', m.execAll (routineCode .doubleToSinglePair ⟨.doubleToSingle, locked⟩ saved dst src) =
        some m' ∧ AfterConversion .doubleToSingle saved dst
          (Conversion.exact .doubleToSinglePair (m.getV src)) m m' := by
  obtain ⟨m₁, hexec₁, hafter₁⟩ := exec_convertCall .doubleToSinglePair m locked
    (.fmovToGeneral .double 0 src) (.insGeneral .single dst 0 1) dst
    (element (m.getV src) .double 0) (fun old w => withElement old .single 0 w) rfl hsaved
    (fun n hn => by rw [← getV_of_v hn]; rfl) (fun _ => rfl)
  have hhigh := hafter₁.read src (fun v => lane v 1) fun hs => by rw [hs]; exact lane_one_low _ _
  obtain ⟨m₂, hexec₂, hafter₂⟩ := exec_convertCall .doubleToSinglePair m₁ locked
    (.umov .double 0 src 1) (.insGeneral .single dst 1 1) dst
    (element (m₁.getV src) .double 1) (fun old w => withElement old .single 1 w) rfl hsaved
    (fun n hn => by rw [← getV_of_v hn]; exact setX_element n rfl 0 src) (fun _ => rfl)
  have hlast : m₂.step (.insGeneral .double dst 1 zeroReg) =
      .next (m₂.setV dst (withElement (m₂.getV dst) .double 1 0)) := by
    rw [← m₂.getX_zeroReg]
    rfl
  have hafter₃ : AfterConversion .doubleToSingle saved dst (withElement (m₂.getV dst) .double 1 0)
      m₂ (m₂.setV dst (withElement (m₂.getV dst) .double 1 0)) :=
    ⟨fun _ _ => rfl, fun q hq => by rw [Machine.getV_setV, if_neg hq],
      by rw [Machine.getV_setV, if_pos rfl], rfl, rfl, rfl, rfl⟩
  refine ⟨_, (Machine.execAll_append _ hexec₁).trans ((Machine.execAll_append _ hexec₂).trans
    ((Machine.execAll_cons _ hlast).trans (Machine.execAll_nil _))), ?_⟩
  have hvalue : withElement (m₂.getV dst) .double 1 0 =
      Conversion.exact .doubleToSinglePair (m.getV src) := by
    rw [hafter₂.value, hafter₁.value, element_double, element_double, hhigh, withElement_pair]
    rfl
  exact hvalue ▸ (hafter₁.trans hafter₂).trans hafter₃

end Halves

/-- The code of a conversion by routine gives the exact result, also in place. -/
theorem exec_routineCode (kind : Conversion) (m : Machine) (locked : RegSet) {saved : RegSet}
    (dst src : HostReg) (hsaved : ∀ q : HostReg, saved.contains q = true →
      kind.routine.convention.clobbers.contains q = true) :
    ∃ m', m.execAll (routineCode kind ⟨kind.routine, locked⟩ saved dst src) = some m' ∧
      AfterConversion kind.routine saved dst (kind.exact (m.getV src)) m m' := by
  cases kind with
  | singleToDouble =>
    obtain ⟨m', hexec, hafter⟩ := exec_convertCall .singleToDouble m locked
      (.fmovToGeneral .single 0 src) (.fmovFromGeneral .double dst 1) dst
      (element (m.getV src) .single 0) (fun _ w => withElement 0 .double 0 w) rfl hsaved
      (fun n hn => by rw [← getV_of_v hn]; rfl) (fun _ => rfl)
    rw [element_single, withElement_zero] at hafter
    exact ⟨m', hexec, hafter⟩
  | doubleToSingle =>
    obtain ⟨m', hexec, hafter⟩ := exec_convertCall .doubleToSingle m locked
      (.fmovToGeneral .double 0 src) (.fmovFromGeneral .single dst 1) dst
      (element (m.getV src) .double 0) (fun _ w => withElement 0 .single 0 w) rfl hsaved
      (fun n hn => by rw [← getV_of_v hn]; rfl) (fun _ => rfl)
    rw [element_double, withElement_single_zero] at hafter
    exact ⟨m', hexec, hafter⟩
  | singleToDoublePair => exact exec_widenPair hsaved m dst src
  | doubleToSinglePair => exact exec_narrowPair hsaved m dst src

/-- The emitter stands for the same contents after the code of a conversion, except for a vector
register that no slot needs. -/
theorem Sim.of_conversion (h : Sim s ⟨s.calling kind.routine, .inGuestState, f⟩ c e m)
    (hl : LooseV f e dst)
    (hconv : AfterConversion kind.routine (kind.call.saved e.integers) dst v m m') :
    Sim s ⟨s.calling kind.routine, .inGuestState, f⟩ c e m' := by
  refine h.of_machine m' c.fpscr ?_ ?_ (hconv.state ▸ h.ints.holds.on)
    (by rw [hconv.state]; exact h.around.fpscr) (fun cell _ => by rw [hconv.state]) hconv.stack
    hconv.flush hconv.interpreter
  · intro slot r hb _
    refine hconv.x r ?_
    cases hr : kind.routine.convention.clobbers.contains r with
    | false => exact .inr rfl
    | true => exact .inl (h.saved_of_clobbers hb hr)
  · intro reg r hb hhole
    refine hconv.others r ?_
    rintro rfl
    exact hhole (hl reg hb)

/-! ## With a far path -/

/-- A near instruction with a far path instead of it. -/
def farPiece (cond : Cond) (near : Inst) (code : List Inst) : Piece where
  near := [.branchIf cond 0, near]
  far := code ++ [.branch 0]
  places := [⟨.far, 0⟩, ⟨.near, 2⟩]
  branches := [(⟨.near, 0⟩, 0), (⟨.far, code.length⟩, 1)]

theorem farPiece_ok (cond : Cond) (near : Inst) (code : List Inst) :
    (farPiece cond near code).Ok where
  branch := by simp [farPiece, Piece.inst?, Inst.isBranch]
  label := by simp [farPiece]
  once := by simp [farPiece]

/-- How the code is written. -/
def farSteps (cond : Cond) (near : Inst) (code : List Inst) : List Asm :=
  [.label, .label, .branch (.branchIf cond 0) 0, .emit near, .place 1, .switch .far, .place 0] ++
    code.map .emit ++ [.branch (.branch 0) 1, .switch .near]

theorem farPiece_writes (cond : Cond) (near : Inst) (code : List Inst) :
    CodeBuffer.Writes (farSteps cond near code) (farPiece cond near code) := by
  have hwrite : CodeBuffer.writeAll 0 {} (farSteps cond near code) =
      { near := #[.branchIf cond 0, near]
        far := (code ++ [Inst.branch 0]).toArray
        region := .near
        labels := #[some ⟨.far, 0⟩, some ⟨.near, 2⟩]
        fixups := #[⟨⟨.near, 0⟩, 0⟩, ⟨⟨.far, code.length⟩, 1⟩] } := by
    rw [farSteps, CodeBuffer.writeAll_append, CodeBuffer.writeAll_append, CodeBuffer.writeAll_emit,
      CodeBuffer.emitAll_far code rfl]
    simp [CodeBuffer.writeAll, CodeBuffer.write, CodeBuffer.addLabel, CodeBuffer.placeLabel,
      CodeBuffer.branchTo, CodeBuffer.switchTo, CodeBuffer.emit, CodeBuffer.here, CodeBuffer.code]
  constructor <;> rw [hwrite] <;> rfl

theorem farPiece_run_near {cond : Cond} {near : Inst} {code : List Inst}
    (hc : cond.holds m.flags = false) (hs : m.step near = .next m') :
    (farPiece cond near code).run (farPiece cond near code).size ⟨.near, 0⟩ m = some m' := by
  have hbranch : m.step (.branchIf cond 0) = .next m := by
    simp only [Machine.step, hc, Bool.false_eq_true, if_false]
  have hsize : (farPiece cond near code).size = code.length + 1 + 1 + 1 := by
    simp [Piece.size, farPiece]
    omega
  rw [hsize, Piece.run_next rfl hbranch, Piece.run_next rfl hs]
  exact Piece.run_end _ _ _

theorem farPiece_run_far {cond : Cond} {near : Inst} {code : List Inst}
    (hc : cond.holds m.flags = true) (hexec : m.execAll code = some m') :
    (farPiece cond near code).run (farPiece cond near code).size ⟨.near, 0⟩ m = some m' := by
  have hbranch : m.step (.branchIf cond 0) = .jump 0 m := by
    simp only [Machine.step, hc, if_true]
  have hsize : (farPiece cond near code).size = code.length + (1 + 1) + 1 := by
    simp [Piece.size, farPiece]
    omega
  have hcode : ∀ j, j < code.length →
      (farPiece cond near code).inst? ⟨.far, 0 + j⟩ = code[j]? := by
    intro j hj
    rw [Nat.zero_add]
    exact List.getElem?_append_left hj
  have hlast : (farPiece cond near code).inst? ⟨.far, 0 + code.length⟩ = some (.branch 0) := by
    simp [farPiece, Piece.inst?]
  have htarget : (farPiece cond near code).target? ⟨.far, 0 + code.length⟩ = some ⟨.near, 2⟩ := by
    have hne : ((⟨.far, code.length⟩ : Position) == ⟨.near, 0⟩) = false := by
      rw [beq_eq_false_iff_ne]
      simp
    simp [farPiece, Piece.target?, List.lookup_cons, hne]
  rw [hsize, Piece.run_jump rfl hbranch rfl, Piece.run_execAll hcode hexec,
    Piece.run_jump hlast rfl htarget]
  exact Piece.run_end _ _ _

/-- The steps of the code one after the other. -/
theorem writeAll_farSteps (b : CodeBuffer) (base : Nat) (cond : Cond) (near : Inst)
    (code : List Inst) : b.writeAll base (farSteps cond near code) =
      (((((((b.addLabel.addLabel.branchTo (.branchIf cond 0) base).emit near).placeLabel
        (base + 1)).switchTo .far).placeLabel base).emitAll code).branchTo (.branch 0)
          (base + 1)).switchTo .near := by
  simp only [farSteps, CodeBuffer.writeAll_append, CodeBuffer.writeAll_emit]
  simp only [CodeBuffer.writeAll, List.foldl_cons, List.foldl_nil, CodeBuffer.write, Nat.add_zero]

theorem run_withFarPath (kind : Conversion) (call : PreparedCall) (dst src : HostReg) (cond : Cond)
    {near : EmitM Unit} {inst : Inst} {after : Vectors → Vectors}
    (hnear : ∀ e : Emitter, near.run.run e =
      (.ok (), { e with code := e.code.emit inst, vectors := after e.vectors })) (e : Emitter) :
    (withFarPath kind call dst src cond near).run.run e = (finishCall call).run.run { e with
      code := e.code.writeAll e.code.labels.size
        (farSteps cond inst (routineCode kind call (call.saved e.integers) dst src))
      vectors := after e.vectors
      stats := { e.stats with helperCalls := e.stats.helperCalls + routineCalls kind } } := by
  rw [writeAll_farSteps, withFarPath, run_newLabel, run_newLabel, run_branchTo]
  dsimp only
  rw [run_bind_ok (hnear _), run_placeLabel, run_switchTo]
  dsimp only
  rw [run_placeLabel, run_bind_ok (run_convertByRoutine _ _ _ _ _)]
  dsimp only
  rw [run_branchTo, run_switchTo, size_labels_addLabel]

/-- A conversion by the host on the near path, and by routine on the far path. -/
theorem Sim.withFarPath_spec {reg : GuestReg} {held : RegSet} {cond : Cond} {near : EmitM Unit}
    {inst : Inst} {after : Vectors → Vectors} {k' : Nat}
    (h : Sim s ⟨s.calling kind.routine, .inGuestState, ⟨⟨k, held, .empty, some reg⟩, p, pd⟩⟩ c e m)
    (hb : e.vectors.cache.Bound reg dst)
    (hnear : ∀ e : Emitter, near.run.run e =
      (.ok (), { e with code := e.code.emit inst, vectors := after e.vectors }))
    (hafter : ∀ c e m, Sim s ⟨s.calling kind.routine, .inGuestState,
      ⟨⟨k, held, .empty, none⟩, p, pd⟩⟩ c e m → Sim s ⟨s.calling kind.routine, .inGuestState,
        ⟨⟨k', .empty, .empty, none⟩, p, pd⟩⟩ c { e with vectors := after e.vectors } m)
    (hon : cond.holds m.flags = false → m.step inst = .next (m.setV dst v))
    (hoff : cond.holds m.flags = true → kind.exact (m.getV src) = v) :
    wp (withFarPath kind kind.call dst src cond near)
      (fun _ => FloatEnds s p pd (c.setPs reg v)) e m := by
  have hloose := h.looseV_bound hb rfl
  -- either path gives the destination its value and leaves the rest alone
  obtain ⟨piece, hpiece⟩ : ∃ piece, piece = farPiece cond inst
    (routineCode kind kind.call (kind.call.saved e.integers) dst src) := ⟨_, rfl⟩
  have hrun : ∃ m', piece.run piece.size ⟨.near, 0⟩ m = some m' ∧ m'.getV dst = v ∧
      Sim s ⟨s.calling kind.routine, .inGuestState,
        ⟨⟨k, held, .empty, some reg⟩, p, pd⟩⟩ c e m' := by
    rw [hpiece]
    cases hc : cond.holds m.flags with
    | false =>
      exact ⟨_, farPiece_run_near hc (hon hc), by rw [Machine.getV_setV, if_pos rfl],
        h.of_sameV hloose (.setV m dst v)⟩
    | true =>
      have hsaved : ∀ q : HostReg, (kind.call.saved e.integers).contains q = true →
          kind.call.routine.convention.clobbers.contains q = true := fun q hq => saved_subset hq
      obtain ⟨m', hexec, hconv⟩ := exec_routineCode kind m kind.call.locked dst src
        hsaved
      refine ⟨m', farPiece_run_far hc hexec, hconv.value.trans (hoff hc), ?_⟩
      exact h.of_conversion hloose hconv
  obtain ⟨m', hm', hv, h'⟩ := hrun
  have hok : piece.Ok := hpiece ▸ farPiece_ok cond inst _
  have hwrites := farPiece_writes cond inst
    (routineCode kind kind.call (kind.call.saved e.integers) dst src)
  rw [← hpiece] at hwrites
  have hemit := run_withFarPath kind kind.call dst src cond hnear e
  generalize farSteps cond inst (routineCode kind kind.call (kind.call.saved e.integers) dst src) =
    steps at hwrites hemit
  have hf := hwrites.follows h.fixed.code.region
  refine wp_of_run hemit (hf.runs h.fixed.code hok hm') ?_
  have h₁ := hafter _ _ _ ((h'.closePs hb hv).with_buffer (hf.ok h.fixed.code hok))
  refine wp_mono (h₁.with_stats _).finishCall_spec ?_
  rintro - e₂ m₂ ⟨h₂, -, -⟩
  exact ⟨_, _, h₂⟩

/-! ## Checks -/

theorem exec_lowerCheck (m : Machine) (temp src : HostReg) :
    ∃ m', m.execAll [.fabsSingle temp src, .fcmpSingle temp] = some m' ∧
      SameButV temp m m' ∧ m'.flags = lowerCheck m.flush (singleAt (m.getV src) 0) := by
  refine ⟨_, rfl, (SameButV.setV m temp _).flags _, ?_⟩
  have hlow : singleAt ((m.setV temp ((singleAt (m.getV src) 0 &&& ~~~Single.signMask).setWidth
      128)).getV temp) 0 = singleAt (m.getV src) 0 &&& ~~~Single.signMask := by
    rw [Machine.getV_setV, if_pos rfl, singleAt_narrow]
  exact congrArg (fun x => Flags.ofComparison (Single.compare? (flushSingle m.flush x) 0)) hlow

theorem exec_bothNonzeroCode (m : Machine) (mask : HostReg) {src : HostReg}
    (hsrc : src ≠ vectorScratch) :
    ∃ m', m.execAll (bothNonzeroCode mask src) = some m' ∧ SameButV mask m m' ∧
      m'.flags = pairCheck m.flush (m.getV src) := by
  -- what each instruction gives, in the words of the check
  have hgreater : ∀ n : Machine, n.step (.facgtSingle mask src vectorScratch) =
      .next (n.setV mask (join (greaterMagnitude n.flush (singleAt (n.getV src) 1)
        (singleAt (n.getV vectorScratch) 1) ++ greaterMagnitude n.flush (singleAt (n.getV src) 0)
          (singleAt (n.getV vectorScratch) 0)) 0)) := fun _ => rfl
  have hfold : ∀ n : Machine, n.step (.insElement .byte mask 7 mask 0) =
      .next (n.setV mask (withElement (n.getV mask) .byte 7 (element (n.getV mask) .byte 0))) :=
    fun _ => rfl
  have hcompare : ∀ n : Machine, n.step (.fcmp mask (some mask)) = .next { n with
      flags := .ofComparison (comparison n.flush (lane (n.getV mask) 0) (lane (n.getV mask) 0)) } :=
    fun _ => rfl
  have hzero : m.step (.vmovImm vectorScratch 0) = .next (m.setV vectorScratch (join 0 0)) := rfl
  have hlow : singleAt (join 0 0) 0 = 0 := by decide
  have hhigh : singleAt (join 0 0) 1 = 0 := by decide
  rw [bothNonzeroCode, Machine.execAll_cons _ hzero, Machine.execAll_cons _ (hgreater _),
    Machine.execAll_cons _ (hfold _), Machine.execAll_cons _ (hcompare _), Machine.execAll_nil]
  refine ⟨_, rfl, .flags (((SameButV.scratch m mask _).trans (.setV _ mask _)).trans
    (.setV _ mask _)) _, ?_⟩
  simp only [Machine.getV_setV, if_true, if_neg hsrc, hlow, hhigh]
  rfl

theorem exec_narrow (kind : Conversion) (m : Machine) (temp src : HostReg) :
    ∃ m', m.execAll [.fcvt kind.native temp src] = some m' ∧ SameButV temp m m' ∧
      m'.getV temp = kind.native.eval m.flush (m.getV src) :=
  ⟨_, rfl, .setV m temp _, by rw [Machine.getV_setV, if_pos rfl]⟩

theorem SameButV.of_scratch (h : SameButV vectorScratch m m') : SameButV dst m m' :=
  ⟨h.x, fun r _ hs => h.v r hs hs, h.state, h.stack, h.flush, h.interpreter⟩

/-- The code of the check before widening. -/
def widenCheck (kind : Conversion) (temp src : HostReg) : List Inst :=
  if kind.isLower then [.fabsSingle temp src, .fcmpSingle temp] else bothNonzeroCode temp src

theorem exec_widenCheck (kind : Conversion) (m : Machine) (temp : HostReg) {src : HostReg}
    (hsrc : src ≠ vectorScratch) :
    ∃ m', m.execAll (widenCheck kind temp src) = some m' ∧ SameButV temp m m' ∧
      m'.flags = kind.check m.flush (m.getV src) := by
  unfold widenCheck Conversion.check
  split
  · exact exec_lowerCheck m temp src
  · exact exec_bothNonzeroCode m temp hsrc

/-! ## Conversions between registers -/

section Registers

variable {reg : GuestReg} {val : BitVec 128}

theorem widenChecked_eq (kind : Conversion) (call : PreparedCall) (dst src : HostReg) :
    widenChecked kind call dst src = (do
      let temp ← scratchVector
      emitAll (widenCheck kind temp src)
      releaseVector temp
      withFarPath kind call dst src kind.farCond (emit (.fcvt kind.native dst src))) := by
  cases kind <;> rfl

/-- Widening with the check before it. -/
theorem Sim.widenChecked_spec (hkind : kind.toDouble = true)
    (h : Sim s ⟨s.calling kind.routine, .inGuestState, ⟨⟨k + 1, .empty, .empty, some reg⟩, p, pd⟩⟩ c
      e m) (hb : e.vectors.cache.Bound reg dst) (hsrc : e.HasV m src val) :
    wp (widenChecked kind kind.call dst src)
      (fun _ => FloatEnds s p pd (c.setPs reg (kind.value true s.flush val))) e m := by
  rw [widenChecked_eq]
  refine wp_bind h.scratchVector_spec ?_
  rintro temp e₁ m₁ ⟨h₁, hk₁, hfree, -, hne⟩
  have hsrc₁ := hk₁.hasV hsrc
  have hheld : (RegSet.empty.insert temp).contains temp = true := RegSet.contains_insert_self _ _
  obtain ⟨m₂, hexec, hsame, hflags⟩ :=
    exec_widenCheck kind m₁ temp (h₁.ne_vectorScratch hsrc₁.owns)
  refine wp_bind (h₁.emitAllV (h₁.looseV_held hheld) hexec hsame) ?_
  rintro - e₃ m₃ ⟨h₃, hk₃, rfl⟩
  refine wp_bind (h₃.releaseVector_spec hfree) ?_
  rintro - e₄ m₄ ⟨h₄, hk₄, rfl⟩
  have hne' : src ≠ temp := hne src hsrc.owns
  have hsrc₄ := hk₄.hasV hne' (hk₃.hasV hne' hsrc₁)
  have hb₄ := hk₄.boundV _ _ (hk₃.boundV _ _ (hk₁.boundV _ _ hb))
  have hholds : kind.farCond.holds m₄.flags = !kind.keepsNative s.flush val := by
    rw [hflags, hsrc₁.val, h₁.around.flush, Conversion.keepsNative, hkind, if_pos rfl, Bool.not_not]
  have hemit : ∀ e : Emitter, (emit (.fcvt kind.native dst src)).run.run e = (.ok (), { e with
      code := e.code.emit (.fcvt kind.native dst src), vectors := id e.vectors }) := fun _ => rfl
  refine h₄.withFarPath_spec hb₄ hemit (fun _ _ _ h => h) ?_ ?_
  · intro hnear
    rw [hholds, Bool.not_eq_false'] at hnear
    have hstep : m₄.step (.fcvt kind.native dst src) =
        .next (m₄.setV dst (kind.native.eval m₄.flush (m₄.getV src))) := rfl
    rw [hstep, hsrc₄.val, h₄.around.flush, Conversion.value, hnear, Bool.and_self, if_pos rfl]
  · intro hfar
    rw [hholds, Bool.not_eq_true'] at hfar
    rw [hsrc₄.val, Conversion.value, hfar, Bool.and_false, if_neg Bool.false_ne_true]

/-- Narrowed values are kept if they pass the check. -/
theorem Sim.keepNarrowed_spec {temp : HostReg} (hkind : kind.toDouble = false)
    (h : Sim s ⟨s.calling kind.routine, .inGuestState,
      ⟨⟨k, RegSet.empty.insert temp, .empty, some reg⟩, p, pd⟩⟩ c e m)
    (hb : e.vectors.cache.Bound reg dst) (hsrc : m.getV src = val)
    (htemp : m.getV temp = kind.native.eval s.flush val)
    (hflags : m.flags = kind.check s.flush (kind.native.eval s.flush val)) :
    wp (withFarPath kind kind.call dst src kind.farCond do
      emit (.vmov dst temp)
      releaseVector temp)
      (fun _ => FloatEnds s p pd (c.setPs reg (kind.value true s.flush val))) e m := by
  have hholds : kind.farCond.holds m.flags = !kind.keepsNative s.flush val := by
    rw [hflags, Conversion.keepsNative, hkind, if_neg Bool.false_ne_true, Bool.not_not]
  obtain ⟨after, hafter⟩ : ∃ after : Vectors → Vectors,
    after = fun vectors => { vectors with cache := vectors.cache.release temp } := ⟨_, rfl⟩
  have hkeep : ∀ e : Emitter, (do
      emit (.vmov dst temp)
      releaseVector temp : EmitM Unit).run.run e = (.ok (), { e with
        code := e.code.emit (.vmov dst temp), vectors := after e.vectors }) := by
    intro e
    rw [hafter]
    rfl
  have hrelease : ∀ c e m, Sim s ⟨s.calling kind.routine, .inGuestState,
      ⟨⟨k, RegSet.empty.insert temp, .empty, none⟩, p, pd⟩⟩ c e m →
        Sim s ⟨s.calling kind.routine, .inGuestState, ⟨⟨k + 1, .empty, .empty, none⟩, p, pd⟩⟩ c
          { e with vectors := after e.vectors } m := by
    intro c e m h
    obtain ⟨hat, -⟩ := h.vecs.release (RegSet.contains_empty _)
    rw [hafter]
    exact ⟨{ h.fixed with }, h.around, h.ints, hat, h.ca⟩
  refine h.withFarPath_spec hb hkeep hrelease ?_ ?_
  · intro hnear
    rw [hholds, Bool.not_eq_false'] at hnear
    have hstep : m.step (.vmov dst temp) = .next (m.setV dst (m.getV temp)) := rfl
    rw [hstep, htemp, Conversion.value, hnear, Bool.and_self, if_pos rfl]
  · intro hfar
    rw [hholds, Bool.not_eq_true'] at hfar
    rw [hsrc, Conversion.value, hfar, Bool.and_false, if_neg Bool.false_ne_true]

theorem narrowChecked_lower (hlower : kind.isLower = true) (call : PreparedCall)
    (dst src : HostReg) : narrowChecked kind call dst src = (do
      let temp ← scratchVector
      emitAll [.fcvt kind.native temp src, .fabsSingle vectorScratch temp,
        .fcmpSingle vectorScratch]
      withFarPath kind call dst src kind.farCond do
        emit (.vmov dst temp)
        releaseVector temp) := by
  cases kind <;> first | rfl | cases hlower

theorem narrowChecked_pair (hpair : kind.isLower = false) (call : PreparedCall)
    (dst src : HostReg) : narrowChecked kind call dst src = (do
      let temp ← scratchVector
      let mask ← scratchVector
      emitAll (.fcvt kind.native temp src :: bothNonzeroCode mask temp)
      releaseVector mask
      withFarPath kind call dst src kind.farCond do
        emit (.vmov dst temp)
        releaseVector temp) := by
  cases kind <;> first | rfl | cases hpair

/-- Narrowing one lane, with the check after it. -/
theorem Sim.narrowLower_spec (hkind : kind.toDouble = false) (hlower : kind.isLower = true)
    (h : Sim s ⟨s.calling kind.routine, .inGuestState, ⟨⟨k + 1, .empty, .empty, some reg⟩, p, pd⟩⟩ c
      e m) (hb : e.vectors.cache.Bound reg dst) (hsrc : e.HasV m src val) :
    wp (narrowChecked kind kind.call dst src)
      (fun _ => FloatEnds s p pd (c.setPs reg (kind.value true s.flush val))) e m := by
  rw [narrowChecked_lower hlower]
  refine wp_bind h.scratchVector_spec ?_
  rintro temp e₁ m₁ ⟨h₁, hk₁, hfree, hown, hne⟩
  have hsrc₁ := hk₁.hasV hsrc
  have htemp : temp ≠ vectorScratch := h₁.ne_vectorScratch hown
  have hheld : (RegSet.empty.insert temp).contains temp = true := RegSet.contains_insert_self _ _
  obtain ⟨m₂, hexec₂, hsame₂, hvalue⟩ := exec_narrow kind m₁ temp src
  obtain ⟨m₃, hexec₃, hsame₃, hflags⟩ := exec_lowerCheck m₂ vectorScratch temp
  have hexec := (Machine.execAll_append _ hexec₂).trans hexec₃
  refine wp_bind (h₁.emitAllV (h₁.looseV_held hheld) hexec (hsame₂.trans hsame₃.of_scratch)) ?_
  rintro - e₄ m₄ ⟨h₄, hk₄, rfl⟩
  have hflush := h₁.around.flush
  refine h₄.keepNarrowed_spec hkind (hk₄.boundV _ _ (hk₁.boundV _ _ hb))
    (hk₄.hasV (hne src hsrc.owns) hsrc₁).val ?_ ?_
  · rw [hsame₃.v temp htemp htemp, hvalue, hsrc₁.val, hflush]
  · rw [hflags, hsame₂.flush, hvalue, hsrc₁.val, hflush, Conversion.check, if_pos hlower]

/-- Narrowing both lanes, with the check after it. -/
theorem Sim.narrowPair_spec (hkind : kind.toDouble = false) (hpair : kind.isLower = false)
    (h : Sim s ⟨s.calling kind.routine, .inGuestState, ⟨⟨k + 2, .empty, .empty, some reg⟩, p, pd⟩⟩ c
      e m) (hb : e.vectors.cache.Bound reg dst) (hsrc : e.HasV m src val) :
    wp (narrowChecked kind kind.call dst src)
      (fun _ => FloatEnds s p pd (c.setPs reg (kind.value true s.flush val))) e m := by
  rw [narrowChecked_pair hpair]
  refine wp_bind h.scratchVector_spec ?_
  rintro temp e₁ m₁ ⟨h₁, hk₁, hfree₁, hown₁, hne₁⟩
  refine wp_bind h₁.scratchVector_spec ?_
  rintro mask e₂ m₂ ⟨h₂, hk₂, hfree₂, hown₂, hne₂⟩
  have hsrc₂ := hk₂.hasV (hk₁.hasV hsrc)
  have hne : temp ≠ mask := hne₂ temp hown₁
  have hheldTemp : ((RegSet.empty.insert temp).insert mask).contains temp = true := by
    rw [RegSet.contains_insert_of_ne hne]
    exact RegSet.contains_insert_self _ _
  have hheldMask : ((RegSet.empty.insert temp).insert mask).contains mask = true :=
    RegSet.contains_insert_self _ _
  have htemp : temp ≠ vectorScratch := h₂.ne_vectorScratch (h₂.ownsV_held hheldTemp)
  have hscratch : src ≠ vectorScratch := h₂.ne_vectorScratch hsrc₂.owns
  obtain ⟨m₃, hexec₃, hsame₃, hvalue⟩ := exec_narrow kind m₂ temp src
  obtain ⟨m₄, hexec₄, hsame₄, hflags⟩ := exec_bothNonzeroCode m₃ mask htemp
  have hexec := (Machine.execAll_append _ hexec₃).trans hexec₄
  have h₄ := (h₂.of_sameV (h₂.looseV_held hheldTemp) hsame₃).of_sameV (h₂.looseV_held hheldMask)
    hsame₄
  have hemit : wp (emitAll (.fcvt kind.native temp src :: bothNonzeroCode mask temp))
      (fun _ e' m' => Sim s ⟨s.calling kind.routine, .inGuestState,
        ⟨⟨k, (RegSet.empty.insert temp).insert mask, .empty, some reg⟩, p, pd⟩⟩ c e' m' ∧
          e'.vectors = e₂.vectors ∧ m' = m₄) e₂ m₂ :=
    wp_emitAll h₂.fixed.code hexec ⟨h₄.with_buffer (h₂.fixed.code.emitAll _), rfl, rfl⟩
  refine wp_bind hemit ?_
  rintro - e₅ m₅ ⟨h₅, hvectors, rfl⟩
  refine wp_bind (h₅.releaseVector_spec hfree₂) ?_
  rintro - e₆ m₆ ⟨h₆, hk₆, rfl⟩
  have hb₅ : e₅.vectors.cache.Bound reg dst := by
    rw [hvectors]
    exact hk₂.boundV _ _ (hk₁.boundV _ _ hb)
  have hneTemp : src ≠ temp := hne₁ src hsrc.owns
  have hneMask : src ≠ mask := hne₂ src (hk₁.hasV hsrc).owns
  have hflush := h₂.around.flush
  refine h₆.keepNarrowed_spec hkind (hk₆.boundV _ _ hb₅) ?_ ?_ ?_
  · rw [hsame₄.v src hneMask hscratch, hsame₃.v src hneTemp hscratch, hsrc₂.val]
  · rw [hsame₄.v temp hne htemp, hvalue, hsrc₂.val, hflush]
  · rw [hflags, hsame₃.flush, hvalue, hsrc₂.val, hflush, Conversion.check, hpair,
      if_neg Bool.false_ne_true]

/-- Conversion by routine. -/
theorem Sim.convertByRoutine_spec
    (h : Sim s ⟨s.calling kind.routine, .inGuestState, ⟨⟨k, .empty, .empty, some reg⟩, p, pd⟩⟩ c
      e m) (hb : e.vectors.cache.Bound reg dst) (hsrc : m.getV src = val) :
    wp (do
      convertByRoutine kind kind.call dst src
      finishCall kind.call)
      (fun _ => FloatEnds s p pd (c.setPs reg (kind.exact val))) e m := by
  have hsaved : ∀ q : HostReg, (kind.call.saved e.integers).contains q = true →
      kind.call.routine.convention.clobbers.contains q = true := fun _ hq => saved_subset hq
  obtain ⟨m', hexec, hconv⟩ := exec_routineCode kind m kind.call.locked dst src hsaved
  have hvalue : m'.getV dst = kind.exact val := hconv.value.trans (by rw [hsrc])
  have h₁ := ((h.of_conversion (h.looseV_bound hb rfl) hconv).closePs hb hvalue).with_buffer
    (h.fixed.code.emitAll (routineCode kind kind.call (kind.call.saved e.integers) dst src))
  refine wp_of_run (run_bind_ok (run_convertByRoutine kind kind.call dst src e))
    (.emitAll h.fixed.code hexec) ?_
  refine wp_mono (h₁.with_stats _).finishCall_spec ?_
  rintro - e₃ m₃ ⟨h₃, -, -⟩
  exact ⟨_, _, h₃⟩

theorem Sim.convertRegs_spec
    (h : Sim s ⟨s.idle, .inGuestState, ⟨⟨k + 2, .empty, .empty, some reg⟩, p, pd⟩⟩ c e m)
    (hb : e.vectors.cache.Bound reg dst) (hsrc : e.HasV m src val) (fast : Bool) :
    wp (convertRegs kind dst src fast) (fun _ => FloatEnds s p pd
      (c.setPs reg (kind.value (kind.triesNative s.config fast) s.flush val))) e m := by
  refine wp_bind (h.prepareCall_spec kind.routine) ?_
  rintro _ e₁ m₁ ⟨rfl, h₁, hk₁, -⟩
  have hb₁ := hk₁.boundV _ _ hb
  have hsrc₁ := hk₁.hasV hsrc
  refine wp_get ?_
  rw [h₁.fixed.config]
  show wp (if kind.triesNative s.config fast then
      if kind.toDouble then widenChecked kind kind.call dst src
      else narrowChecked kind kind.call dst src
    else do
      convertByRoutine kind kind.call dst src
      finishCall kind.call) _ e₁ m₁
  cases kind.triesNative s.config fast with
  | true =>
    rw [if_pos rfl]
    cases hkind : kind.toDouble with
    | true => exact (h₁.weakenV (Nat.le_succ (k + 1))).widenChecked_spec hkind hb₁ hsrc₁
    | false =>
      cases hlower : kind.isLower with
      | true =>
        exact (h₁.weakenV (Nat.le_succ (k + 1))).narrowLower_spec hkind hlower hb₁ hsrc₁
      | false => exact h₁.narrowPair_spec hkind hlower hb₁ hsrc₁
  | false =>
    rw [if_neg Bool.false_ne_true]
    exact h₁.convertByRoutine_spec hb₁ hsrc₁.val

/-- A conversion between guest registers. -/
theorem Sim.convert_spec (h : Sim s ⟨s.idle, carry, ⟨⟨5, .empty, .empty, none⟩, p, pd⟩⟩ c e m)
    (kind : Conversion) (src dst : GuestReg) : wp (convert kind src dst) (fun _ =>
      FloatEnds s p (pd.set dst (some kind.precision)) (c.setPs dst
        (kind.value (kind.triesNative s.config (kind.fast s p src)) s.flush (c.ps src)))) e m := by
  refine wp_bind h.flushCarry_spec ?_
  rintro - e₀ m₀ ⟨h₀, -⟩
  refine wp_bind (h₀.readFpr_spec src) ?_
  rintro old e₁ m₁ ⟨h₁, -, hold, -⟩
  refine wp_get ?_
  have hfast : (!kind.toDouble && !e₁.config.exactConversions &&
      e₁.vectors.isSingle src kind.isLower && e₁.isStoreSafe src) = kind.fast s p src := by
    have hprecision : e₁.vectors.precision = p := h₁.fixed.precision
    rw [Vectors.isSingle, Emitter.isStoreSafe, h₁.fixed.config, h₁.fixed.hints, hprecision]
    rfl
  dsimp only
  rw [hfast]
  refine wp_bind (h₁.writeFpr_spec dst false kind.precision) ?_
  rintro new e₂ m₂ ⟨h₂, hk₂, hnew, -⟩
  exact h₂.convertRegs_spec hnew (hk₂.hasV hold) _

end Registers

end Recompiler.Emit
