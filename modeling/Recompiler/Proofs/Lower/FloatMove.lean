import Recompiler.Lower.FloatMove
import Recompiler.Proofs.Lower.FloatArith

/-!
# Floating-point moves, selection and rounding

What these instructions leave in their destination, lane by lane.
-/

namespace Recompiler.Lower

open Alloc Arm Block PowerPC Emit Ieee

/-! ## Values -/

/-- Replacing the low element of eight bytes replaces the lower lane. -/
theorem withElement_double_zero (v : BitVec 128) (x : BitVec 64) :
    withElement v .double 0 x = join x (lane v 1) := by
  apply BitVec.eq_of_getLsbD_eq
  intro i hi
  simp only [withElement, elementMask, ElemSize.bits, join, lane, BitVec.getLsbD_append,
    BitVec.getLsbD_or, BitVec.getLsbD_and, BitVec.getLsbD_not, BitVec.getLsbD_shiftLeft,
    BitVec.getLsbD_setWidth, BitVec.getLsbD_extractLsb', BitVec.getLsbD_allOnes]
  by_cases h : i < 64
  · simp [h, hi]
  · have h' : i - 64 < 64 := by omega
    have hsum : 64 * 1 + (i - 64) = i := by omega
    simp [h, hi, h', hsum]

/-- The value after a move on lanes. -/
def moveValue (op : FpMove) (lanes : Lanes) (old src : BitVec 128) : BitVec 128 :=
  onLanes lanes old fun i => op.apply (lane src i)

theorem negate_abs (x : Double) :
    FpUnary.eval .neg (FpUnary.eval .abs x) = FpMove.apply .nabs x := by
  apply BitVec.eq_of_getLsbD_eq
  intro i hi
  simp only [FpUnary.eval, Double.negate, FpMove.apply, BitVec.getLsbD_xor, BitVec.getLsbD_and,
    BitVec.getLsbD_or, BitVec.getLsbD_not, hi, decide_true, Bool.true_and]
  cases x.getLsbD i <;> cases Double.signMask.getLsbD i <;> rfl

/-- The lanes of a move. -/
def moveLanes (packed : Bool) : Lanes := if packed then .both else .lower

/-- The precision that the destination of a merge gets. -/
def mergePrecision (p : Bank 32 Precision) (sources : List GuestReg) (dst : GuestReg) :
    Precision :=
  if sources.all fun reg => (p.get reg).isSingle true then
    if p.get dst = .bothSingle then .bothSingle else .lowerSingle
  else .double

theorem mergedPrecision_eq {e : Emitter} {p : Bank 32 Precision} (h : e.vectors.precision = p)
    (sources : List GuestReg) (dst : GuestReg) :
    mergedPrecision e sources dst = mergePrecision p sources dst := by
  simp only [mergedPrecision, mergePrecision, Vectors.allSingle, Vectors.isSingle, h]

/-- Whether a move changes nothing at all. -/
def isNoMove (op : FpMove) (word : Word) : Bool := decide (op = .mr ∧ word.rd = word.rb)

/-- The precision that a move leaves. -/
def movePrecision (p : Bank 32 Precision) (packed : Bool) (word : Word) : Precision :=
  if packed then p.get word.rb else mergePrecision p [word.rb] word.rd

/-- Whether `fsel` takes its third operand. -/
def selects (flush : Bool) (a : Double) : Bool :=
  Cond.ge.holds (.ofComparison (Double.compare? (flushDouble flush a) (flushDouble flush 0)))

/-- Whether `frsp` need not round. -/
def skipsRounding (p : Bank 32 Precision) (hints : Hints) (reg : GuestReg) : Bool :=
  (p.get reg).isSingle true && hints.storeSafe.getLsbD reg.val

/-- The result of `frsp`. -/
def roundedValue (skip : Bool) (src : BitVec 128) : Double :=
  if skip then lane src 0 else Double.roundToSingle (lane src 0)

/-- The result of `fctiwz`. -/
def truncated (flush : Bool) (x : Double) : Double :=
  ofWord (if (Double.compare? (flushDouble flush x) (flushDouble flush x)).isNone then 0x80000000
    else Double.toWord (flushDouble flush x)) ||| 0xFFF8000000000000

end Recompiler.Lower

namespace Recompiler.Emit

open Alloc Arm Block PowerPC Lower Ieee

variable {s : Setting} {c : Contents} {e e' : Emitter} {m m' : Machine} {iu : Usage 40}
  {k : Nat} {held locked : RegSet} {p : Bank 32 Precision} {pd : Bank 32 (Option Precision)}
  {carry : Carry} {dst src : HostReg} {v : BitVec 128}

/-! ## Moves -/

theorem exec_moveCode (m : Machine) (op : FpMove) (lanes : Lanes) (dst src : HostReg) :
    ∃ m', m.execAll (moveCode op lanes dst src) = some m' ∧ SameButV dst m m' ∧
      m'.getV dst = moveValue op lanes (m.getV dst) (m.getV src) := by
  cases op with
  | mr =>
    cases lanes with
    | both =>
      refine ⟨_, rfl, .setV m dst _, ?_⟩
      rw [Machine.getV_setV, if_pos rfl]
      exact (join_lanes _).symm
    | lower =>
      refine ⟨_, rfl, .setV m dst _, ?_⟩
      rw [Machine.getV_setV, if_pos rfl, withElement_double_zero, element_double_zero]
      rfl
  | neg | abs =>
    refine ⟨_, rfl, .setV m dst _, ?_⟩
    simp only [Machine.setLanes, Machine.getV_setV, if_true]
    rfl
  | nabs =>
    refine ⟨_, rfl, (SameButV.setV m dst _).trans (.setV _ dst _), ?_⟩
    simp only [Machine.setLanes, Machine.getLane, Machine.getV_setV, if_true, moveValue]
    cases lanes <;>
      simp only [onLanes, lane_join_zero, lane_join_one, negate_abs]

/-- The contents after a move. -/
def Contents.moved (c : Contents) (s : Setting) (packed : Bool) (op : FpMove) : Contents :=
  c.setPs s.word.rd
    (moveValue op (moveLanes packed) (c.ps s.word.rd) (c.ps s.word.rb))

/-- The precisions to come after a move. -/
def movePending (p : Bank 32 Precision) (pd : Bank 32 (Option Precision)) (word : Word)
    (packed : Bool) (op : FpMove) : Bank 32 (Option Precision) :=
  if isNoMove op word then pd else pd.set word.rd (some (movePrecision p packed word))

theorem Contents.setPs_self (c : Contents) (reg : GuestReg) : c.setPs reg (c.ps reg) = c := by
  simp [setPs]

theorem moveValue_self (lanes : Lanes) (v : BitVec 128) : moveValue .mr lanes v v = v := by
  cases lanes <;> exact join_lanes v

theorem Sim.floatMove_spec (packed : Bool) (op : FpMove)
    (h : Sim s ⟨s.idle, carry, ⟨⟨5, .empty, .empty, none⟩, p, pd⟩⟩ c e m) :
    wp (floatMove packed op) (fun _ =>
      FloatEnds s p (movePending p pd s.word packed op) (c.moved s packed op)) e m := by
  refine wp_bind h.flushCarry_spec ?_
  rintro - e₀ m₀ ⟨h₀, -⟩
  refine wp_get ?_
  have hprec : e₀.vectors.precision = p := h₀.fixed.precision
  dsimp only
  rw [h₀.fixed.word, mergedPrecision_eq hprec, hprec]
  unfold Contents.moved movePending isNoMove
  split
  · next hno =>
    obtain ⟨rfl, hreg⟩ := hno
    rw [if_pos (by simp [hreg]), hreg, moveValue_self, Contents.setPs_self]
    exact wp_pure ⟨_, _, h₀⟩
  · next hmove =>
    rw [if_neg (c := decide (op = .mr ∧ s.word.rd = s.word.rb) = true) (by simpa using hmove)]
    refine wp_bind (h₀.readFpr_spec s.word.rb) ?_
    rintro src e₁ m₁ ⟨h₁, -, hs₁, -⟩
    refine wp_bind (h₁.writeFpr_spec s.word.rd (!packed) (movePrecision p packed s.word)) ?_
    rintro dst e₂ m₂ ⟨h₂, hk₂, hd₂, hkeep⟩
    obtain ⟨m₃, hexec, hsame, hval⟩ := exec_moveCode m₂ op (moveLanes packed) dst src
    have hvalue : m₃.getV dst =
        moveValue op (moveLanes packed) (c.ps s.word.rd) (c.ps s.word.rb) := by
      rw [hval, (hk₂.hasV hs₁).val]
      cases packed with
      | false => rw [hkeep rfl]
      | true => rfl
    refine wp_mono (h₂.emitAllPs hd₂ hexec hsame hvalue) ?_
    rintro - e₃ m₄ ⟨h₃, -, -, -⟩
    exact ⟨_, _, h₃⟩

/-! ## Selection -/

/-- The contents after `fsel`. -/
def Contents.selected (c : Contents) (s : Setting) : Contents :=
  c.setPs s.word.rd (join
    (lane (if selects s.flush (lane (c.ps s.word.ra) 0) then c.ps s.word.frc else c.ps s.word.rb) 0)
    (lane (c.ps s.word.rd) 1))

theorem Sim.fsel_spec (h : Sim s ⟨s.idle, carry, ⟨⟨5, .empty, .empty, none⟩, p, pd⟩⟩ c e m) :
    wp fsel (fun _ => FloatEnds s p
      (pd.set s.word.rd (some (mergePrecision p [s.word.rb, s.word.frc] s.word.rd)))
      (c.selected s)) e m := by
  refine wp_bind h.flushCarry_spec ?_
  rintro - e₀ m₀ ⟨h₀, -⟩
  refine wp_get ?_
  have hprec : e₀.vectors.precision = p := h₀.fixed.precision
  dsimp only
  rw [h₀.fixed.word, mergedPrecision_eq hprec]
  refine wp_bind (h₀.readFpr_spec s.word.ra) ?_
  rintro a e₁ m₁ ⟨h₁, -, ha₁, -⟩
  refine wp_bind (h₁.readFpr_spec s.word.rb) ?_
  rintro b e₂ m₂ ⟨h₂, hk₂, hb₂, -⟩
  refine wp_bind (h₂.readFpr_spec s.word.frc) ?_
  rintro r e₃ m₃ ⟨h₃, hk₃, hc₃, -⟩
  refine wp_bind (h₃.writeFpr_spec s.word.rd true _) ?_
  rintro dst e₄ m₄ ⟨h₄, hk₄, hd₄, hkeep⟩
  have ha₄ := hk₄.hasV (hk₃.hasV (hk₂.hasV ha₁))
  have hb₄ := hk₄.hasV (hk₃.hasV hb₂)
  have hc₄ := hk₄.hasV hc₃
  obtain ⟨flags, hflags⟩ : ∃ flags, flags = Flags.ofComparison (Double.compare?
    (flushDouble m₄.flush (m₄.getLane a 0)) (flushDouble m₄.flush 0)) := ⟨_, rfl⟩
  have hcmp : m₄.step (.fcmp a none) = .next { m₄ with flags } := by
    rw [hflags]
    rfl
  refine wp_bind (h₄.emitCompare hcmp) ?_
  rintro - e₅ m₅ ⟨h₅, hk₅, hm₅⟩
  have hd₅ := hk₅.boundV _ _ hd₄
  have hsel : m₅.step (.fcsel dst r b .ge) = .next (m₅.setV dst (join
      (lane (m₅.getV (if Cond.ge.holds m₅.flags then r else b)) 0) (lane (m₅.getV dst) 1))) := rfl
  refine wp_mono (h₅.emitV (h₅.looseV_bound hd₅ rfl) hsel (.setV _ dst _)) ?_
  rintro - e₆ m₆ ⟨h₆, hk₆, rfl⟩
  refine ⟨_, _, h₆.closePs (hk₆.boundV _ _ hd₅) ?_⟩
  have hge : Cond.ge.holds m₅.flags = selects s.flush (lane (c.ps s.word.ra) 0) := by
    rw [hm₅, hflags, h₄.around.flush, Machine.getLane, ha₄.val]
    rfl
  have hv₅ : ∀ q, m₅.getV q = m₄.getV q := by
    rw [hm₅]
    exact fun _ => rfl
  rw [Machine.getV_setV, if_pos rfl, hge, hv₅, hv₅, hkeep rfl]
  split
  · rw [hc₄.val]
  · rw [hb₄.val]

/-! ## Rounding to single -/

/-- The contents after `frsp`. -/
def Contents.rounded (c : Contents) (s : Setting) (p : Bank 32 Precision) : Contents :=
  let value := roundedValue (skipsRounding p s.hints s.word.rb) (c.ps s.word.rb)
  (c.setPs s.word.rd (join value value)).classed s true value

theorem exec_frsp (m : Machine) (skip : Bool) (dst src : HostReg) :
    ∃ m', m.execAll (if skip then [.dup dst src]
      else [.funary .roundSingle .lower dst src, .dup dst dst]) = some m' ∧ SameButV dst m m' ∧
      m'.getV dst = join (roundedValue skip (m.getV src)) (roundedValue skip (m.getV src)) := by
  cases skip with
  | true =>
    refine ⟨_, rfl, .setV m dst _, ?_⟩
    rw [Machine.getV_setV, if_pos rfl]
    rfl
  | false =>
    refine ⟨_, rfl, (SameButV.setV m dst _).trans (.setV _ dst _), ?_⟩
    simp only [Machine.setLanes, Machine.getLane, Machine.getV_setV, if_true, onLanes,
      lane_join_zero]
    rfl

theorem Sim.frsp_spec (h : Sim s ⟨s.idle, carry, ⟨⟨5, .empty, .empty, none⟩, p, pd⟩⟩ c e m) :
    wp frsp (fun _ =>
      FloatEnds s p (pd.set s.word.rd (some .bothSingle)) (c.rounded s p)) e m := by
  refine wp_bind h.flushCarry_spec ?_
  rintro - e₀ m₀ ⟨h₀, -⟩
  refine wp_get ?_
  have hprec : e₀.vectors.precision = p := h₀.fixed.precision
  have hskip : (e₀.vectors.isSingle s.word.rb true && e₀.isStoreSafe s.word.rb) =
      skipsRounding p s.hints s.word.rb := by
    rw [Vectors.isSingle, hprec, Emitter.isStoreSafe, h₀.fixed.hints]
    rfl
  dsimp only
  rw [h₀.fixed.word, hskip]
  refine wp_bind (h₀.readFpr_spec s.word.rb) ?_
  rintro src e₁ m₁ ⟨h₁, -, hs₁, -⟩
  refine wp_bind (h₁.writeFpr_spec s.word.rd false .bothSingle) ?_
  rintro dst e₂ m₂ ⟨h₂, hk₂, hd₂, -⟩
  obtain ⟨m₃, hexec, hsame, hval⟩ :=
    exec_frsp m₂ (skipsRounding p s.hints s.word.rb) dst src
  rw [(hk₂.hasV hs₁).val] at hval
  refine wp_bind (h₂.emitAllPs hd₂ hexec hsame hval) ?_
  rintro - e₃ m₄ ⟨h₃, -, -, hv₃⟩
  refine wp_mono (h₃.updateClass_spec dst true) ?_
  rintro - e₄ m₅ h₄
  rw [hv₃, lane_join_zero] at h₄
  exact ⟨_, _, h₄⟩

/-! ## Conversion to an integer -/

/-- The contents after `fctiwz`. -/
def Contents.truncated (c : Contents) (s : Setting) : Contents :=
  c.setPs s.word.rd (join (Lower.truncated s.flush (lane (c.ps s.word.rb) 0))
    (lane (c.ps s.word.rd) 1))

theorem vs_ofComparison (order : Option Ordering) :
    Cond.vs.holds (.ofComparison order) = order.isNone := by
  rcases order with _ | (_ | _ | _) <;> rfl

/-- What the code of the conversion leaves of the machine. -/
theorem exec_fctiwz {result other : HostReg} (hne : result ≠ other) (hr : result ≠ zeroReg)
    (ho : other ≠ zeroReg) (m : Machine) (dst src : HostReg) :
    ∃ m', m.execAll [.fcvtzs result src, .fcmp src (some src), .movImm32 other 0x80000000,
        .csel32 result other result .vs, .movImm64 other 0xFFF8000000000000,
        .binary .orr64 result result other, .insGeneral .double dst 0 result] = some m' ∧
      (∀ r, r ≠ result → r ≠ other → m'.getX r = m.getX r) ∧
      (∀ r, r ≠ dst → m'.getV r = m.getV r) ∧ m'.state = m.state ∧ m'.stack = m.stack ∧
      m'.flush = m.flush ∧ m'.interpreter = m.interpreter ∧
      m'.getV dst = join (Lower.truncated m.flush (lane (m.getV src) 0)) (lane (m.getV dst) 1) := by
  generalize hword : Double.toWord (flushDouble m.flush (lane (m.getV src) 0)) = word
  generalize hflags : Flags.ofComparison (Double.compare?
    (flushDouble m.flush (lane (m.getV src) 0)) (flushDouble m.flush (lane (m.getV src) 0))) = flags
  let m₁ := m.setX result (ofWord word)
  let m₂ := { m₁ with flags }
  let m₃ := m₂.setX other (ofWord 0x80000000)
  let m₄ := m₃.setX result (ofWord (if Cond.vs.holds flags then 0x80000000 else word))
  let m₅ := m₄.setX other 0xFFF8000000000000
  let m₆ := m₅.setX result (Lower.truncated m.flush (lane (m.getV src) 0))
  have hsame : Machine.SameOutside m m₆ := by
    have h₁ : Machine.SameOutside m m₁ := .setX m result _
    have h₂ : Machine.SameOutside m m₂ := ⟨h₁.v, h₁.state, h₁.stack, h₁.flush, h₁.interpreter⟩
    exact (((h₂.trans (.setX m₂ other _)).trans (.setX m₃ result _)).trans
      (.setX m₄ other _)).trans (.setX m₅ result _)
  have hstep₁ : m.step (.fcvtzs result src) = .next m₁ :=
    congrArg (fun w => Outcome.next (m.setX result (ofWord w))) hword
  have hflags₁ : Flags.ofComparison (Double.compare? (flushDouble m₁.flush (m₁.getLane src 0))
      (flushDouble m₁.flush (m₁.getLane src 0))) = flags := by
    have hlane : m₁.getLane src 0 = lane (m.getV src) 0 :=
      congrArg (fun v => lane v 0) (Machine.getV_setX m result src _)
    have hfl₁ : m₁.flush = m.flush := (Machine.SameOutside.setX m result _).flush
    rw [hlane, hfl₁, hflags]
  have hstep₂ : m₁.step (.fcmp src (some src)) = .next m₂ :=
    congrArg (fun flags => Outcome.next { m₁ with flags }) hflags₁
  have hstep₃ : m₂.step (.movImm32 other 0x80000000) = .next m₃ := rfl
  have hstep₅ : m₄.step (.movImm64 other 0xFFF8000000000000) = .next m₅ := rfl
  have hstep₄ : m₃.step (.csel32 result other result .vs) = .next m₄ := by
    have hfl₃ : m₃.flags = flags := flags_setX m₂ other _
    have hother : m₃.getX other = ofWord 0x80000000 := Machine.getX_setX_self m₂ ho _
    have hresult : m₃.getX result = ofWord word :=
      (Machine.getX_setX_of_ne m₂ hne _).trans (Machine.getX_setX_self m hr _)
    simp only [Machine.step, hfl₃, Machine.getW, Machine.setW]
    split
    · next hvs => rw [hother, low_ofWord]; simp only [m₄, hvs, if_true]
    · next hvs => rw [hresult, low_ofWord]; simp only [m₄, hvs, if_false, Bool.false_eq_true]
  have hstep₆ : m₅.step (.binary .orr64 result result other) = .next m₆ := by
    have hother : m₅.getX other = 0xFFF8000000000000 := Machine.getX_setX_self m₄ ho _
    have hresult : m₅.getX result = ofWord (if Cond.vs.holds flags then 0x80000000 else word) :=
      (Machine.getX_setX_of_ne m₄ hne _).trans (Machine.getX_setX_self m₃ hr _)
    rw [← hflags, vs_ofComparison, ← hword] at hresult
    simp only [Machine.step, BinaryOp.eval, hother, hresult]
    rfl
  have hstep₇ : m₆.step (.insGeneral .double dst 0 result) = .next (m₆.setV dst
      (join (Lower.truncated m.flush (lane (m.getV src) 0)) (lane (m.getV dst) 1))) := by
    have hresult : m₆.getX result = Lower.truncated m.flush (lane (m.getV src) 0) :=
      Machine.getX_setX_self m₅ hr _
    have hvdst : m₆.getV dst = m.getV dst := congrArg (fun bank => Bank.get bank dst) hsame.v
    rw [← hresult, ← hvdst, ← withElement_double_zero]
    rfl
  refine ⟨m₆.setV dst (join (Lower.truncated m.flush (lane (m.getV src) 0)) (lane (m.getV dst) 1)),
    ?_, ?_, ?_, hsame.state, hsame.stack, hsame.flush, hsame.interpreter, ?_⟩
  · rw [Machine.execAll_cons _ hstep₁, Machine.execAll_cons _ hstep₂,
      Machine.execAll_cons _ hstep₃, Machine.execAll_cons _ hstep₄,
      Machine.execAll_cons _ hstep₅, Machine.execAll_cons _ hstep₆,
      Machine.execAll_cons _ hstep₇]
    rfl
  · intro r hr₁ hr₂
    rw [Machine.getX_setV, Machine.getX_setX_of_ne m₅ hr₁, Machine.getX_setX_of_ne m₄ hr₂,
      Machine.getX_setX_of_ne m₃ hr₁, Machine.getX_setX_of_ne m₂ hr₂]
    exact Machine.getX_setX_of_ne m hr₁ _
  · intro r hr
    rw [Machine.getV_setV, if_neg hr]
    exact congrArg (fun bank => Bank.get bank r) hsame.v
  · rw [Machine.getV_setV, if_pos rfl]

theorem Setting.five_le_idle (s : Setting) : 5 ≤ s.ints.beside .empty := by
  rw [Home.beside_empty]
  exact (s.accepted.goodPool .general).size

theorem Sim.fctiwz_spec (h : Sim s ⟨s.idle, carry, ⟨⟨5, .empty, .empty, none⟩, p, pd⟩⟩ c e m) :
    wp fctiwz (fun _ =>
      FloatEnds s p (pd.set s.word.rd (some .double)) (c.truncated s)) e m := by
  refine wp_bind h.flushCarry_spec ?_
  rintro - e₀ m₀ ⟨h₀, -⟩
  refine wp_look rfl ?_
  rw [h₀.fixed.word]
  refine wp_bind (h₀.readFpr_spec s.word.rb) ?_
  rintro src e₁ m₁ ⟨h₁, -, hs₁, -⟩
  have hroom : 2 ≤ s.ints.beside .empty := Nat.le_trans (by omega) s.five_le_idle
  refine wp_bind (h₁.weaken hroom).scratch_spec ?_
  rintro result e₂ m₂ ⟨h₂, hk₂, -, hown₂, -⟩
  refine wp_bind h₂.scratch_spec ?_
  rintro other e₃ m₃ ⟨h₃, hk₃, hother, hown₃, hne₃⟩
  refine wp_bind (h₃.writeFpr_spec s.word.rd true .double) ?_
  rintro dst e₄ m₄ ⟨h₄, hk₄, hd₄, hkeep⟩
  have hs₄ := hk₄.hasV (hk₃.hasV (hk₂.hasV hs₁))
  have hresult : ((RegSet.empty.insert result).insert other).contains result = true := by
    rw [RegSet.contains_insert, RegSet.contains_insert_self, Bool.true_or]
  have hne : result ≠ other := hne₃ result hown₂
  obtain ⟨m₅, hexec, hx, hv, hst, hstack, hfl, hint, hval⟩ := exec_fctiwz hne
    (h₄.ne_zeroReg (h₄.owns_held hresult))
    (h₄.ne_zeroReg (h₄.owns_held (RegSet.contains_insert_self _ _))) m₄ dst src
  have hcode : wp (emitAll [.fcvtzs result src, .fcmp src (some src), .movImm32 other 0x80000000,
      .csel32 result other result .vs, .movImm64 other 0xFFF8000000000000,
      .binary .orr64 result result other, .insGeneral .double dst 0 result]) (fun _ e' m' =>
      Sim s ⟨⟨0, (RegSet.empty.insert result).insert other, .empty, none⟩, .inGuestState,
        ⟨⟨3, .empty, .empty, none⟩, p, pd.set s.word.rd (some .double)⟩⟩ (c.truncated s) e' m')
      e₄ m₄ := by
    refine wp_emitAll h₄.fixed.code hexec ?_
    have hon : m₅.state.On s.layout := hst ▸ h₄.ints.holds.on
    have h₅ := h₄.of_machine m₅ _ ?_ ?_ hon rfl (fun cell _ => by rw [hst]) hstack hfl hint
    · have hfp : m₅.state.fetch .fpscr = c.fpscr := by rw [hst]; exact h₄.around.fpscr
      rw [hfp] at h₅
      rw [h₄.around.flush, hs₄.val, hkeep rfl] at hval
      exact (h₅.closePs hd₄ hval).with_buffer (h₄.fixed.code.emitAll _)
    · intro slot r hb _
      have hheld := h₄.ints.ready.owned.not_scratch hb
      rw [h₄.ints.ready.held] at hheld
      refine hx r ?_ ?_
      · rintro rfl
        rw [hresult] at hheld
        simp at hheld
      · rintro rfl
        rw [RegSet.contains_insert_self] at hheld
        simp at hheld
    · intro reg r hb hhole
      refine hv r ?_
      rintro rfl
      exact hhole (h₄.looseV_bound hd₄ rfl reg hb)
  refine wp_bind hcode ?_
  rintro - e₅ m₆ h₅
  refine wp_bind (h₅.release_spec hother) ?_
  rintro - e₆ m₇ ⟨h₆, -, -⟩
  refine wp_mono (h₆.release_spec (RegSet.contains_empty _)) ?_
  rintro - e₇ m₈ ⟨h₇, -, -⟩
  exact ⟨_, _, h₇⟩

end Recompiler.Emit
