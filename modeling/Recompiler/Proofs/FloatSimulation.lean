import Recompiler.Proofs.QuietCode
import Recompiler.Proofs.ReferenceRun
import Recompiler.Proofs.SlotValues

/-!
# One floating-point instruction

`Emitter.Denotes e m safe g` says that emitter and machine stand for the guest state `g`. The code
of one floating-point instruction leads from there to the state after a step of the interpreter. It
leaves the status word alone if nobody wants the class of the result.
-/

namespace Recompiler

open Alloc Arm Block Emit Ieee Lower PowerPC

/-! ## Singles that may be stored -/

section Safe

variable {P : Double → Prop} {p q : Bank 32 Precision} {mask : BitVec 32}

/-- The precisions of the registers of a mask. Others count as double. -/
def masked (p : Bank 32 Precision) (mask : BitVec 32) : Bank 32 Precision :=
  (List.finRange 32).foldl
    (fun bank reg => if mask.getLsbD reg.val then bank else bank.set reg .double) p

theorem get_masked (p : Bank 32 Precision) (mask : BitVec 32) (reg : GuestReg) :
    (masked p mask).get reg = if mask.getLsbD reg.val then p.get reg else .double := by
  rw [masked, Bank.get_foldl (f := fun reg => if mask.getLsbD reg.val then none else some .double)]
  · cases mask.getLsbD reg.val <;> rfl
  · intro bank j
    cases mask.getLsbD j.val <;> rfl

theorem mergePrecision_congr {sources : List GuestReg} {dst : GuestReg}
    (hsources : ∀ reg ∈ sources, p.get reg = q.get reg) (hdst : p.get dst = q.get dst) :
    mergePrecision p sources dst = mergePrecision q sources dst := by
  have hall : (sources.all fun reg => (p.get reg).isSingle true) =
      sources.all fun reg => (q.get reg).isSingle true := by
    rw [Bool.eq_iff_iff, List.all_eq_true, List.all_eq_true]
    exact forall₂_congr fun reg hreg => by rw [hsources reg hreg]
  unfold mergePrecision
  rw [hall, hdst]

/-- A destination that is in the mask afterwards takes its precision from registers of the mask. -/
theorem precisionAfter_masked {word : Word} {op : FloatOp}
    (h : destinationBit word op mask = true) :
    precisionAfter (masked p mask) word op = precisionAfter p word op := by
  have hget : ∀ reg : GuestReg, mask.getLsbD reg.val = true →
      (masked p mask).get reg = p.get reg := by
    intro reg hreg
    rw [get_masked, if_pos hreg]
  rcases op with ⟨_ | _ | _, op⟩ | ⟨_ | _, op⟩ | _ | _ | _ | _ | _ | _
  case arith.single => rfl
  case arith.paired => rfl
  case move.false =>
    obtain ⟨hb, hd⟩ := Bool.and_eq_true_iff.1 h
    rw [precisionAfter_move, precisionAfter_move, hget _ hd]
    refine if_congr Iff.rfl rfl (mergePrecision_congr ?_ (hget _ hd))
    intro reg hreg
    rw [List.mem_singleton.1 hreg]
    exact hget _ hb
  case move.true =>
    rw [precisionAfter_move, precisionAfter_move]
    by_cases hno : isNoMove op word = true
    · obtain ⟨-, hreg⟩ := of_decide_eq_true hno
      rw [if_pos hno, if_pos hno, hreg]
      exact hget _ h
    · rw [if_neg hno, if_neg hno]
      exact hget _ h
  case fsel =>
    obtain ⟨hbc, hd⟩ := Bool.and_eq_true_iff.1 h
    obtain ⟨hb, hc⟩ := Bool.and_eq_true_iff.1 hbc
    refine mergePrecision_congr ?_ (hget _ hd)
    intro reg hreg
    rcases List.mem_pair.1 hreg with rfl | rfl
    · exact hget _ hb
    · exact hget _ hc
  case frsp => rfl
  case fcmp => exact hget _ h
  all_goals simp [destinationBit] at h

/-- Lanes that are single, of registers in the mask, keep a property of rounded numbers. -/
theorem sound_afterFloat (hP : Lanewise P) {layout : Layout} (hv : layout.Valid) {g : State}
    (hon : g.On layout) {known : Singles}
    (h : ∀ reg : GuestReg, known.safe.getLsbD reg.val = true → (p.get reg).Sound P (g.ps reg))
    (unit : FloatUnit) (fprf : Bool) (word : Word) (op : FloatOp) (reg : GuestReg)
    (hreg : (known.afterFloat word op).safe.getLsbD reg.val = true) :
    ((committed p (floatPending p (.replicate 32 none) word op)).get reg).Sound P
      ((word.stepOp unit fprf g (.float op)).ps reg) := by
  have hmasked : SoundFor P (masked p known.safe) fun reg => g.ps reg := by
    intro reg
    rw [get_masked]
    split
    · next hbit => exact h reg hbit
    · exact .double P _
  rw [(getLsbD_afterFloat known word op reg).2] at hreg
  rw [get_committed_floatPending]
  by_cases hd : reg = word.rd
  · rw [if_pos hd] at hreg ⊢
    rw [hd, hon.ps_stepFloat hv, ← precisionAfter_masked hreg]
    exact precisionAfter_sound hP hmasked unit word op
  · rw [if_neg hd] at hreg ⊢
    rw [hon.ps_stepFloat_of_ne hv unit fprf word op hd]
    exact h reg hreg

theorem Lanewise.fixed : Lanewise fun x => Double.roundToSingle x = x where
  round x := (Double.isExactSingle_iff _).1 (Double.isExactSingle_roundToSingle x)
  move op x h :=
    (Double.isExactSingle_iff _).1 (Double.isExactSingle_move op ((Double.isExactSingle_iff x).2 h))

end Safe

/-- The guest state after an instruction, with the status word of before if classes are kept and
this one is not wanted. -/
def PowerPC.Word.stepWanted (word : Word) (fprf wanted : Bool) (g : State) (op : FloatOp) : State :=
  if fprf && !wanted then (word.stepOp .guest fprf g (.float op)).setFpscr g.fpscr
  else word.stepOp .guest fprf g (.float op)

/-- Other cells are as after the instruction. -/
theorem PowerPC.State.On.fetch_stepWanted {layout : Layout} (hv : layout.Valid) {g : State}
    (hon : g.On layout) (word : Word) (fprf wanted : Bool) (op : FloatOp) (cell : PowerPC.Cell)
    (hcell : cell ≠ .fpscr) : (word.stepWanted fprf wanted g op).fetch cell =
      (word.stepOp .guest fprf g (.float op)).fetch cell := by
  have hkeeps : State.Keeps layout .xerCa g (word.stepOp .guest fprf g (.float op)) :=
    .stepFloat hv hon .guest fprf word op nofun nofun nofun
  unfold Word.stepWanted
  split
  · exact hkeeps.on.fetch_put_of_ne hv .fpscr _ hcell
  · rfl

/-- A block of zeros has zeros in all cells. -/
theorem PowerPC.State.fetch_zeros {layout : Layout} (hv : layout.Valid) (cell : PowerPC.Cell) :
    (State.zeros layout).fetch cell = 0 := by
  have hbyte : ∀ k, (State.zeros layout).memory.byte k = 0 := by
    intro k
    simp only [State.zeros, Memory.zeros, Memory.byte, Array.getD_eq_getD_getElem?,
      Array.getElem?_replicate]
    split <;> rfl
  apply BitVec.eq_of_getLsbD_eq
  intro i hi
  rw [(State.On.zeros layout).fetch_eq hv, Memory.getLsbD_load, hbyte]
  simp

/-- The status word after an instruction that keeps its class there. -/
theorem PowerPC.State.On.fpscr_stepFloat {layout : Layout} (hv : layout.Valid) {g : State}
    (hon : g.On layout) (unit : FloatUnit) (word : Word) (op : FloatOp) {f : BitVec 32 → BitVec 32}
    (hf : (unit.effect op (g.ps word.rd) (g.ps word.ra) (g.ps word.rb) (g.ps word.frc)).status =
      some f) : (word.stepOp unit true g (.float op)).fpscr = f g.fpscr := by
  have heffect : ∀ effect : FloatEffect, effect.status = some f →
      State.Keeps layout .fpscr (g.setFpscr (f g.fpscr)) (g.writeEffect true word effect) := by
    rintro ⟨value, status, condition⟩ ⟨⟩
    have hvalue : State.Keeps layout .fpscr g (g.putValue word.rd value) :=
      .putValue hv hon (by simp) _
    have hcondition : State.Keeps layout .fpscr g
        ((g.putValue word.rd value).putCondition word.crfd condition) := by
      cases condition with
      | none => exact hvalue
      | some bits =>
        have hne : PowerPC.Cell.fpscr ≠ .cr word.crfd := nofun
        exact hvalue.put hv hne _
    refine ⟨hcondition.on.put hv .fpscr _, ?_⟩
    calc _ = f ((g.putValue word.rd value).putCondition word.crfd condition).fpscr :=
        hcondition.on.fetch_put_self hv .fpscr _
      _ = f g.fpscr := congrArg f hcondition.fetch
      _ = (g.setFpscr (f g.fpscr)).fetch .fpscr := (hon.fetch_put_self hv .fpscr _).symm
  have hrecord := (heffect _ hf).record hv nofun (word.rc && !op.isCompare)
  exact hrecord.fetch.trans (hon.fetch_put_self hv .fpscr _)

namespace Emit

variable {s : Setting} {c : Contents} {e e' : Emitter} {m m' : Machine} {p : Bank 32 Precision}
  {g : State} {op : FloatOp} {word : Word} {hints : Hints} {next : Option NextInstruction}

/-! ## The guest state behind emitter and machine -/

/-- The carry bit, wherever it is. -/
def Emitter.carryValue (e : Emitter) (m : Machine) : Bool :=
  match e.carry with
  | .inGuestState => m.state.xerCa
  | .inHostCarry => m.flags.c
  | .constantTrue => true
  | .constantFalse => false

/-- Emitter and machine stand for a guest state while no instruction is under way: every slot and
the carry have their values in it, and memory has its status word and overflow bits. Lanes that the
emitter calls single have their low bits clear, and rounding changes none of them in the registers
`safe`. -/
structure Emitter.Denotes (e : Emitter) (m : Machine) (safe : BitVec 32) (g : State) : Prop where
  settled : e.Settled m
  on : g.On e.layout
  gpr : ∀ reg : GuestReg, e.gprValue m reg = g.gpr reg
  cr : ∀ field : CrField, e.crValue m field = g.crField field
  fpr : ∀ reg : GuestReg, e.fprValue m reg = g.ps reg
  carry : e.carryValue m = g.xerCa
  soOv : m.state.xerSoOv = g.xerSoOv
  fpscr : m.state.fpscr = g.fpscr
  short : SoundFor Double.IsShort e.vectors.precision fun reg => g.ps reg
  exact : ∀ reg : GuestReg, safe.getLsbD reg.val = true →
    (e.vectors.precision.get reg).Sound (fun x => Double.roundToSingle x = x) (g.ps reg)

/-- The carry as far as it is known. A byte in memory other than zero and one stands for nothing. -/
def Emitter.knownCarry (e : Emitter) (m : Machine) : Option Bool :=
  if e.carry = .inGuestState then none else some (e.carryValue m)

theorem Emitter.carryIs_knownCarry (e : Emitter) (m : Machine) (b : Bool)
    (h : e.knownCarry m = some b) : CarryIs e.carry m b := by
  unfold Emitter.knownCarry Emitter.carryValue at h
  cases hcarry : e.carry with
  | inGuestState =>
    rw [hcarry, if_pos rfl] at h
    cases h
  | inHostCarry | constantTrue | constantFalse =>
    rw [hcarry] at h
    cases h
    rfl

/-- The contents of an emitter follow the guest state that it stands for, the carry apart. -/
theorem Emitter.Denotes.tracks {safe : BitVec 32} (h : e.Denotes m safe g) (ca : Option Bool) :
    (e.contents m ca).Tracks e.layout ⟨false, true⟩ g where
  on := h.on
  same cell := by
    cases cell with
    | gpr reg => exact h.gpr reg
    | cr field => exact h.cr field
    | ps reg => exact h.fpr reg
    | xerCa => exact nofun
    | xerSoOv => exact h.soOv
    | fpscr =>
      have hfpscr : m.state.fetch .fpscr = g.fetch .fpscr := h.fpscr
      exact ⟨congrArg (· &&& ~~~Status.classMask) hfpscr, fun _ => hfpscr⟩
  known := nofun

/-! ## The effect of an instruction -/

theorem Contents.ca_withEffect (c : Contents) (s : Setting) (effect : FloatEffect) :
    (c.withEffect s effect).ca = c.ca := by
  obtain ⟨value, status, condition⟩ := effect
  unfold Contents.withEffect Contents.putStatus
  cases s.config.fprf && s.hints.wantsFprf <;> cases status <;> cases value <;>
    cases condition <;> rfl

theorem Contents.fpscr_withEffect (c : Contents) (s : Setting) (effect : FloatEffect)
    (h : (s.config.fprf && s.hints.wantsFprf) = false) :
    (c.withEffect s effect).fpscr = c.fpscr := by
  obtain ⟨value, status, condition⟩ := effect
  unfold Contents.withEffect Contents.putStatus
  rw [h]
  cases status <;> cases value <;> cases condition <;> rfl

/-- Without flushing, the host executes what is not a negated fused operation as the guest does. -/
theorem stepOp_host (hneg : op.isNegated = false) (word : Word) (fprf : Bool) (g : State) :
    word.stepOp (.host false) fprf g (.float op) = word.stepOp .guest fprf g (.float op) := by
  unfold Word.stepOp State.floatWith
  dsimp only
  rw [effect_host hneg]

/-- The code of a floating-point instruction follows the guest. -/
theorem Contents.Tracks.afterFloat (h : c.Tracks s.layout ⟨false, true⟩ g)
    (hflush : s.flush = false) (hneg : op.isNegated = false)
    (hop : Op.decode s.word = some (.float op))
    (hdefer : s.config.opDeferral? s.word (.float op) = none)
    (hshort : SoundFor Double.IsShort p c.ps)
    (hsafe : skipsRounding p s.hints s.word.rb = true →
      Double.roundToSingle (lane (c.ps s.word.rb) 0) = lane (c.ps s.word.rb) 0) :
    (c.afterFloat s p op).Tracks s.layout ⟨false, true⟩
      (s.word.stepWanted s.config.fprf s.hints.wantsFprf g op) := by
  let w : Wanted := ⟨false, s.hints.wantsFprf⟩
  have hbefore : c.Tracks s.layout ((w.before (some (.float op))).under s.config.fprf) g :=
    h.mono nofun fun _ => rfl
  have hafter : (c.afterFloat s p op).Tracks s.layout (w.under s.config.fprf)
      (s.word.stepOp (.host s.flush) s.config.fprf g (.float op)) :=
    Tracks.stepOp s.valid hbefore rfl hop hdefer nofun (fun hw => hw) hshort hsafe
  rw [hflush, stepOp_host hneg] at hafter
  unfold Word.stepWanted
  cases hheld : s.config.fprf && !s.hints.wantsFprf with
  | false =>
    rw [if_neg Bool.false_ne_true]
    have hbool : ∀ fprf wanted : Bool, (fprf && !wanted) = false → (wanted || !fprf) = true := by
      decide
    exact hafter.mono nofun fun _ => hbool _ _ hheld
  | true =>
    rw [if_pos rfl]
    have hbool : ∀ fprf wanted : Bool, (fprf && !wanted) = true → (fprf && wanted) = false := by
      decide
    have hunwanted : (s.config.fprf && s.hints.wantsFprf) = false := hbool _ _ hheld
    have hkept : (c.afterFloat s p op).fpscr = g.fpscr := by
      rw [Contents.afterFloat_eq hshort hsafe, Contents.fpscr_withEffect _ _ _ hunwanted]
      exact (h.same .fpscr).2 rfl
    have hsame : Wanted.Same ⟨false, true⟩ .fpscr g.fpscr g.fpscr := .refl _ _ _
    have hset := hafter.setFpscr s.valid hsame nofun
    rw [← hkept] at hset ⊢
    exact hset

/-! ## The code of an instruction -/

/-- The code of a floating-point instruction can be emitted. It has the effect of the instruction on
what the emitter stands for, and brings the carry to memory. A carry that is there already, whatever
its byte, stays. -/
theorem Emitter.Settled.emitFloat (h : (e.reading word hints next).Settled m)
    (hop : e.config.lowers word = some (.float op)) : ∃ e' m',
      (emitWord word hints next).run.run e = (.ok (), e') ∧ e.code.Runs e'.code m m' ∧
      Boundary h.setting .inGuestState (wordPrecisions e.config word hints e.vectors.precision)
        (((e.reading word hints next).contents m (e.knownCarry m)).afterFloat h.setting
          (seeded e.vectors.precision hints.singles) op) e' m' ∧
      (e.carry = .inGuestState → m'.state.xerCa = m.state.xerCa) := by
  have hroom : 5 ≤ h.setting.vecs.order.length := (h.accepted.goodPool .vector).size
  have hstart : Sim h.setting (h.setting.rest e.carry (seeded e.vectors.precision hints.singles))
      ((e.reading word hints next).contents m (e.knownCarry m)) (e.reading word hints next) m :=
    h.boundary (e.carryIs_knownCarry m)
  obtain ⟨⟨⟩, e₁, m₁, hlower, hruns, k, kv, h₁⟩ := (hstart.weakenV hroom).lowerFloat_spec op
  obtain ⟨⟨⟩, e₂, m₂, hend, -, h₂, hcode, rfl⟩ := Sim.end_spec (h₁.with_stats
    { e₁.stats with lowered := e₁.stats.lowered + 1 })
  refine ⟨e₂, m₂, (emitWord_of_lowered hop).2 ⟨e₁, hlower, hend⟩, ?_, ?_, ?_⟩
  · rw [hcode]
    exact hruns
  · unfold wordPrecisions
    rw [hop]
    exact h₂
  · intro hcarry
    have hquiet : Emits.Flushes Quiet (lowerFloat op) := Emits.lowerFloat
    have hmoves : (e.reading word hints next).Moves Quiet e₁ := hquiet.moves hcarry hlower
    have hv : e.layout.Valid := h.accepted.layout_valid
    have hon : m.state.On e.layout := h.ints.holds.on
    have hlayout : (e.reading word hints next).layout = e.layout := rfl
    have hspares : Spares e.layout m.state m₂ :=
      .runs hv hlayout hmoves h₁.fixed.code hruns ⟨hon, fun _ _ => rfl⟩
    have hbyte : m₂.state.fetch .xerCa = m.state.fetch .xerCa := hspares.fetch hv hon rfl
    exact congrArg (· != 0) hbyte

/-- The carry afterwards is the one from before. -/
theorem Emitter.Settled.carry_emitFloat (h : (e.reading word hints next).Settled m)
    (hends : Boundary h.setting .inGuestState p c e' m') (hca : c.ca = e.knownCarry m)
    (hkept : e.carry = .inGuestState → m'.state.xerCa = m.state.xerCa) :
    m'.state.xerCa = e.carryValue m := by
  by_cases hcarry : e.carry = .inGuestState
  · rw [hkept hcarry, Emitter.carryValue, hcarry]
  · rw [Emitter.knownCarry, if_neg hcarry] at hca
    have hbyte : m'.state.fetch .xerCa = (BitVec.ofBool (e.carryValue m)).setWidth 8 :=
      hends.ca _ hca
    have hbit : ∀ b, ((BitVec.ofBool b).setWidth 8 != 0#8) = b := by decide
    exact (congrArg (· != 0) hbyte).trans (hbit _)

/-- Between instructions, contents that follow a guest state make emitter and machine stand for
it. -/
theorem Emitter.Denotes.of_boundary {safe : BitVec 32} (h : Boundary s .inGuestState p c e m)
    (htracks : c.Tracks s.layout ⟨false, true⟩ g) (hca : m.state.xerCa = g.xerCa)
    (hshort : SoundFor Double.IsShort p fun reg => g.ps reg)
    (hexact : ∀ reg : GuestReg, safe.getLsbD reg.val = true →
      (p.get reg).Sound (fun x => Double.roundToSingle x = x) (g.ps reg)) : e.Denotes m safe g := by
  have hlayout : e.layout = s.layout := h.fixed.layout
  have hcarry : e.carry = .inGuestState := h.fixed.carry
  have hprecision : e.vectors.precision = p := h.fixed.precision
  exact
    { settled := .of_boundary h
      on := hlayout ▸ htracks.on
      gpr := fun reg => (congrFun (Sim.gprValue_eq h) reg).trans (htracks.gpr reg)
      cr := fun field => (Sim.crValue_eq h field).trans (htracks.same (.cr field))
      fpr := fun reg => (congrFun (Sim.fprValue_eq h) reg).trans (htracks.ps reg)
      carry := by
        rw [Emitter.carryValue, hcarry]
        exact hca
      soOv := h.around.soOv.trans (htracks.same .xerSoOv)
      fpscr := h.around.fpscr.trans ((htracks.same .fpscr).2 rfl)
      short := hprecision ▸ hshort
      exact := hprecision ▸ hexact }

/-- The contents that an emitter stands for follow the guest through an instruction, and keep the
carry. -/
theorem Emitter.Denotes.afterFloat (h : e.Denotes m e.hints.storeSafe g) (hflush : m.flush = false)
    (hneg : op.isNegated = false) (hop : Op.decode e.word = some (.float op))
    (hdefer : e.config.opDeferral? e.word (.float op) = none)
    (ca : Option Bool) :
    ((e.contents m ca).afterFloat h.settled.setting e.vectors.precision op).Tracks e.layout
        ⟨false, true⟩ (e.word.stepWanted e.config.fprf e.hints.wantsFprf g op) ∧
      ((e.contents m ca).afterFloat h.settled.setting e.vectors.precision op).ca = ca := by
  have hps : (e.contents m ca).ps = fun reg : GuestReg => g.ps reg := funext h.fpr
  have hshort : SoundFor Double.IsShort e.vectors.precision (e.contents m ca).ps := hps ▸ h.short
  have hsafe : skipsRounding e.vectors.precision e.hints e.word.rb = true →
      Double.roundToSingle (lane ((e.contents m ca).ps e.word.rb) 0) =
        lane ((e.contents m ca).ps e.word.rb) 0 := by
    intro hskip
    obtain ⟨hsingle, hbit⟩ := Bool.and_eq_true_iff.1 hskip
    rw [hps]
    exact (h.exact e.word.rb hbit).lower hsingle
  refine ⟨(h.tracks ca).afterFloat (s := h.settled.setting) hflush hneg hop hdefer hshort hsafe, ?_⟩
  rw [Contents.afterFloat_eq (s := h.settled.setting) hshort hsafe, Contents.ca_withEffect]
  rfl

/-- A new emitter stands for the state in memory. It calls no lane single. -/
theorem Emitter.Denotes.start {config : Config} {layout : Layout}
    (haccepted : Accepted config layout) (hon : m.state.On layout) (hstack : m.stack = [])
    (safe : BitVec 32) : (Emitter.new config layout).Denotes m safe m.state := by
  let s : Setting := ⟨config, layout, haccepted, 0, {}, none, m.flush, m.interpreter⟩
  have hstart : Boundary s .inGuestState _ _ _ m := .start ⟨hon, hstack, rfl, rfl⟩
  refine .of_boundary hstart (.ofState (.refl hon _) nofun) rfl (.double _ _) ?_
  intro reg _
  rw [Bank.get_replicate]
  exact .double _ _

/-- The relation passes to the next instruction, with hints that are right about the registers. -/
theorem Emitter.Denotes.reading {safe : BitVec 32} (h : e.Denotes m safe g)
    (hsingle : MaskHolds Double.IsShort hints.singles fun reg => g.ps reg)
    (hround : ∀ reg : GuestReg, hints.storeSafe.getLsbD reg.val = true →
      hints.singles.getLsbD reg.val = true → Both (fun x => Double.roundToSingle x = x) (g.ps reg))
    (hsafe : ∀ reg : GuestReg, hints.storeSafe.getLsbD reg.val = true →
      hints.singles.getLsbD reg.val ≠ true → safe.getLsbD reg.val = true) :
    (e.reading word hints next).Denotes m hints.storeSafe g where
  settled := ⟨h.settled.accepted, h.settled.code, h.settled.pending, h.settled.stack,
    h.settled.ints, h.settled.vecs⟩
  on := h.on
  gpr := h.gpr
  cr := h.cr
  fpr := h.fpr
  carry := h.carry
  soOv := h.soOv
  fpscr := h.fpscr
  short := SoundFor.of_mask h.short hsingle
  exact := by
    intro reg hbit
    have hget : (e.reading word hints next).vectors.precision.get reg =
        if hints.singles.getLsbD reg.val then .bothSingle else e.vectors.precision.get reg :=
      get_seeded e.vectors.precision hints.singles reg
    rw [hget]
    split
    · next hsingle => exact .of_both (hround reg hbit hsingle) _
    · next hother => exact h.exact reg (hsafe reg hbit hother)

/-- Before its first instruction an emitter stands for the state in memory, with any hints that are
right about the registers there. -/
theorem Emitter.Denotes.new {config : Config} {layout : Layout} (haccepted : Accepted config layout)
    (hon : m.state.On layout) (hstack : m.stack = [])
    (hsingle : MaskHolds Double.IsShort hints.singles fun reg => m.state.ps reg)
    (hsafe : ∀ reg : GuestReg, hints.storeSafe.getLsbD reg.val = true →
      hints.singles.getLsbD reg.val = true → Both (fun x => Double.roundToSingle x = x)
        (m.state.ps reg)) :
    ((Emitter.new config layout).reading word hints next).Denotes m hints.storeSafe m.state :=
  (start haccepted hon hstack hints.storeSafe).reading hsingle hsafe fun _ hbit _ => hbit

/-- Hints that call no register single are right about all of them. -/
theorem Emitter.Denotes.unhinted {config : Config} {layout : Layout}
    (haccepted : Accepted config layout) (hon : m.state.On layout) (hstack : m.stack = [])
    (hsingles : hints.singles = 0) :
    ((Emitter.new config layout).reading word hints next).Denotes m hints.storeSafe m.state := by
  have hnone : ∀ reg : GuestReg, hints.singles.getLsbD reg.val ≠ true := by
    intro reg
    simp [hsingles]
  exact .new haccepted hon hstack (fun reg hreg => absurd hreg (hnone reg))
    fun reg _ hreg => absurd hreg (hnone reg)

/-- The code of a floating-point instruction leads to the guest state after it, as far as that is
wanted. -/
theorem Emitter.Denotes.emitFloat (h : (e.reading word hints next).Denotes m hints.storeSafe g)
    (hflush : m.flush = false) (hop : e.config.lowers word = some (.float op))
    (hneg : op.isNegated = false) : ∃ e' m',
      (emitWord word hints next).run.run e = (.ok (), e') ∧ e.code.Runs e'.code m m' ∧
      e'.config = e.config ∧ m'.flush = m.flush ∧ e'.carry = .inGuestState ∧
      e'.Denotes m' (Singles.afterFloat ⟨hints.singles, hints.storeSafe⟩ word op).safe
        (word.stepWanted e.config.fprf hints.wantsFprf g op) := by
  have hv : e.layout.Valid := h.settled.accepted.layout_valid
  obtain ⟨hdecode, hdefer⟩ := Config.lowers_eq_some hop
  obtain ⟨htracks, hca⟩ := h.afterFloat hflush hneg hdecode hdefer (e.knownCarry m)
  obtain ⟨e', m', hrun, hruns, hends, hkept⟩ := h.settled.emitFloat hop
  have hps : ∀ reg : GuestReg, (word.stepWanted e.config.fprf hints.wantsFprf g op).ps reg =
      (word.stepOp .guest e.config.fprf g (.float op)).ps reg :=
    fun reg => h.on.fetch_stepWanted hv word _ _ op (.ps reg) nofun
  refine ⟨e', m', hrun, hruns, hends.fixed.config, hends.around.flush, hends.fixed.carry,
    .of_boundary hends htracks ?_ ?_ ?_⟩
  · have hkeeps : State.Keeps e.layout .xerCa g (word.stepOp .guest e.config.fprf g (.float op)) :=
      .stepFloat hv h.on .guest _ word op nofun nofun nofun
    have hfetch : (word.stepWanted e.config.fprf hints.wantsFprf g op).fetch .xerCa =
        g.fetch .xerCa := (h.on.fetch_stepWanted hv word _ _ op .xerCa nofun).trans hkeeps.fetch
    calc m'.state.xerCa = e.carryValue m := h.settled.carry_emitFloat hends hca hkept
      _ = g.xerCa := h.carry
      _ = (word.stepWanted e.config.fprf hints.wantsFprf g op).xerCa :=
        congrArg (· != 0) hfetch.symm
  · intro reg
    dsimp only
    rw [hps]
    exact SoundFor.of_word .short hv hop h.on h.short .guest _ reg
  · intro reg hreg
    unfold wordPrecisions
    rw [hop, hps]
    exact sound_afterFloat .fixed hv h.on h.exact .guest _ word op reg hreg

/-- The status word stays if nobody wants the class. -/
theorem Emitter.Denotes.emitFloat_unwanted
    (h : (e.reading word hints next).Denotes m hints.storeSafe g) (hflush : m.flush = false)
    (hop : e.config.lowers word = some (.float op)) (hneg : op.isNegated = false)
    (hunwanted : (e.config.fprf && !hints.wantsFprf) = true) :
    ∃ e' m', (emitWord word hints next).run.run e = (.ok (), e') ∧ e.code.Runs e'.code m m' ∧
      m'.state.fpscr = g.fpscr := by
  have hv : e.layout.Valid := h.settled.accepted.layout_valid
  have hkeeps : State.Keeps e.layout .xerCa g (word.stepOp .guest e.config.fprf g (.float op)) :=
    .stepFloat hv h.on .guest _ word op nofun nofun nofun
  obtain ⟨e', m', hrun, hruns, -, -, -, hkept⟩ := h.emitFloat hflush hop hneg
  refine ⟨e', m', hrun, hruns, ?_⟩
  rw [hkept.fpscr, Word.stepWanted, if_pos hunwanted]
  exact hkeeps.on.fetch_put_self hv .fpscr _

theorem Emitter.Moves.hints_eq {P : Permits} (h : e.Moves P e') :
    e'.hints = e.hints := by
  induction h with
  | refl => rfl
  | tail _ hmove ih => cases hmove <;> exact ih

/-- The emitter keeps the hints of an instruction until the next one begins. -/
theorem hints_emitWord {op : Op} (hop : e.config.lowers word = some op)
    (hrun : (emitWord word hints next).run.run e = (.ok (), e')) : e'.hints = hints := by
  obtain ⟨e₁, hcode, hend⟩ := (emitWord_of_lowered hop).1 hrun
  have hended : e₁.hints = e'.hints := (Emits.endInstruction.moves (P := Plain) hend).hints_eq.symm
  exact hended.symm.trans (Emits.lower.moves hcode).hints_eq

/-- Hints that call the destination safe are no longer right when a lane that rounding changes has
come there. -/
theorem Emitter.Denotes.emitFloat_unsafe
    (h : (e.reading word hints next).Denotes m hints.storeSafe g)
    (hop : e.config.lowers word = some (.float op))
    (hsafe : hints.storeSafe.getLsbD word.rd.val = true)
    (hsingle : (precisionAfter (seeded e.vectors.precision hints.singles) word op).isSingle true =
      true)
    {after : State}
    (hround : Double.roundToSingle (lane (after.ps word.rd) 0) ≠ lane (after.ps word.rd) 0) :
    ∃ e' m', (emitWord word hints next).run.run e = (.ok (), e') ∧ e.code.Runs e'.code m m' ∧
      ¬e'.Denotes m' e'.hints.storeSafe after := by
  obtain ⟨e', m', hrun, hruns, hends, -⟩ := h.settled.emitFloat hop
  refine ⟨e', m', hrun, hruns, ?_⟩
  intro hnew
  have hprecision : (e'.vectors.precision.get word.rd).isSingle true = true := by
    have hfixed : e'.vectors.precision = wordPrecisions e.config word hints e.vectors.precision :=
      hends.fixed.precision
    rw [hfixed, wordPrecisions, hop]
    dsimp only [opPending]
    rw [get_committed_floatPending, if_pos rfl]
    exact hsingle
  have hhints : e'.hints.storeSafe.getLsbD word.rd.val = true := by
    rw [hints_emitWord hop hrun]
    exact hsafe
  exact hround ((hnew.exact word.rd hhints).lower hprecision)

/-! ## Some steps of the interpreter -/

/-- The status word calls the sum of two zeros a zero. -/
theorem fpscr_sum_of_zeros {layout : Layout} (hv : layout.Valid) (hon : g.On layout)
    (hps : ∀ reg : GuestReg, g.ps reg = 0) (hfpscr : g.fpscr = 0) :
    (Word.stepOp 0xFC61102A .guest true g (.float (.arith .double .add))).fpscr = 0x2000 := by
  have hstatus := hon.fpscr_stepFloat hv .guest 0xFC61102A (.arith .double .add) rfl
  rw [hps, hps, hps, hps, hfpscr] at hstatus
  exact hstatus.trans (by decide +kernel)

theorem single_sum_decodes : Op.decode 0xEC61102A = some (.float (.arith .single .add)) := rfl

theorem double_sum_decodes : Op.decode 0xFC83082A = some (.float (.arith .double .add)) := rfl

section Sums

variable {layout : Layout} (hv : layout.Valid) (hon : g.On layout)
  (hps₁ : g.ps (1 : GuestReg) = 0x3FF8000000000000)
include hv hon hps₁

/-- One and a half plus two and a quarter, rounded to single in both lanes. -/
theorem stepOp_single_sum (hps₂ : g.ps (2 : GuestReg) = 0x4002000000000000) (hfpscr : g.fpscr = 0) :
    (Word.stepOp 0xEC61102A .guest true g (.float (.arith .single .add))).ps 3 =
        0x400E000000000000400E000000000000 ∧
      (Word.stepOp 0xEC61102A .guest true g (.float (.arith .single .add))).fpscr = 0x4000 := by
  have hra : Word.ra 0xEC61102A = 1 := by decide
  have hrb : Word.rb 0xEC61102A = 2 := by decide
  have hsum : Double.roundToSingle (Double.add (lane 0x3FF8000000000000 0)
      (lane 0x4002000000000000 0)) = 0x400E000000000000 := by decide +kernel
  have hvalue := hon.ps_stepFloat hv .guest true 0xEC61102A (.arith .single .add)
  have hstatus := hon.fpscr_stepFloat hv .guest 0xEC61102A (.arith .single .add) rfl
  rw [hra, hrb, hps₁, hps₂] at hvalue hstatus
  rw [hfpscr] at hstatus
  refine ⟨hvalue.trans (congrArg₂ join hsum hsum), hstatus.trans ?_⟩
  exact congrArg (fun x => Status.withClass 0 (Double.classifyAs (lane (join x x) 0) true)) hsum

/-- Three and three quarters plus one and a half. -/
theorem stepOp_double_sum (hps₃ : g.ps (3 : GuestReg) = 0x400E000000000000400E000000000000)
    (hps₄ : g.ps (4 : GuestReg) = 0) (hfpscr : g.fpscr = 0x4000) :
    (Word.stepOp 0xFC83082A .guest true g (.float (.arith .double .add))).ps 4 =
        0x4015000000000000 ∧
      (Word.stepOp 0xFC83082A .guest true g (.float (.arith .double .add))).fpscr = 0x4000 := by
  have hrd : Word.rd 0xFC83082A = 4 := by decide
  have hra : Word.ra 0xFC83082A = 3 := by decide
  have hrb : Word.rb 0xFC83082A = 1 := by decide
  have hsum : Double.add (lane 0x400E000000000000400E000000000000 0) (lane 0x3FF8000000000000 0) =
      0x4015000000000000 := by decide +kernel
  have hvalue := hon.ps_stepFloat hv .guest true 0xFC83082A (.arith .double .add)
  have hstatus := hon.fpscr_stepFloat hv .guest 0xFC83082A (.arith .double .add) rfl
  rw [hrd, hra, hrb, hps₁, hps₃, hps₄] at hvalue hstatus
  rw [hfpscr] at hstatus
  refine ⟨hvalue.trans (congrArg (join · _) hsum), hstatus.trans ?_⟩
  exact congrArg (fun x =>
    Status.withClass 0x4000 (Double.classifyAs (lane (join x _) 0) false)) hsum

end Sums

/-- A move takes the lower lane along, also one that rounding would change. -/
theorem stepOp_move_of_large {layout : Layout} (hv : layout.Valid) (hon : g.On layout)
    (hps : g.ps (1 : GuestReg) = 0x7FE0000000000000) :
    lane ((Word.stepOp 0xFC400890 .guest false g (.float (.move false .mr))).ps
      (Word.rd 0xFC400890)) 0 = 0x7FE0000000000000 := by
  have hrb : Word.rb 0xFC400890 = 1 := by decide
  have hvalue : (Word.stepOp 0xFC400890 .guest false g (.float (.move false .mr))).ps
      (Word.rd 0xFC400890) = join (lane (g.ps (Word.rb 0xFC400890)) 0)
        (lane (g.ps (Word.rd 0xFC400890)) 1) :=
    hon.ps_stepFloat hv .guest false 0xFC400890 (.move false .mr)
  rw [hvalue, lane_join_zero, hrb, hps]
  rfl

/-! ## One step of simulation -/

/-- One step of simulation: from an emitter and a machine that stand for a guest state, and with
hints that are right about it, the code of a floating-point word that is not deferred leads to an
emitter and a machine that stand for the state after a step of the interpreter. Negated fused
operations are left out. If classes are kept and the hints say that nobody wants this one, the
status word stays. -/
theorem float_code_follows_interpreter
    (h : (e.reading word hints next).Denotes m hints.storeSafe g) (hflush : m.flush = false)
    (hdecode : Op.decode word = some (.float op)) (hdefer : e.config.deferral? word = none)
    (hneg : op.isNegated = false) : ∃ e' m' after,
      (emitWord word hints next).run.run e = (.ok (), e') ∧ e.code.Runs e'.code m m' ∧
      Interpreter.step ⟨e.config.fprf⟩ g word = .ok after ∧ e'.carry = .inGuestState ∧
      e'.Denotes m' (Singles.after ⟨hints.singles, hints.storeSafe⟩ word).safe
        (if e.config.fprf && !hints.wantsFprf then after.setFpscr g.fpscr else after) := by
  have hop : e.config.lowers word = some (.float op) := by
    rw [Config.lowers, hdecode, hdefer]
  obtain ⟨e', m', hrun, hruns, -, -, hcarry, hdenotes⟩ := h.emitFloat hflush hop hneg
  refine ⟨e', m', word.stepOp .guest e.config.fprf g (.float op), hrun, hruns, ?_, hcarry, ?_⟩
  · rw [Interpreter.step_eq, Word.step, hdecode]
  · rw [Singles.after, hdecode]
    exact hdenotes

/-- Two sums. The second is one of registers that the first has left in the host, and its hints know
of the first. -/
theorem sum_of_cached_registers_follows_interpreter :
    let x : BitVec 128 := 0x3FF8000000000000
    let y : BitVec 128 := 0x4002000000000000
    let m : Machine := { state := ((State.zeros .standard).put (.ps 1) x).put (.ps 2) y }
    let e := Emitter.new { fprf := true } .standard
    let hints : Hints := { singles := 8, storeSafe := 8 }
    ∃ e₁ m₁ between, (emitWord 0xEC61102A {} none).run.run e = (.ok (), e₁) ∧
      e.code.Runs e₁.code m m₁ ∧ Interpreter.step ⟨true⟩ m.state 0xEC61102A = .ok between ∧
      e₁.vectors.cache.binding 1 = .host 8 ∧ e₁.vectors.cache.binding 3 = .host 10 ∧
      (e₁.reading 0xFC83082A hints none).Denotes m₁ hints.storeSafe between ∧
      ∃ e₂ m₂, (emitWord 0xFC83082A hints none).run.run e₁ = (.ok (), e₂) ∧
        e₁.code.Runs e₂.code m₁ m₂ ∧ e₂.fprValue m₂ 4 = 0x4015000000000000 ∧
        m₂.state.fpscr = 0x4000 := by
  intro x y
  have hv := Layout.valid_standard
  have hzeros := State.On.zeros .standard
  have hput := hzeros.put hv (.ps 1) x
  have hon := hput.put hv (.ps 2) y
  have hps₁ := (hput.fetch_put_of_ne hv (.ps 2) y (by decide)).trans
    (hzeros.fetch_put_self hv (.ps 1) x)
  have hps₂ := hput.fetch_put_self hv (.ps 2) y
  have hother : ∀ cell, cell ≠ .ps 1 → cell ≠ .ps 2 →
      (((State.zeros .standard).put (.ps 1) x).put (.ps 2) y).fetch cell = 0 := by
    intro cell hone htwo
    rw [hput.fetch_put_of_ne hv _ _ htwo, hzeros.fetch_put_of_ne hv _ _ hone, State.fetch_zeros hv]
  generalize ((State.zeros .standard).put (.ps 1) x).put (.ps 2) y = state at *
  intro m e hints
  -- the first sum, which leaves its operands and its result in host registers
  have hdenotes : (e.reading 0xEC61102A {} none).Denotes m 0 m.state := .unhinted rfl hon rfl rfl
  have hop : e.config.lowers 0xEC61102A = some (.float (.arith .single .add)) := rfl
  obtain ⟨e₁, m₁, hrun, hruns, hconfig, hflush, -, hafter⟩ := hdenotes.emitFloat rfl hop rfl
  have hbinding : ∀ {slot : GuestReg} {binding : Binding},
      ((emitWord 0xEC61102A {} none).run.run e).2.vectors.cache.binding slot = binding →
      e₁.vectors.cache.binding slot = binding := by
    intro slot binding h
    rwa [hrun] at h
  have hwanted : Word.stepWanted 0xEC61102A true true state (.arith .single .add) =
      Word.stepOp 0xEC61102A .guest true state (.float (.arith .single .add)) := if_neg (by decide)
  have hthere :
      e₁.Denotes m₁ _ (Word.stepWanted 0xEC61102A true true state (.arith .single .add)) :=
    hafter
  rw [hwanted] at hthere
  obtain ⟨hps₃, hstatus⟩ := stepOp_single_sum hv hon hps₁ hps₂ (hother .fpscr nofun nofun)
  have hkept : ∀ reg : GuestReg, reg ≠ 3 → _ = state.ps reg :=
    fun reg hreg => hon.ps_stepFloat_of_ne hv .guest true 0xEC61102A (.arith .single .add) hreg
  have hkeeps : State.Keeps .standard .xerCa state _ :=
    .stepFloat hv hon .guest true 0xEC61102A (.arith .single .add) nofun nofun nofun
  have hstep : Interpreter.step ⟨true⟩ state 0xEC61102A =
      .ok (Word.stepOp 0xEC61102A .guest true state (.float (.arith .single .add))) := by
    rw [Interpreter.step_eq, Word.step, single_sum_decodes]
  refine ⟨e₁, m₁, _, hrun, hruns, hstep, hbinding (by decide +kernel),
    hbinding (by decide +kernel), ?_⟩
  generalize Word.stepOp 0xEC61102A .guest true state (.float (.arith .single .add)) = between at *
  -- its result is a single that rounding does not change
  have hthree : ∀ reg : GuestReg, hints.singles.getLsbD reg.val = true → reg = 3 := by decide
  have hboth : ∀ {P : Double → Prop}, P 0x400E000000000000 → ∀ reg : GuestReg,
      hints.singles.getLsbD reg.val = true → Both P (between.ps reg) := by
    intro P hP reg hreg
    have hlanes : between.ps (3 : GuestReg) = join 0x400E000000000000 0x400E000000000000 := hps₃
    rw [hthree reg hreg, hlanes]
    exact .join hP hP
  have hnext : (e₁.reading 0xFC83082A hints none).Denotes m₁ hints.storeSafe between :=
    hthere.reading (hboth rfl) (fun reg _ => hboth (by decide +kernel) reg)
      fun _ hsafe hnot => absurd hsafe hnot
  obtain ⟨e₂, m₂, after, hrun₂, hruns₂, hstep₂, -, hafter₂⟩ :=
    float_code_follows_interpreter hnext hflush double_sum_decodes (by rw [hconfig]; rfl) rfl
  obtain ⟨hps₄, hstatus₄⟩ := stepOp_double_sum hv hkeeps.on ((hkept 1 (by decide)).trans hps₁) hps₃
    ((hkept 4 (by decide)).trans (hother (.ps 4) (by decide) (by decide))) hstatus
  rw [hconfig] at hstep₂ hafter₂
  have hthere₂ : e₂.Denotes m₂ _ after := hafter₂
  have hstate₂ :
      Word.stepOp 0xFC83082A .guest true between (.float (.arith .double .add)) = after := by
    rw [Interpreter.step_eq, Word.step, double_sum_decodes] at hstep₂
    exact Except.ok.inj hstep₂
  rw [← hstate₂] at hthere₂
  exact ⟨hnext, e₂, m₂, hrun₂, hruns₂, (hthere₂.fpr 4).trans hps₄, hthere₂.fpscr.trans hstatus₄⟩

/-- The state after the step itself need not be what emitter and machine stand for. A class that
nobody wants is missing. And hints speak of the registers before their instruction: a move takes a
lane that rounding would change to a register that they call safe. -/
theorem unwanted_class_is_missing_and_hints_grow_old :
    (let m : Machine := { state := .zeros .standard }
      let e := Emitter.new { fprf := true } .standard
      let hints : Hints := { wantsFprf := false }
      (e.reading 0xFC61102A hints none).Denotes m hints.storeSafe m.state ∧
        Op.decode 0xFC61102A = some (.float (.arith .double .add)) ∧
        e.config.deferral? 0xFC61102A = none ∧ ∃ e' m' after,
          (emitWord 0xFC61102A hints none).run.run e = (.ok (), e') ∧ e.code.Runs e'.code m m' ∧
          Interpreter.step ⟨true⟩ m.state 0xFC61102A = .ok after ∧
          ∀ safe, ¬e'.Denotes m' safe after) ∧
    (let m : Machine := { state := (State.zeros .standard).put (.ps 1) 0x7FE0000000000000 }
      let e := Emitter.new {} .standard
      let hints : Hints := { singles := 6, storeSafe := 4 }
      (e.reading 0xFC400890 hints none).Denotes m hints.storeSafe m.state ∧
        Op.decode 0xFC400890 = some (.float (.move false .mr)) ∧
        e.config.deferral? 0xFC400890 = none ∧ ∃ e' m' after,
          (emitWord 0xFC400890 hints none).run.run e = (.ok (), e') ∧ e.code.Runs e'.code m m' ∧
          Interpreter.step ⟨false⟩ m.state 0xFC400890 = .ok after ∧
          ¬e'.Denotes m' e'.hints.storeSafe after) := by
  have hv := Layout.valid_standard
  have hon := State.On.zeros .standard
  have hzero : ∀ reg : GuestReg, (State.zeros .standard).ps reg = 0 :=
    fun reg => State.fetch_zeros hv (.ps reg)
  refine ⟨?_, ?_⟩
  · have hfpscr : (State.zeros .standard).fpscr = 0 := State.fetch_zeros hv .fpscr
    have hstatus := fpscr_sum_of_zeros hv hon hzero hfpscr
    generalize State.zeros .standard = state at *
    intro m e hints
    have hdenotes : (e.reading 0xFC61102A hints none).Denotes m hints.storeSafe m.state :=
      .unhinted rfl hon rfl rfl
    have hop : e.config.lowers 0xFC61102A = some (.float (.arith .double .add)) := rfl
    obtain ⟨e', m', hrun, hruns, hkept⟩ := hdenotes.emitFloat_unwanted rfl hop rfl rfl
    refine ⟨hdenotes, rfl, rfl, e', m', _, hrun, hruns, Interpreter.step_eq _ _ _, ?_⟩
    intro safe hnew
    have hclass : (0x2000 : BitVec 32) = 0 := by
      rw [← hstatus, ← hfpscr]
      exact hnew.fpscr.symm.trans hkept
    cases hclass
  · have hother : ∀ reg : GuestReg, reg ≠ 1 →
        ((State.zeros .standard).put (.ps 1) 0x7FE0000000000000).ps reg = 0 := by
      intro reg hreg
      have hcell : PowerPC.Cell.ps reg ≠ .ps 1 := fun heq => hreg (PowerPC.Cell.ps.inj heq)
      exact (hon.fetch_put_of_ne hv (.ps 1) _ hcell).trans (hzero reg)
    have hlarge : ((State.zeros .standard).put (.ps 1) 0x7FE0000000000000).ps (1 : GuestReg) =
        0x7FE0000000000000 := hon.fetch_put_self hv (.ps 1) _
    have hon' := hon.put hv (.ps 1) 0x7FE0000000000000
    generalize (State.zeros .standard).put (.ps 1) 0x7FE0000000000000 = state at *
    intro m e hints
    have hsingle : MaskHolds Double.IsShort hints.singles fun reg => state.ps reg := by
      intro reg _
      dsimp only
      by_cases hreg : reg = 1
      · rw [hreg, hlarge]
        exact ⟨rfl, rfl⟩
      · rw [hother reg hreg]
        exact ⟨rfl, rfl⟩
    have hsafe : ∀ reg : GuestReg, hints.storeSafe.getLsbD reg.val = true →
        hints.singles.getLsbD reg.val = true →
        Both (fun x => Double.roundToSingle x = x) (state.ps reg) := by
      intro reg hbit _
      have hreg : reg ≠ 1 := by
        rintro rfl
        exact absurd hbit (by decide)
      rw [hother reg hreg]
      exact ⟨by decide +kernel, by decide +kernel⟩
    have hdenotes : (e.reading 0xFC400890 hints none).Denotes m hints.storeSafe m.state :=
      .new rfl hon' rfl hsingle hsafe
    have hop : e.config.lowers 0xFC400890 = some (.float (.move false .mr)) := rfl
    have hbit : hints.storeSafe.getLsbD (Word.rd 0xFC400890).val = true := by decide
    have hprecision : (precisionAfter (seeded e.vectors.precision hints.singles) 0xFC400890
        (.move false .mr)).isSingle true = true := by decide +kernel
    have hround : Double.roundToSingle (lane ((Word.stepOp 0xFC400890 .guest false state
        (.float (.move false .mr))).ps (Word.rd 0xFC400890)) 0) ≠ lane ((Word.stepOp 0xFC400890
        .guest false state (.float (.move false .mr))).ps (Word.rd 0xFC400890)) 0 := by
      rw [stepOp_move_of_large hv hon' hlarge]
      decide +kernel
    obtain ⟨e', m', hrun, hruns, hnot⟩ := hdenotes.emitFloat_unsafe hop hbit hprecision hround
    exact ⟨hdenotes, rfl, rfl, e', m', _, hrun, hruns, Interpreter.step_eq _ _ _, hnot⟩

end Emit

end Recompiler
