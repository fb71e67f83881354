import Recompiler.Lower.FloatCompare
import Recompiler.Proofs.Lower.FloatMove

/-!
# Floating-point compares

The host compares, branches for every outcome but "equal", and writes the outcome to the condition
field and, if it is kept, to the status word.
-/

namespace Recompiler.Emit

open Alloc Arm Block PowerPC Lower Ieee

variable {s : Setting} {c : Contents} {e e' : Emitter} {m m' : Machine} {p : Bank 32 Precision}
  {pd : Bank 32 (Option Precision)} {carry : Carry} {f : FloatStage} {k : Nat}
  {hole : Option IntSlot}

/-! ## The code of the outcomes -/

/-- The store of the status word, if it is kept. -/
def storeStatus (status : Option HostReg) (offset : BitVec 32) : List Inst :=
  match status with
  | some reg => [.store .word reg stateReg offset]
  | none => []

/-- The code of a compare, from its first branch on. -/
def comparePiece (field : HostReg) (status : Option HostReg) (same : Bool) (offset : BitVec 32) :
    Piece where
  near := (otherOutcomes same).map (fun o => .branchIf o.1 0) ++
    outcomeCode field status Condition.eq ++ storeStatus status offset
  far := (otherOutcomes same).flatMap fun o => outcomeCode field status o.2 ++ [.branch 0]
  places :=
    let length := (outcomeCode field status Condition.eq).length
    ⟨.near, (otherOutcomes same).length + length⟩ ::
      (List.range (otherOutcomes same).length).map fun i => ⟨.far, i * (length + 1)⟩
  branches :=
    let length := (outcomeCode field status Condition.eq).length
    (List.range (otherOutcomes same).length).map (fun i => (⟨.near, i⟩, i + 1)) ++
      (List.range (otherOutcomes same).length).map fun i => (⟨.far, i * (length + 1) + length⟩, 0)

/-- The outcome that the code comes to. -/
def outcomeOf (same : Bool) (order : Option Ordering) : BitVec 4 :=
  match order with
  | none => Condition.so
  | some order => if same then Condition.eq else Condition.ofOrdering order

theorem comparePiece_ok (field : HostReg) (status : Option HostReg) (same : Bool)
    (offset : BitVec 32) : (comparePiece field status same offset).Ok := by
  constructor <;> cases status <;> cases same <;>
    simp [comparePiece, otherOutcomes, Piece.inst?, Inst.isBranch, outcomeCode, storeStatus,
      List.range_succ]

/-- How the code of the outcomes is written, from a label on. -/
def branchSteps (others : List (Cond × BitVec 4)) (k : Nat) : List Asm :=
  (others.zipIdx k).flatMap fun o => [Asm.label, Asm.branch (Inst.branchIf o.1.1 0) (o.2 + 1)]

def outcomeSteps (field : HostReg) (status : Option HostReg) (others : List (Cond × BitVec 4))
    (k : Nat) : List Asm :=
  (others.zipIdx k).flatMap fun o => [Asm.place (o.2 + 1)] ++
    (outcomeCode field status o.1.2).map Asm.emit ++ [Asm.branch (Inst.branch 0) 0]

/-- How the code is written. -/
def compareSteps (field : HostReg) (status : Option HostReg) (same : Bool) (offset : BitVec 32) :
    List Asm :=
  [Asm.label] ++ branchSteps (otherOutcomes same) 0 ++
    (outcomeCode field status Condition.eq).map Asm.emit ++ [Asm.place 0] ++
    (storeStatus status offset).map Asm.emit ++ [Asm.switch .far] ++
    outcomeSteps field status (otherOutcomes same) 0 ++ [Asm.switch .near]

theorem comparePiece_writes (field : HostReg) (status : Option HostReg) (same : Bool)
    (offset : BitVec 32) : CodeBuffer.Writes (compareSteps field status same offset)
      (comparePiece field status same offset) := by
  cases status <;> cases same <;> constructor <;> rfl

/-- The labels of the outcomes, from a number on. -/
def labelled (n : Nat) : List (Cond × BitVec 4) → List (Nat × BitVec 4)
  | [] => []
  | (_, bits) :: rest => (n, bits) :: labelled (n + 1) rest

/-- The code with branches to the outcomes. -/
def branched (buffer : CodeBuffer) (n : Nat) : List (Cond × BitVec 4) → CodeBuffer
  | [] => buffer
  | (cond, _) :: rest => branched (buffer.addLabel.branchTo (.branchIf cond 0) n) (n + 1) rest

theorem size_labels_branchTo (b : CodeBuffer) (i : Inst) (label : Nat) :
    (b.branchTo i label).labels.size = b.labels.size := by
  cases hr : b.region <;> simp [CodeBuffer.branchTo, CodeBuffer.emit, hr]

theorem run_branchToOutcomes (others : List (Cond × BitVec 4)) : ∀ {e : Emitter} {n : Nat},
    e.code.labels.size = n → (branchToOutcomes others).run.run e =
      (.ok (labelled n others), { e with code := branched e.code n others }) := by
  induction others with
  | nil => exact fun _ => rfl
  | cons outcome rest ih =>
    intro e n hn
    obtain ⟨cond, bits⟩ := outcome
    have hsize : (e.code.addLabel.branchTo (.branchIf cond 0) n).labels.size = n + 1 := by
      rw [size_labels_branchTo, size_labels_addLabel, hn]
    unfold branchToOutcomes
    rw [run_newLabel, hn]
    have hrest := ih (e := { e with code := e.code.addLabel.branchTo (.branchIf cond 0) n }) hsize
    exact (run_bind_ok (f := fun targets => pure ((n, bits) :: targets)) hrest).trans rfl

theorem branched_eq (base : Nat) (others : List (Cond × BitVec 4)) : ∀ (b : CodeBuffer) (k : Nat),
    branched b (base + (k + 1)) others = b.writeAll base (branchSteps others k) := by
  induction others with
  | nil => exact fun _ _ => rfl
  | cons outcome rest ih =>
    intro b k
    rw [branchSteps, List.zipIdx_cons, List.flatMap_cons, CodeBuffer.writeAll_append]
    exact ih _ (k + 1)

theorem run_placeOutcomes (field : HostReg) (status : Option HostReg) (base : Nat)
    (others : List (Cond × BitVec 4)) : ∀ (e : Emitter) (k : Nat),
    (placeOutcomes field status base (labelled (base + (k + 1)) others)).run.run e =
      (.ok (), { e with code := e.code.writeAll base (outcomeSteps field status others k) }) := by
  induction others with
  | nil => exact fun _ _ => rfl
  | cons outcome rest ih =>
    intro e k
    rw [outcomeSteps, List.zipIdx_cons, List.flatMap_cons, CodeBuffer.writeAll_append,
      CodeBuffer.writeAll_append, CodeBuffer.writeAll_append, CodeBuffer.writeAll_emit, labelled,
      placeOutcomes, run_placeLabel, run_emitAll]
    dsimp only
    rw [run_branchTo]
    exact ih _ (k + 1)

/-- From the first label on, the compare is written step by step. -/
theorem run_outcomes (field : HostReg) (status : Option HostReg) (same : Bool)
    (offset : BitVec 32) (rest : EmitM Unit) (e : Emitter) :
    (do
      let done ← newLabel
      let targets ← branchToOutcomes (otherOutcomes same)
      emitAll (outcomeCode field status Condition.eq)
      placeLabel done
      emitAll (storeStatus status offset)
      switchTo .far
      placeOutcomes field status done targets
      switchTo .near
      rest).run.run e = rest.run.run { e with
        code := e.code.writeAll e.code.labels.size (compareSteps field status same offset) } := by
  rw [run_newLabel, run_bind_ok (run_branchToOutcomes _ (size_labels_addLabel _))]
  dsimp only
  rw [branched_eq _ _ _ 0, run_emitAll, run_placeLabel]
  dsimp only
  rw [run_emitAll, run_switchTo]
  dsimp only
  rw [run_bind_ok (run_placeOutcomes _ _ _ _ _ 0), run_switchTo]
  dsimp only
  unfold compareSteps
  rw [CodeBuffer.writeAll_append, CodeBuffer.writeAll_append, CodeBuffer.writeAll_append,
    CodeBuffer.writeAll_append, CodeBuffer.writeAll_append, CodeBuffer.writeAll_append,
    CodeBuffer.writeAll_append, CodeBuffer.writeAll_emit, CodeBuffer.writeAll_emit]
  rfl

/-! ## Its runs -/

section Runs

variable {field : HostReg} {status : Option HostReg} {same : Bool} {offset : BitVec 32}
  {i fuel : Nat} {outcome : Cond × BitVec 4} {n : Machine}

theorem length_outcomeCode (field : HostReg) (status : Option HostReg) (bits : BitVec 4) :
    (outcomeCode field status bits).length = 1 + status.toList.length := by
  cases status <;> rfl

theorem size_comparePiece (field : HostReg) (status : Option HostReg) (same : Bool)
    (offset : BitVec 32) : (comparePiece field status same offset).size =
      (otherOutcomes same).length * (status.toList.length + 3) + 2 * status.toList.length + 1 := by
  cases status <;> cases same <;> rfl

theorem length_farOutcomes (field : HostReg) (status : Option HostReg)
    (others : List (Cond × BitVec 4)) :
    (others.flatMap fun o => outcomeCode field status o.2 ++ [Inst.branch 0]).length =
      others.length * (status.toList.length + 2) := by
  induction others with
  | nil => simp
  | cons outcome rest ih =>
    simp only [List.flatMap_cons, List.length_append, length_outcomeCode, ih, List.length_cons,
      List.length_nil, Nat.succ_mul]
    omega

/-- Where the code of an outcome is in the far part. -/
theorem comparePiece_far (field : HostReg) (status : Option HostReg) (offset : BitVec 32)
    (hi : (otherOutcomes same)[i]? = some outcome) : ∃ before after,
    (comparePiece field status same offset).far =
      before ++ (outcomeCode field status outcome.2 ++ Inst.branch 0 :: after) ∧
    before.length = i * (status.toList.length + 2) := by
  obtain ⟨hlt, hget⟩ := List.getElem?_eq_some_iff.1 hi
  refine ⟨((otherOutcomes same).take i).flatMap fun o =>
      outcomeCode field status o.2 ++ [Inst.branch 0],
    ((otherOutcomes same).drop (i + 1)).flatMap fun o =>
      outcomeCode field status o.2 ++ [Inst.branch 0], ?_, ?_⟩
  · have hsplit : otherOutcomes same =
        (otherOutcomes same).take i ++ outcome :: (otherOutcomes same).drop (i + 1) := by
      rw [← hget, List.getElem_cons_drop, List.take_append_drop]
    show (otherOutcomes same).flatMap _ = _
    conv => lhs; rw [hsplit]
    simp
  · rw [length_farOutcomes, List.length_take, Nat.min_eq_left (Nat.le_of_lt hlt)]

/-- The branches to an outcome and back. -/
theorem comparePiece_targets (field : HostReg) (status : Option HostReg) (offset : BitVec 32)
    (hi : (otherOutcomes same)[i]? = some outcome) :
    (comparePiece field status same offset).target? ⟨.near, i⟩ =
      some ⟨.far, i * (status.toList.length + 2)⟩ ∧
    (comparePiece field status same offset).target?
      ⟨.far, i * (status.toList.length + 2) + (1 + status.toList.length)⟩ =
        some ⟨.near, (otherOutcomes same).length + 1 + status.toList.length⟩ := by
  have hlt : i < (otherOutcomes same).length := (List.getElem?_eq_some_iff.1 hi).1
  cases same with
  | true =>
    obtain rfl : i = 0 := by simpa [otherOutcomes] using hlt
    cases status <;> exact ⟨rfl, rfl⟩
  | false =>
    obtain rfl | rfl | rfl : i = 0 ∨ i = 1 ∨ i = 2 := by
      simp only [otherOutcomes, Bool.false_eq_true, if_false, List.length_cons,
        List.length_nil] at hlt
      omega
    all_goals cases status <;> exact ⟨rfl, rfl⟩

theorem comparePiece_branch (hi : (otherOutcomes same)[i]? = some outcome) :
    (comparePiece field status same offset).inst? ⟨.near, i⟩ = some (.branchIf outcome.1 0) := by
  have hlt : i < (otherOutcomes same).length := (List.getElem?_eq_some_iff.1 hi).1
  have hget : (otherOutcomes same)[i] = outcome := (List.getElem?_eq_some_iff.1 hi).2
  simp [Piece.inst?, comparePiece, List.getElem?_append, hlt, hget]

/-- An outcome that is not the case is passed over. -/
theorem comparePiece_skip (hi : (otherOutcomes same)[i]? = some outcome)
    (hc : outcome.1.holds m.flags = false)
    (hrest : (comparePiece field status same offset).run fuel ⟨.near, i + 1⟩ m = some n) :
    (comparePiece field status same offset).run (fuel + 1) ⟨.near, i⟩ m = some n := by
  have hbranch : m.step (.branchIf outcome.1 0) = .next m := by
    simp only [Machine.step, hc, Bool.false_eq_true, if_false]
  rw [Piece.run_next (comparePiece_branch hi) hbranch]
  exact hrest

/-- An outcome that is the case is written by far code. -/
theorem comparePiece_take (hi : (otherOutcomes same)[i]? = some outcome)
    (hc : outcome.1.holds m.flags = true)
    (hexec : m.execAll (outcomeCode field status outcome.2) = some m')
    (hrest : (comparePiece field status same offset).run fuel
      ⟨.near, (otherOutcomes same).length + 1 + status.toList.length⟩ m' = some n) :
    (comparePiece field status same offset).run (status.toList.length + fuel + 3) ⟨.near, i⟩ m =
      some n := by
  obtain ⟨before, after, hfar, hlen⟩ := comparePiece_far field status offset hi
  obtain ⟨hto, hback⟩ := comparePiece_targets field status offset hi
  rw [← hlen] at hto hback
  rw [← length_outcomeCode field status outcome.2] at hback
  have hbranch : m.step (.branchIf outcome.1 0) = .jump 0 m := by
    simp only [Machine.step, hc, if_true]
  have hcode : ∀ j, j < (outcomeCode field status outcome.2).length →
      (comparePiece field status same offset).inst? ⟨.far, before.length + j⟩ =
        (outcomeCode field status outcome.2)[j]? := by
    intro j hj
    simp [Piece.inst?, hfar, List.getElem?_append, hj]
  have hlast : (comparePiece field status same offset).inst?
      ⟨.far, before.length + (outcomeCode field status outcome.2).length⟩ = some (.branch 0) := by
    simp [Piece.inst?, hfar]
  have hfuel : status.toList.length + fuel + 2 =
      (outcomeCode field status outcome.2).length + (fuel + 1) := by
    rw [length_outcomeCode]
    omega
  rw [Piece.run_jump (comparePiece_branch hi) hbranch hto, hfuel, Piece.run_execAll hcode hexec,
    Piece.run_jump hlast rfl hback]
  exact hrest

/-- The outcome "equal" is written by near code. -/
theorem comparePiece_equal
    (hexec : m.execAll (outcomeCode field status Condition.eq) = some m')
    (hrest : (comparePiece field status same offset).run fuel
      ⟨.near, (otherOutcomes same).length + 1 + status.toList.length⟩ m' = some n) :
    (comparePiece field status same offset).run (status.toList.length + fuel + 1)
      ⟨.near, (otherOutcomes same).length⟩ m = some n := by
  have hfuel : status.toList.length + fuel + 1 =
      (outcomeCode field status Condition.eq).length + fuel := by
    rw [length_outcomeCode]
    omega
  rw [hfuel, Piece.run_execAll _ hexec, length_outcomeCode, ← Nat.add_assoc]
  · exact hrest
  · intro j hj
    simp [Piece.inst?, comparePiece, List.getElem?_append, hj]

/-- All paths lead to the end of the code of "equal". -/
theorem comparePiece_run {order : Option Ordering} (hflags : m.flags = .ofComparison order)
    (hexec : m.execAll (outcomeCode field status (outcomeOf same order)) = some m')
    (hend : (comparePiece field status same offset).run status.toList.length
      ⟨.near, (otherOutcomes same).length + 1 + status.toList.length⟩ m' = some n) :
    (comparePiece field status same offset).run (comparePiece field status same offset).size
      ⟨.near, 0⟩ m = some n := by
  have hc : ∀ cond : Cond, cond.holds m.flags = cond.holds (.ofComparison order) := by
    rw [hflags]
    exact fun _ => rfl
  have hsize := size_comparePiece field status same offset
  cases same with
  | true =>
    simp only [otherOutcomes, if_true, List.length_cons, List.length_nil] at hsize
    have h₀ : (otherOutcomes true)[0]? = some (.vs, Condition.so) := rfl
    cases order with
    | none => exact Piece.run_of_le (comparePiece_take h₀ (hc .vs) hexec hend) (by omega)
    | some order =>
      have hc₀ : Cond.vs.holds m.flags = false := (hc .vs).trans (by cases order <;> rfl)
      exact Piece.run_of_le (comparePiece_skip h₀ hc₀ (comparePiece_equal hexec hend)) (by omega)
  | false =>
    simp only [otherOutcomes, Bool.false_eq_true, if_false, List.length_cons,
      List.length_nil] at hsize
    have h₀ : (otherOutcomes false)[0]? = some (.gt, Condition.gt) := rfl
    have h₁ : (otherOutcomes false)[1]? = some (.mi, Condition.lt) := rfl
    have h₂ : (otherOutcomes false)[2]? = some (.vs, Condition.so) := rfl
    cases order with
    | none =>
      have hrun := comparePiece_take h₂ (hc .vs) hexec hend
      exact Piece.run_of_le (comparePiece_skip h₀ (hc .gt) (comparePiece_skip h₁ (hc .mi) hrun))
        (by omega)
    | some order =>
      cases order with
      | lt =>
        have hrun := comparePiece_take h₁ (hc .mi) hexec hend
        exact Piece.run_of_le (comparePiece_skip h₀ (hc .gt) hrun) (by omega)
      | eq =>
        have hrun := comparePiece_skip h₂ (hc .vs) (comparePiece_equal hexec hend)
        exact Piece.run_of_le (comparePiece_skip h₀ (hc .gt) (comparePiece_skip h₁ (hc .mi) hrun))
          (by omega)
      | gt => exact Piece.run_of_le (comparePiece_take h₀ (hc .gt) hexec hend) (by omega)

theorem comparePiece_run_none {order : Option Ordering} (hflags : m.flags = .ofComparison order) :
    (comparePiece field none same offset).run (comparePiece field none same offset).size
        ⟨.near, 0⟩ m = some (m.setX field (Condition.encode (outcomeOf same order))) := by
  apply comparePiece_run hflags rfl
  cases same <;> exact Piece.run_end _ _ _

/-- The machine when an outcome has been written to both places. -/
def withOutcome (m : Machine) (field reg : HostReg) (bits : BitVec 4) : Machine :=
  let m := m.setX field (Condition.encode bits)
  m.setX reg (ofWord (m.getW reg ||| bits.setWidth 32 <<< Status.classShift))

theorem comparePiece_run_some {reg : HostReg} {order : Option Ordering}
    (hflags : m.flags = .ofComparison order)
    (h : (withOutcome m field reg (outcomeOf same order)).step
      (.store .word reg stateReg offset) = .next m') :
    (comparePiece field (some reg) same offset).run (comparePiece field (some reg) same offset).size
      ⟨.near, 0⟩ m = some m' := by
  have hinst : (comparePiece field (some reg) same offset).inst?
      ⟨.near, (otherOutcomes same).length + 2⟩ = some (.store .word reg stateReg offset) := by
    cases same <;> rfl
  have hend : (comparePiece field (some reg) same offset).run 0
      ⟨.near, (otherOutcomes same).length + 3⟩ m' = some m' := by
    cases same <;> exact Piece.run_end _ _ _
  exact comparePiece_run hflags rfl ((Piece.run_next hinst h).trans hend)

end Runs

/-! ## The status word -/

theorem step_loadStatus (s : Setting) (hon : m.state.On s.layout) (r : HostReg) :
    m.step (.load .word r stateReg s.layout.fpscr) =
      .next (m.setX r (ofWord (m.state.fetch .fpscr))) :=
  congrArg (fun read : Except Fault (BitVec 32) =>
      m.proceed (read.map fun value : BitVec 32 => m.setW r value))
    (Machine.readState_cell s.valid hon .fpscr)

theorem step_storeStatus (s : Setting) (hon : m.state.On s.layout) (r : HostReg) :
    m.step (.store .word r stateReg s.layout.fpscr) =
      .next { m with state := m.state.put .fpscr (m.getW r) } :=
  congrArg m.proceed (Machine.writeState_cell s.valid hon .fpscr _)

/-- A register of the instruction, if there is one. -/
def heldIf (temp : Option HostReg) : RegSet := temp.elim .empty RegSet.empty.insert

theorem Sim.scratchStatus_spec
    (h : Sim s ⟨⟨k + 1, .empty, .empty, hole⟩, .inGuestState, f⟩ c e m) (keep : Bool) :
    wp (scratchStatus keep) (fun status e' m' =>
      Sim s ⟨⟨k, heldIf status, .empty, hole⟩, .inGuestState, f⟩ c e' m' ∧ Keeps e m e' m' ∧
        status.isSome = keep ∧ ∀ r, status = some r →
          m'.getX r = ofWord (c.fpscr &&& ~~~Status.compareMask)) e m := by
  unfold scratchStatus
  split
  · next hkeep =>
    refine wp_bind h.scratch_spec ?_
    rintro temp e₁ m₁ ⟨h₁, hk₁, -, hown, hne⟩
    have hin : (RegSet.empty.insert temp).contains temp = true := RegSet.contains_insert_self _ _
    refine wp_get ?_
    rw [h₁.fixed.layout]
    refine wp_bind (h₁.emitHeld hin (step_loadStatus s h₁.ints.holds.on temp)) ?_
    rintro - e₂ m₂ ⟨h₂, hk₂, hv₂⟩
    rw [h₁.around.fpscr] at hv₂
    have hand : m₂.step (.imm32 .and temp temp (~~~Status.compareMask)) =
        .next (m₂.setX temp (ofWord (c.fpscr &&& ~~~Status.compareMask))) := by
      simp only [Machine.step, Machine.getW, Machine.setW, hv₂.val, low_ofWord, ImmOp.eval]
    refine wp_bind (h₂.emitHeld hin hand) ?_
    rintro - e₃ m₃ ⟨h₃, hk₃, hv₃⟩
    refine wp_pure ⟨h₃, ?_, hkeep.symm, ?_⟩
    · exact ⟨fun _ _ hb => hk₃.bound _ _ (hk₂.bound _ _ (hk₁.bound _ _ hb)),
        fun hx => hk₃.has (hne _ hx.owns) (hk₂.has (hne _ hx.owns) (hk₁.has hx)),
        fun _ _ hb => hk₃.boundV _ _ (hk₂.boundV _ _ (hk₁.boundV _ _ hb)),
        fun hx => hk₃.hasV (hk₂.hasV (hk₁.hasV hx))⟩
    · rintro _ ⟨⟩
      exact hv₃.val
  · next hkeep =>
    refine wp_pure ⟨h.weaken (Nat.le_succ k), .refl e m, ?_, by simp⟩
    simpa using hkeep

/-! ## The instruction -/

/-- The contents when the outcome of a compare has been written. -/
def Contents.withOutcome (c : Contents) (field : CrField) (keep : Bool) (bits : BitVec 4) :
    Contents :=
  (c.setFpscr (if keep then Status.withCompare c.fpscr bits else c.fpscr)).setCr field
    (Condition.encode bits)

/-- The outcome of a compare of the host. -/
def comparison (flush : Bool) (a b : Double) : Option Ordering :=
  Double.compare? (flushDouble flush a) (flushDouble flush b)

/-- The contents after a compare. -/
def Contents.compared (c : Contents) (s : Setting) : Contents :=
  c.withOutcome s.word.crfd (s.config.fprf && s.hints.wantsFprf)
    (outcomeOf (s.word.ra = s.word.rb)
      (comparison s.flush (lane (c.ps s.word.ra) 0) (lane (c.ps s.word.rb) 0)))

/-- What the code of the outcomes makes of the machine. -/
theorem Sim.outcome_run {field : CrField} {reg : HostReg} {status : Option HostReg}
    {order : Option Ordering}
    (h : Sim s ⟨⟨k, heldIf status, .empty, some (IntSlot.cr field)⟩, .inGuestState, f⟩ c e m)
    (same : Bool) (hflags : m.flags = .ofComparison order)
    (hb : e.integers.Bound (IntSlot.cr field) reg)
    (hstatus : ∀ r, status = some r → m.getX r = ofWord (c.fpscr &&& ~~~Status.compareMask)) :
    ∃ m', (comparePiece reg status same s.layout.fpscr).run
        (comparePiece reg status same s.layout.fpscr).size ⟨.near, 0⟩ m = some m' ∧
      Sim s ⟨⟨k, heldIf status, .empty, none⟩, .inGuestState, f⟩
        (c.withOutcome field status.isSome (outcomeOf same order)) e m' := by
  have hon : m.state.On s.layout := h.ints.holds.on
  have hz := h.ne_zeroReg hb.owns
  have hset := SameBut.setX m reg (Condition.encode (outcomeOf same order))
  have hreg : ∀ slot r, e.integers.binding slot = .host r →
      some (IntSlot.cr field) ≠ some slot → r ≠ reg := by
    rintro slot r hr hslot rfl
    exact hslot (congrArg some (h.ints.ready.owned.host_inj hb.1 hr))
  cases status with
  | none =>
    refine ⟨_, comparePiece_run_none hflags, ?_⟩
    have h' := h.of_machine (m.setX reg (Condition.encode (outcomeOf same order))) c.fpscr
      (fun slot r hr hslot => hset.x r (hreg slot r hr hslot)) (fun _ r _ _ => m.getV_setX reg r _)
      (hset.state ▸ hon) (by rw [hset.state]; exact h.around.fpscr)
      (fun cell _ => by rw [hset.state]) hset.stack hset.flush hset.interpreter
    exact h'.closeCr hb (m.getX_setX_self hz _)
  | some temp =>
    have hin : (RegSet.empty.insert temp).contains temp = true := RegSet.contains_insert_self _ _
    have hne : reg ≠ temp := h.bound_ne_held hb hin
    have htz := h.ne_zeroReg (h.owns_held hin)
    let n := Emit.withOutcome m reg temp (outcomeOf same order)
    have hsame : SameBut temp (m.setX reg (Condition.encode (outcomeOf same order))) n :=
      .setX _ _ _
    have hn : n.state = m.state := hsame.state.trans hset.state
    have hlow : n.getW temp = Status.withCompare c.fpscr (outcomeOf same order) := by
      have hold : (m.setX reg (Condition.encode (outcomeOf same order))).getX temp =
          ofWord (c.fpscr &&& ~~~Status.compareMask) :=
        (hset.x temp hne.symm).trans (hstatus temp rfl)
      have hval : n.getX temp = ofWord ((m.setX reg (Condition.encode
          (outcomeOf same order))).getW temp ||| (outcomeOf same order).setWidth 32 <<<
            Status.classShift) := Machine.getX_setX_self _ htz _
      rw [Machine.getW, hval, Machine.getW, hold, low_ofWord, low_ofWord]
      rfl
    have hstep := step_storeStatus (m := n) s (hn ▸ hon) temp
    rw [hlow] at hstep
    refine ⟨_, comparePiece_run_some hflags hstep, ?_⟩
    unfold Contents.withOutcome
    rw [Option.isSome_some, if_pos rfl]
    have hput : n.state.On s.layout := hn ▸ hon
    generalize Status.withCompare c.fpscr (outcomeOf same order) = word
    have h' := h.of_machine { n with state := n.state.put .fpscr word } word ?_ ?_
      (hput.put s.valid .fpscr _)
      (hput.fetch_put_self s.valid .fpscr _) ?_ (hsame.stack.trans hset.stack)
      (hsame.flush.trans hset.flush) (hsame.interpreter.trans hset.interpreter)
    · refine h'.closeCr hb ?_
      exact (hsame.x reg hne).trans (m.getX_setX_self hz _)
    · intro slot r hr hslot
      have hheld := h.ints.ready.owned.not_scratch hr
      rw [h.ints.ready.held] at hheld
      have hrt : r ≠ temp := by
        rintro rfl
        rw [heldIf, Option.elim, hin] at hheld
        simp at hheld
      exact (hsame.x r hrt).trans (hset.x r (hreg slot r hr hslot))
    · intro _ r _ _
      exact (congrArg (fun bank => Bank.get bank r) (hsame.v.trans hset.v))
    · intro cell hcell
      exact (hput.fetch_put_of_ne s.valid .fpscr _ hcell).trans (by rw [hn])

theorem Sim.releaseHeldIf_spec {status : Option HostReg}
    (h : Sim s ⟨⟨k, heldIf status, .empty, hole⟩, carry, f⟩ c e m) :
    wp (releaseHeld status) (fun _ e' m' =>
      Sim s ⟨⟨k, .empty, .empty, hole⟩, carry, f⟩ c e' m') e m := by
  cases status with
  | none => exact wp_pure h
  | some temp =>
    refine wp_mono (h.release_spec (RegSet.contains_empty _)) ?_
    rintro - e' m' ⟨h', -, -⟩
    exact h'.weaken (Nat.le_succ k)

theorem Sim.floatCompare_spec
    (h : Sim s ⟨s.idle, carry, ⟨⟨5, .empty, .empty, none⟩, p, pd⟩⟩ c e m) :
    wp floatCompare (fun _ => FloatEnds s p pd (c.compared s)) e m := by
  refine wp_bind h.flushCarry_spec ?_
  rintro - e₀ m₀ ⟨h₀, -⟩
  refine wp_get ?_
  dsimp only
  rw [h₀.fixed.word, h₀.fixed.config, h₀.fixed.hints, h₀.fixed.layout]
  refine wp_bind (h₀.readFpr_spec s.word.ra) ?_
  rintro a e₁ m₁ ⟨h₁, -, ha₁, -⟩
  refine wp_bind (h₁.readFpr_spec s.word.rb) ?_
  rintro b e₂ m₂ ⟨h₂, hk₂, hb₂, -⟩
  have hroom : 2 ≤ s.ints.beside .empty := Nat.le_trans (by omega) s.five_le_idle
  refine wp_bind ((h₂.weaken hroom).writeSlot_spec (IntSlot.cr s.word.crfd) false) ?_
  rintro field e₃ m₃ ⟨h₃, hk₃, hf₃, -⟩
  refine wp_bind (h₃.scratchStatus_spec (s.config.fprf && s.hints.wantsFprf)) ?_
  rintro status e₄ m₄ ⟨h₄, hk₄, hsome, hstatus⟩
  have ha₄ := hk₄.hasV (hk₃.hasV (hk₂.hasV ha₁))
  have hb₄ := hk₄.hasV (hk₃.hasV hb₂)
  obtain ⟨order, horder⟩ : ∃ order, order =
    comparison s.flush (lane (c.ps s.word.ra) 0) (lane (c.ps s.word.rb) 0) := ⟨_, rfl⟩
  have hcmp : m₄.step (.fcmp a (some b)) = .next { m₄ with flags := .ofComparison order } := by
    have hstep : m₄.step (.fcmp a (some b)) = .next { m₄ with
      flags := .ofComparison (comparison m₄.flush (m₄.getLane a 0) (m₄.getLane b 0)) } := rfl
    rw [hstep, h₄.around.flush, Machine.getLane, Machine.getLane, ha₄.val, hb₄.val, horder]
  refine wp_bind (h₄.emitCompare hcmp) ?_
  rintro - e₅ m₅ ⟨h₅, hk₅, hm₅⟩
  have hf₅ := hk₅.bound _ _ (hk₄.bound _ _ hf₃)
  have hflags : m₅.flags = .ofComparison order := by rw [hm₅]
  have hstatus₅ : ∀ r, status = some r →
      m₅.getX r = ofWord (c.fpscr &&& ~~~Status.compareMask) := by
    rw [hm₅]
    exact hstatus
  generalize hsame : decide (s.word.ra = s.word.rb) = same
  obtain ⟨m₆, hrun, h₆⟩ := h₅.outcome_run same hflags hf₅ hstatus₅
  refine wp_writes (comparePiece_writes field status same s.layout.fpscr)
    (comparePiece_ok field status same s.layout.fpscr) h₅.fixed.code
    (?_ : _ = (releaseHeld status : EmitM Unit).run.run _) hrun ?_
  · rw [← run_outcomes]
    cases status <;> rfl
  intro hcode
  refine wp_mono (h₆.with_buffer hcode).releaseHeldIf_spec ?_
  rintro - e₇ m₇ h₇
  have hc : c.compared s = c.withOutcome s.word.crfd status.isSome (outcomeOf same order) := by
    rw [Contents.compared, ← horder, hsome, hsame]
  rw [hc]
  exact ⟨_, _, h₇⟩

end Recompiler.Emit
