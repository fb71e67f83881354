import Recompiler.Proofs.BlockSafety

/-!
# What a block computes

A block computes what its words do one after the other, with the floating-point unit of the host for
words that are lowered and that of the guest for words that are left to the interpreter. This run
does not depend on pools, on where the carry is kept, nor on hints, as long as the hints are right
about it.
-/

namespace Recompiler

open Alloc Arm Block Emit Ieee Lower PowerPC

/-! ## Precisions along a run -/

section Precisions

variable {P : Double → Prop} {p : Bank 32 Precision} {ps : GuestReg → BitVec 128}

theorem SoundFor.of_mask (h : SoundFor P p ps) {mask : BitVec 32} (hmask : MaskHolds P mask ps) :
    SoundFor P (seeded p mask) ps := by
  intro reg
  rw [get_seeded]
  split
  · next hbit => exact .of_both (hmask reg hbit) _
  · exact h reg

theorem SoundFor.double (P : Double → Prop) (ps : GuestReg → BitVec 128) :
    SoundFor P (.replicate 32 .double) ps := by
  intro reg
  rw [Bank.get_replicate]
  exact .double P _

/-- A floating-point instruction changes the precision of its destination. -/
theorem get_committed_floatPending (p : Bank 32 Precision) (word : Word) (op : FloatOp)
    (reg : GuestReg) : (committed p (floatPending p (.replicate 32 none) word op)).get reg =
      if reg = word.rd then precisionAfter p word op else p.get reg := by
  have hpending : (floatPending p (.replicate 32 none) word op).get reg =
      if reg = word.rd then resultPrecision p word op else none := by
    unfold floatPending
    split
    · next hsome =>
      rw [Bank.get_set, Bank.get_replicate, hsome]
    · next hnone =>
      rw [Bank.get_replicate, hnone, ite_self]
  rw [get_committed, hpending]
  by_cases hd : reg = word.rd
  · subst hd
    rw [if_pos rfl, if_pos rfl, precisionAfter]
  · rw [if_neg hd, if_neg hd, Option.getD_none]

/-- The precisions after a lowered word are right about what it does. -/
theorem SoundFor.of_word (hP : Lanewise P) {layout : Layout} (hv : layout.Valid)
    {config : Config} {word : Word} {op : Op} (hop : config.lowers word = some op) {hints : Hints}
    {g : State} (hon : g.On layout) (h : SoundFor P (seeded p hints.singles) fun reg => g.ps reg)
    (unit : FloatUnit) (fprf : Bool) : SoundFor P (wordPrecisions config word hints p) fun reg =>
      (word.stepOp unit fprf g op).ps reg := by
  intro reg
  unfold Recompiler.wordPrecisions
  rw [hop]
  dsimp only
  cases op with
  | int op =>
    have hps : (word.stepOp unit fprf g (.int op)).ps reg = g.ps reg :=
      hon.ps_stepInteger hv word op reg
    rw [hps, get_committed, opPending, Bank.get_replicate]
    exact h reg
  | float op =>
    rw [opPending, get_committed_floatPending]
    by_cases hd : reg = word.rd
    · subst hd
      rw [if_pos rfl, hon.ps_stepFloat hv]
      exact precisionAfter_sound hP h unit word op
    · rw [if_neg hd, hon.ps_stepFloat_of_ne hv unit fprf word op hd]
      exact h reg

end Precisions

/-! ## Runs word by word -/

/-- The unit that executes a word in a block. -/
def Block.Config.units (config : Config) (flush : Bool) (word : Word) : FloatUnit :=
  if (config.lowers word).isSome then .host flush else .guest

/-- What hints say is right about the words to come and about the state. -/
structure Block.Hints.Right (hints : Hints) (wanted : Wanted) (g : State) : Prop where
  ca : wanted.ca = true → hints.wantsCa = true
  fprf : wanted.fprf = true → hints.wantsFprf = true
  known : Known (fun x => Double.isExactSingle x = true) ⟨hints.singles, hints.storeSafe⟩ g

/-- The hints of words are right about a run of them, when other words follow. -/
def HintsRight (units : Word → FloatUnit) (fprf : Bool) (start : State)
    (pairs : List (Word × Hints)) (tail : List Word) : Prop :=
  ∀ left word hints right g, pairs = left ++ (word, hints) :: right →
    Word.run units fprf start (left.map (·.1)) = .ok g →
      hints.Right (Wanted.scan (right.map (·.1) ++ tail)).1 g

/-- Contents follow a run of the words before `rest`. -/
def Followed (layout : Layout) (units : Word → FloatUnit) (fprf : Bool) (start : State)
    (pairs : List (Word × Hints)) (tail : List Word) (rest : List (Word × Hints))
    (p : Bank 32 Precision) (c : Contents) : Prop :=
  ∃ left g, pairs = left ++ rest ∧ Word.run units fprf start (left.map (·.1)) = .ok g ∧
    c.Tracks layout ((Wanted.scan (rest.map (·.1) ++ tail)).1.under fprf) g ∧
    SoundFor (fun x => Double.isExactSingle x = true) p fun reg => g.ps reg

theorem PowerPC.Word.run_concat {units : Word → FloatUnit} {fprf : Bool} {start g : State}
    {left : List Word} (h : Word.run units fprf start left = .ok g) (word : Word) :
    Word.run units fprf start (left ++ [word]) = word.step (units word) fprf g := by
  induction left generalizing start with
  | nil =>
    cases h
    rw [List.nil_append, Word.run]
    cases word.step (units word) fprf g <;> rfl
  | cons first left ih =>
    rw [Word.run] at h
    rw [List.cons_append, Word.run]
    cases hstep : first.step (units first) fprf start with
    | error fault => simp [hstep] at h
    | ok next =>
      rw [hstep] at h
      exact ih h

/-- A run gets through each of its words. -/
theorem PowerPC.Word.step_of_run {units : Word → FloatUnit} {fprf : Bool} {start g final : State}
    {left right : List Word} {word : Word}
    (h : Word.run units fprf start (left ++ word :: right) = .ok final)
    (hleft : Word.run units fprf start left = .ok g) :
    ∃ after, word.step (units word) fprf g = .ok after := by
  obtain ⟨g', hg', hrest⟩ := Word.run_append h
  obtain rfl : g' = g := Except.ok.inj (hg'.symm.trans hleft)
  rw [Word.run] at hrest
  cases hstep : word.step (units word) fprf g' with
  | ok after => exact ⟨after, rfl⟩
  | error fault => simp [hstep] at hrest

/-- Memory that holds the contents agrees with what they stand for. -/
theorem Emit.Contents.Tracks.agrees {c : Contents} {layout : Layout} {w : Wanted} {g state : State}
    (h : c.Tracks layout w g) (hon : state.On layout)
    (hcells : ∀ cell, (cell = .xerCa → c.ca.isSome = true) → state.fetch cell = c.cell cell) :
    state.Agrees layout w g where
  left := hon
  right := h.on
  same cell := by
    by_cases hcell : cell = .xerCa → c.ca.isSome = true
    · rw [hcells cell hcell]
      exact h.same cell
    · push Not at hcell
      obtain ⟨rfl, hnone⟩ := hcell
      intro hw
      exact absurd (h.known hw) hnone

theorem Emit.Contents.ca_ofState_of_bit {state : State} (h : state.CarryIsBit) :
    (Contents.ofState state).ca.isSome = true := by
  unfold Contents.ofState
  dsimp only
  rcases h with hzero | hone
  · rw [if_pos hzero]
    rfl
  · have hne : state.fetch .xerCa ≠ 0#8 := by
      rw [hone]
      decide
    rw [if_neg hne, if_pos hone]
    rfl

/-- A carry of which something is known is a bit in memory. -/
theorem Emit.Contents.carryIsBit {c : Contents} {state : State} (h : c.ca.isSome = true)
    (hcells : ∀ cell, (cell = .xerCa → c.ca.isSome = true) → state.fetch cell = c.cell cell) :
    state.CarryIsBit := by
  obtain ⟨b, hb⟩ := Option.isSome_iff_exists.1 h
  have hbyte : state.fetch .xerCa = (BitVec.ofBool b).setWidth 8 := by
    rw [hcells .xerCa fun _ => h, Contents.cell, hb]
    rfl
  unfold State.CarryIsBit
  rw [hbyte]
  cases b with
  | false => exact .inl rfl
  | true => exact .inr rfl

/-- Memory whose carry byte is a bit, where the carry is wanted, stands for a state that it agrees
with. -/
theorem Emit.Contents.Tracks.ofState {layout : Layout} {w : Wanted} {g state : State}
    (h : state.Agrees layout w g) (hbit : w.ca = true → state.CarryIsBit) :
    (Contents.ofState state).Tracks layout w g where
  on := h.right
  same cell := by
    cases cell with
    | xerCa =>
      intro hw
      obtain ⟨b, hb⟩ := Option.isSome_iff_exists.1 (ca_ofState_of_bit (hbit hw))
      have hbyte : (Contents.ofState state).cell .xerCa = state.fetch .xerCa := by
        rw [Contents.ca_ofState hb, Contents.cell, hb]
        rfl
      rw [hbyte]
      exact h.same .xerCa hw
    | gpr reg => exact h.same (.gpr reg)
    | cr field => exact h.same (.cr field)
    | ps reg => exact h.same (.ps reg)
    | xerSoOv => exact h.same .xerSoOv
    | fpscr => exact h.same .fpscr
  known hw := ca_ofState_of_bit (hbit hw)

namespace Emit

variable {s : Setting}

/-- The contents between the words of a block follow the run of the words, if the hints are right
about it. -/
theorem Invariant.followed (s : Setting) (hfprf : s.interpreter.fprf = s.config.fprf)
    {start : State} {pairs : List (Word × Hints)} {tail : List Word}
    (hhints : HintsRight (s.config.units s.flush) s.config.fprf start pairs tail) {final : State}
    (hrun : Word.run (s.config.units s.flush) s.config.fprf start (pairs.map (·.1)) = .ok final) :
    Invariant s (Followed s.layout (s.config.units s.flush) s.config.fprf start pairs tail) where
  lowered := by
    intro word hints rest p c hR op hop next c' hafter
    obtain ⟨left, g, hsplit, hleft, htracks, hsound⟩ := hR
    obtain ⟨hdecode, hdefer⟩ := Config.lowers_eq_some hop
    have hright := hhints left word hints rest g hsplit hleft
    have hseeded := hsound.of_mask hright.known.single
    have hunit : s.config.units s.flush word = .host s.flush := by
      rw [Config.units, hop]
      rfl
    have hps : c.ps = fun reg : GuestReg => g.ps reg := funext htracks.ps
    have hbefore : c.Tracks s.layout
        (((Wanted.scan (rest.map (·.1) ++ tail)).1.before (some op)).under s.config.fprf) g := by
      rw [← hdecode]
      exact htracks
    have hshort : SoundFor Double.IsShort (seeded p hints.singles) c.ps := by
      rw [hps]
      exact fun reg => (hseeded reg).mono fun _ => Double.isShort_of_isExactSingle
    have hsafe : skipsRounding (seeded p hints.singles) hints word.rb = true →
        Double.roundToSingle (lane (c.ps word.rb) 0) = lane (c.ps word.rb) 0 := by
      intro hskip
      rw [skipsRounding, Bool.and_eq_true] at hskip
      rw [hps]
      exact (Double.isExactSingle_iff _).1 (hright.known.safe word.rb hskip.2).1
    refine ⟨left ++ [(word, hints)], word.stepOp (.host s.flush) s.config.fprf g op, ?_, ?_, ?_, ?_⟩
    · rw [hsplit, List.append_assoc]
      rfl
    · rw [List.map_append]
      refine (Word.run_concat hleft word).trans ?_
      rw [Word.step, hdecode, hunit]
    · exact Contents.Tracks.stepOp (s := s.reading word hints next) s.valid hbefore hafter hdecode
        hdefer hright.ca hright.fprf hshort hsafe
    · exact hseeded.of_word .exact s.valid hop htracks.on _ _
  deferred := by
    intro word hints rest p c hR hlow state hon hcells
    obtain ⟨left, g, hsplit, hleft, htracks, -⟩ := hR
    have hunit : s.config.units s.flush word = .guest := by
      rw [Config.units, hlow]
      rfl
    obtain ⟨after, hstep⟩ : ∃ after, word.step .guest s.config.fprf g = .ok after := by
      rw [hsplit, List.map_append, List.map_cons] at hrun
      rw [← hunit]
      exact Word.step_of_run hrun hleft
    have hagree := htracks.agrees hon hcells
    obtain ⟨after', hstep', hagree'⟩ := hagree.symm.step s.valid .guest s.config.fprf hstep
    have hinterpreter : s.interpreter.step state word = .ok after' := by
      rw [Interpreter.step_eq, hfprf]
      exact hstep'
    refine ⟨after', hinterpreter, hagree'.right, left ++ [(word, hints)], after, ?_, ?_, ?_,
      .double _ _⟩
    · rw [hsplit, List.append_assoc]
      rfl
    · rw [List.map_append]
      refine (Word.run_concat hleft word).trans ?_
      rw [hunit]
      exact hstep
    · refine .ofState hagree'.symm ?_
      intro hw
      refine .step s.valid hon hstep' ?_
      by_cases hwrites : ∃ op, Op.decode word = some op ∧ op.writesCa = true
      · exact .inr hwrites
      · left
        have hbefore :
            ((Wanted.scan (rest.map (·.1) ++ tail)).1.before (Op.decode word)).ca = true := by
          cases hop : Op.decode word with
          | none => rfl
          | some op =>
            have hkeeps : op.writesCa = false := by
              simpa [hop] using hwrites
            simpa [Wanted.before, Wanted.under, hkeeps] using hw
        exact Contents.carryIsBit (htracks.known hbefore) hcells

/-- A block whose hints are right ends where the run of its words ends. -/
theorem Setting.block_of_run (s : Setting) (hfprf : s.interpreter.fprf = s.config.fprf)
    {m : Machine} (hm : s.Hosts m) (hbit : m.state.CarryIsBit) {pairs : List (Word × Hints)}
    (hhints : HintsRight (s.config.units s.flush) s.config.fprf m.state pairs []) {final : State}
    (hrun : Word.run (s.config.units s.flush) s.config.fprf m.state (pairs.map (·.1)) = .ok final) :
    ∃ block m',
      s.compiler.assemble (Compiler.compileWords pairs) = .ok block ∧ block.Takes m m' ∧
      m'.state.Agrees s.layout .all final ∧ m'.state.CarryIsBit := by
  have hstart : Followed s.layout (s.config.units s.flush) s.config.fprf m.state pairs [] pairs
      (.replicate 32 .double) (.ofState m.state) :=
    ⟨[], m.state, rfl, rfl, .ofState (.refl hm.on _) fun _ => hbit, .double _ _⟩
  obtain ⟨block, m', p, c, hblock, htakes, ⟨left, g, hsplit, hg, htracks, -⟩, hm', hcells⟩ :=
    (Invariant.followed s hfprf hhints hrun).whole hm hstart
  obtain rfl : pairs = left := by simpa using hsplit
  obtain rfl : final = g := Except.ok.inj (hrun.symm.trans hg)
  exact ⟨block, m', hblock, htakes, htracks.agrees hm'.on hcells,
    Contents.carryIsBit (htracks.known rfl) hcells⟩

end Emit

/-! ## Hints that are right -/

section

variable {units : Word → FloatUnit} {fprf : Bool} {start : State}

theorem HintsRight.before {left right : List (Word × Hints)} {tail : List Word}
    (h : HintsRight units fprf start (left ++ right) tail) :
    HintsRight units fprf start left (right.map (·.1) ++ tail) := by
  intro before word hints after g hsplit hrun
  have hright :=
    h before word hints (after ++ right) g (by rw [hsplit, List.append_assoc]; rfl) hrun
  rw [List.map_append, List.append_assoc] at hright
  exact hright

/-- Hints that say nothing are right. -/
theorem HintsRight.default (words : List Word) (tail : List Word) :
    HintsRight units fprf start (words.map fun word => (word, {})) tail := by
  intro left word hints right g hsplit hrun
  have hmem : (word, hints) ∈ words.map fun word => (word, ({} : Hints)) := by
    rw [hsplit]
    simp
  obtain ⟨_, -, hpair⟩ := List.mem_map.1 hmem
  obtain rfl : {} = hints := (Prod.mk.inj hpair).2
  exact ⟨fun _ => rfl, fun _ => rfl, .none _ g⟩

/-- The hints of the analysis are right. -/
theorem HintsRight.analyze {layout : Layout} (hv : layout.Valid) (hon : start.On layout)
    (words : List Word) : HintsRight units fprf start (words.zip (analyze words)) [] := by
  intro left word hints right g hsplit hrun
  have hlength : words.length ≤ (Block.analyze words).length := by rw [length_analyze]
  have hwords : words = left.map (·.1) ++ word :: right.map (·.1) := by
    have hmap := congrArg (List.map (·.1)) hsplit
    rwa [List.map_fst_zip hlength, List.map_append, List.map_cons] at hmap
  have hlt : left.length < words.length := by
    rw [hwords, List.length_append, List.length_map, List.length_cons]
    omega
  have hpair : (words.zip (Block.analyze words))[left.length]? = some (word, hints) := by
    rw [hsplit, List.getElem?_append_right (Nat.le_refl _), Nat.sub_self]
    rfl
  have hhints := (List.getElem?_zip_eq_some.1 hpair).2
  have htake : words.take left.length = left.map (·.1) := by
    rw [hwords, List.take_append_of_le_length (by simp), List.take_of_length_le (by simp)]
  have hdrop : words.drop (left.length + 1) = right.map (·.1) := by
    rw [hwords, List.drop_append, List.drop_of_length_le (by simp)]
    simp
  rw [getElem?_analyze words left.length hlt, htake, hdrop, Option.some.injEq] at hhints
  subst hhints
  rw [List.append_nil]
  exact ⟨fun hw => hw, fun hw => hw, (Known.none _ start).run .exact hv units fprf hon hrun⟩

end

end Recompiler
