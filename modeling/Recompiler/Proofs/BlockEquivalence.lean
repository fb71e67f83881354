import Recompiler.Proofs.ReferenceRun

/-!
# Equivalences of blocks

Blocks of integer instructions do what the interpreter does. The choices of the compiler cannot be
told from what its blocks do, and neither can the places where code is cut into blocks.
-/

namespace Recompiler

open Alloc Arm Block Emit Ieee Lower PowerPC

/-! ## Runs of known words -/

namespace PowerPC.Word

theorem run_of_supports (units : Word → FloatUnit) (fprf : Bool) (state : State) {words : List Word}
    (h : ∀ word ∈ words, Interpreter.supports word = true) :
    ∃ final, Word.run units fprf state words = .ok final := by
  induction words generalizing state with
  | nil => exact ⟨state, rfl⟩
  | cons word words ih =>
    have hstep : ∃ after, word.step (units word) fprf state = .ok after := by
      obtain ⟨after, hafter⟩ :=
        Interpreter.step_of_supports ⟨fprf⟩ state (h word List.mem_cons_self)
      unfold Word.step
      unfold Interpreter.step at hafter
      cases hop : Op.decode word with
      | some op => exact ⟨_, rfl⟩
      | none =>
        rw [hop] at hafter
        exact ⟨after, hafter⟩
    obtain ⟨after, hafter⟩ := hstep
    obtain ⟨final, hfinal⟩ := ih after fun word hword => h word (List.mem_cons_of_mem _ hword)
    refine ⟨final, ?_⟩
    rw [Word.run, hafter]
    exact hfinal

/-- Words that give the same with either unit run the same. -/
theorem run_congr {units units' : Word → FloatUnit} {fprf : Bool} {words : List Word}
    (h : ∀ word ∈ words, ∀ state,
      word.step (units word) fprf state = word.step (units' word) fprf state) (state : State) :
    Word.run units fprf state words = Word.run units' fprf state words := by
  induction words generalizing state with
  | nil => rfl
  | cons word words ih =>
    rw [Word.run, Word.run, h word List.mem_cons_self state]
    cases word.step (units' word) fprf state with
    | error fault => rfl
    | ok after => exact ih (fun word hword => h word (List.mem_cons_of_mem _ hword)) after

end PowerPC.Word

namespace Block

/-! ## Compiled blocks -/

section

variable {config : Config} {layout : Layout} {compiler : Compiler}

/-- A compiled block whose hints are right ends where the run of its words ends. -/
theorem Compiler.compile_follows (hnew : Compiler.new config layout = .ok compiler)
    {words : List Word} {hints : Option (List Hints)} (hfit : HintsFit words hints) {state : State}
    (hon : state.On layout) (hbit : state.CarryIsBit) (flush : Bool)
    (hright : HintsRight (config.units flush) config.fprf state
      (words.zip (hints.getD (analyze words))) []) {final : State}
    (hrun : Word.run (config.units flush) config.fprf state words = .ok final) :
    ∃ block after, compiler.compile words hints = .ok block ∧
      (block.code.size ≤ Machine.stepLimit → block.run state flush ⟨config.fprf⟩ = (after, none)) ∧
      after.Agrees layout .all final ∧ after.CarryIsBit := by
  obtain ⟨haccepted, rfl⟩ := Compiler.new_eq_ok hnew
  obtain ⟨hwords, hcompile⟩ := hfit.compile_eq ⟨config, layout⟩
  rw [← hwords] at hrun
  let s : Setting := ⟨config, layout, haccepted, 0, {}, none, flush, ⟨config.fprf⟩⟩
  let m : Machine := { state, flush, interpreter := ⟨config.fprf⟩ }
  have hm : s.Hosts m := ⟨hon, rfl, rfl, rfl⟩
  obtain ⟨block, m', hblock, htakes, hagree, hbit'⟩ := s.block_of_run rfl hm hbit hright hrun
  refine ⟨block, m'.state, hcompile.trans hblock, ?_, hagree, hbit'⟩
  intro hlimit
  unfold CompiledBlock.run Machine.run
  rw [htakes _ hlimit]

/-- With the hints of the analysis a compiled block follows the run of its words. -/
theorem Compiler.compile_analyzed (hnew : Compiler.new config layout = .ok compiler)
    {words : List Word} {state : State} (hon : state.On layout) (hbit : state.CarryIsBit)
    (flush : Bool) {final : State}
    (hrun : Word.run (config.units flush) config.fprf state words = .ok final) :
    ∃ block after, compiler.compile words none = .ok block ∧
      (block.code.size ≤ Machine.stepLimit → block.run state flush ⟨config.fprf⟩ = (after, none)) ∧
      after.Agrees layout .all final ∧ after.CarryIsBit := by
  refine Compiler.compile_follows hnew (fun _ h => by simp at h) hon hbit flush ?_ hrun
  exact .analyze (Compiler.new_eq_ok hnew).1.layout_valid hon words

theorem size_of_compile {result : Except Fault CompiledBlock} {block : CompiledBlock} {limit : Nat}
    (h : result = .ok block)
    (hsize : result.toOption.any (fun block => decide (block.code.size ≤ limit)) = true) :
    block.code.size ≤ limit := by
  rw [h] at hsize
  simpa [Except.toOption] using hsize

/-! ## Integer blocks -/

/-- A block of integer instructions, and of words outside every family that the interpreter knows,
does what the interpreter does. -/
theorem integer_block_agrees (hnew : Compiler.new config layout = .ok compiler) (words : List Word)
    (hwords : ∀ word ∈ words, (∃ op, Op.decode word = some (.int op)) ∨
      Op.decode word = none ∧ Interpreter.supports word = true) {state : State}
    (hon : state.On layout) (hbit : state.CarryIsBit) (flush : Bool) :
    ∃ block expected, compiler.compile words none = .ok block ∧
      Interpreter.run ⟨config.fprf⟩ state words = .ok expected ∧
      (block.code.size ≤ Machine.stepLimit → ∃ after,
        block.run state flush ⟨config.fprf⟩ = (after, none) ∧ expected.differences after = []) := by
  have hsupports : ∀ word ∈ words, Interpreter.supports word = true := by
    intro word hword
    rcases hwords word hword with ⟨op, hop⟩ | ⟨-, hother⟩
    · simp [Interpreter.supports, hop]
    · exact hother
  obtain ⟨expected, hexpected⟩ :=
    Word.run_of_supports (config.units flush) config.fprf state hsupports
  obtain ⟨block, after, hblock, hrun, hagree, -⟩ :=
    Compiler.compile_analyzed hnew hon hbit flush hexpected
  refine ⟨block, expected, hblock, ?_, fun hlimit =>
    ⟨after, hrun hlimit, hagree.symm.differences_eq_nil⟩⟩
  -- no word of the block uses the floating-point unit
  rw [Interpreter.run_eq, ← hexpected]
  refine Word.run_congr ?_ state
  intro word hword g
  unfold Word.step
  rcases hwords word hword with ⟨op, hop⟩ | ⟨hop, -⟩
  · rw [hop]
    rfl
  · rw [hop]

/-- With five registers, `addc`, `adde.` and the word that reads the condition register do what the
interpreter does. -/
theorem carried_sums_agree : ∃ block expected after,
    Compiler.compile ⟨{ generalPool := some [0, 1, 2, 3, 4] }, .standard⟩
      [0x7C642814, 0x7CC73915, 0x7D000026] none = .ok block ∧
    Interpreter.run ⟨false⟩ (.zeroed .standard) [0x7C642814, 0x7CC73915, 0x7D000026] =
      .ok expected ∧
    block.run (.zeroed .standard) true ⟨false⟩ = (after, none) ∧
    expected.differences after = [] := by
  have hnew : Compiler.new { generalPool := some [0, 1, 2, 3, 4] } .standard =
      .ok ⟨{ generalPool := some [0, 1, 2, 3, 4] }, .standard⟩ := rfl
  have hwords : ∀ word ∈ [0x7C642814, 0x7CC73915, 0x7D000026],
      (∃ op, Op.decode word = some (.int op)) ∨
        Op.decode word = none ∧ Interpreter.supports word = true := by
    simp only [List.mem_cons, List.not_mem_nil, or_false, forall_eq_or_imp, forall_eq]
    exact ⟨.inl ⟨_, rfl⟩, .inl ⟨_, rfl⟩, .inr ⟨rfl, rfl⟩⟩
  obtain ⟨block, expected, hblock, hexpected, hrun⟩ := integer_block_agrees hnew _ hwords
    (State.On.zeroed Layout.valid_standard) (.zeroed Layout.valid_standard) true
  obtain ⟨after, hafter, hsame⟩ := hrun (size_of_compile hblock (by decide +kernel))
  exact ⟨block, expected, after, hblock, hexpected, hafter, hsame⟩

/-! ## Choices of the compiler -/

/-- Hints from the analysis, or hints that say nothing. -/
def hintChoice (words : List Word) (conservative : Bool) : Option (List Hints) :=
  if conservative then some (words.map fun _ => {}) else none

theorem hintsFit_hintChoice (words : List Word) (conservative : Bool) :
    HintsFit words (hintChoice words conservative) := by
  intro given hgiven
  cases conservative with
  | false => simp [hintChoice] at hgiven
  | true =>
    rw [hintChoice, if_pos rfl, Option.some.injEq] at hgiven
    rw [← hgiven, List.length_map]

theorem hintsRight_hintChoice (hv : layout.Valid) {state : State} (hon : state.On layout)
    (units : Word → FloatUnit) (fprf : Bool) (words : List Word) (conservative : Bool) :
    HintsRight units fprf state
      (words.zip ((hintChoice words conservative).getD (analyze words))) [] := by
  cases conservative with
  | false => exact .analyze hv hon words
  | true =>
    have hzip : words.zip (words.map fun _ => ({} : Hints)) = words.map fun word => (word, {}) := by
      induction words with
      | nil => rfl
      | cons word words ih => rw [List.map_cons, List.zip_cons_cons, ih, List.map_cons]
    rw [hintChoice, if_pos rfl, Option.getD_some, hzip]
    exact .default words []

/-- Which unit executes a word depends on what is left to the interpreter only. -/
theorem Config.units_congr {config' : Config}
    (hinteger : config'.integerDisabled = config.integerDisabled)
    (hfloat : config'.floatingPointDisabled = config.floatingPointDisabled) (flush : Bool) :
    config'.units flush = config.units flush := by
  have hdisabled : config'.disabled = config.disabled := by
    funext cls
    cases cls with
    | integer => exact hinteger
    | floatingPoint => exact hfloat
  have hdeferral : config'.deferral? = config.deferral? := by
    funext word
    unfold Config.deferral? Config.opDeferral?
    rw [hdisabled]
  funext word
  unfold Config.units Config.lowers
  rw [hdeferral]

/-- A word that is left to the interpreter only if it is known there is known there. -/
theorem supports_of_deferred {word : Word}
    (h : (config.deferral? word).isSome = true → Interpreter.supports word = true) :
    Interpreter.supports word = true := by
  cases hop : Op.decode word with
  | some op => simp [Interpreter.supports, hop]
  | none => exact h (by simp [Config.deferral?, hop])

/-- Pools, the place of the carry, and whether hints come from the analysis or say nothing make no
difference to what a block does. -/
theorem choices_make_no_difference {config' : Config} {compiler' : Compiler}
    (hnew : Compiler.new config layout = .ok compiler)
    (hnew' : Compiler.new config' layout = .ok compiler') (hfprf : config'.fprf = config.fprf)
    (hinteger : config'.integerDisabled = config.integerDisabled)
    (hfloat : config'.floatingPointDisabled = config.floatingPointDisabled) (words : List Word)
    (hwords : ∀ word ∈ words, (config.deferral? word).isSome = true →
      Interpreter.supports word = true) (conservative conservative' : Bool) {state : State}
    (hon : state.On layout) (hbit : state.CarryIsBit) (flush : Bool) :
    ∃ block block', compiler.compile words (hintChoice words conservative) = .ok block ∧
      compiler'.compile words (hintChoice words conservative') = .ok block' ∧
      (block.code.size ≤ Machine.stepLimit → block'.code.size ≤ Machine.stepLimit →
        ∃ after after', block.run state flush ⟨config.fprf⟩ = (after, none) ∧
          block'.run state flush ⟨config'.fprf⟩ = (after', none) ∧
          after.differences after' = []) := by
  have hv : layout.Valid := (Compiler.new_eq_ok hnew).1.layout_valid
  obtain ⟨final, hrun⟩ := Word.run_of_supports (config.units flush) config.fprf state
    fun word hword => supports_of_deferred (hwords word hword)
  have hrun' : Word.run (config'.units flush) config'.fprf state words = .ok final := by
    rw [Config.units_congr hinteger hfloat, hfprf]
    exact hrun
  obtain ⟨block, after, hblock, hafter, hagree, -⟩ := Compiler.compile_follows hnew
    (hintsFit_hintChoice words conservative) hon hbit flush
    (hintsRight_hintChoice hv hon _ _ words conservative) hrun
  obtain ⟨block', after', hblock', hafter', hagree', -⟩ := Compiler.compile_follows hnew'
    (hintsFit_hintChoice words conservative') hon hbit flush
    (hintsRight_hintChoice hv hon _ _ words conservative') hrun'
  refine ⟨block, block', hblock, hblock', fun hlimit hlimit' => ⟨after, after', hafter hlimit,
    hafter' hlimit', (hagree.trans hagree'.symm).differences_eq_nil⟩⟩

/-- A fused negated product and a sum with carry come out the same from twelve registers with the
carry in flags as from five without hints. -/
theorem fused_and_carried_make_no_difference : ∃ block block' after after',
    Compiler.compile ⟨{}, .standard⟩ [0x7C642814, 0xEC2418FE, 0x7CC73915] none = .ok block ∧
    Compiler.compile
      ⟨{ lazyCarry := false, generalPool := some [0, 1, 2, 3, 4] }, .standard⟩
      [0x7C642814, 0xEC2418FE, 0x7CC73915] (some [{}, {}, {}]) = .ok block' ∧
    block.run (.zeroed .standard) true ⟨false⟩ = (after, none) ∧
    block'.run (.zeroed .standard) true ⟨false⟩ = (after', none) ∧
    after.differences after' = [] := by
  have hnew : Compiler.new {} .standard = .ok ⟨{}, .standard⟩ := rfl
  have hnew' : Compiler.new { lazyCarry := false, generalPool := some [0, 1, 2, 3, 4] } .standard =
      .ok ⟨{ lazyCarry := false, generalPool := some [0, 1, 2, 3, 4] }, .standard⟩ := rfl
  have hwords : ∀ word ∈ [0x7C642814, 0xEC2418FE, 0x7CC73915],
      (Config.deferral? {} word).isSome = true → Interpreter.supports word = true := by
    simp only [List.mem_cons, List.not_mem_nil, or_false, forall_eq_or_imp, forall_eq]
    exact ⟨fun _ => rfl, fun _ => rfl, fun _ => rfl⟩
  obtain ⟨block, block', hblock, hblock', hrun⟩ := choices_make_no_difference hnew hnew' rfl rfl rfl
    _ hwords false true (State.On.zeroed Layout.valid_standard) (.zeroed Layout.valid_standard) true
  obtain ⟨after, after', hafter, hafter', hsame⟩ := hrun
    (size_of_compile hblock (by decide +kernel)) (size_of_compile hblock' (by decide +kernel))
  exact ⟨block, block', after, after', hblock, hblock', hafter, hafter', hsame⟩

/-! ## Cutting blocks -/

/-- Two blocks one after the other do what the block of all their words does. -/
theorem cut_makes_no_difference (hnew : Compiler.new config layout = .ok compiler)
    (first second : List Word)
    (hwords : ∀ word ∈ first ++ second, (config.deferral? word).isSome = true →
      Interpreter.supports word = true) {state : State} (hon : state.On layout)
    (hbit : state.CarryIsBit) (flush : Bool) :
    ∃ block block₁ block₂, compiler.compile (first ++ second) none = .ok block ∧
      compiler.compile first none = .ok block₁ ∧ compiler.compile second none = .ok block₂ ∧
      (block.code.size ≤ Machine.stepLimit → block₁.code.size ≤ Machine.stepLimit →
        block₂.code.size ≤ Machine.stepLimit → ∃ after mid after₂,
          block.run state flush ⟨config.fprf⟩ = (after, none) ∧
          block₁.run state flush ⟨config.fprf⟩ = (mid, none) ∧
          block₂.run mid flush ⟨config.fprf⟩ = (after₂, none) ∧ after.differences after₂ = []) := by
  have hv : layout.Valid := (Compiler.new_eq_ok hnew).1.layout_valid
  obtain ⟨final, hrun⟩ := Word.run_of_supports (config.units flush) config.fprf state
    fun word hword => supports_of_deferred (hwords word hword)
  obtain ⟨g, hfirst, hsecond⟩ := Word.run_append hrun
  obtain ⟨block, after, hblock, hafter, hagree, -⟩ :=
    Compiler.compile_analyzed hnew hon hbit flush hrun
  obtain ⟨block₁, mid, hblock₁, hmid, hagree₁, hbit₁⟩ :=
    Compiler.compile_analyzed hnew hon hbit flush hfirst
  -- the second block starts from what the first one left, which may differ in what is not seen
  have hstart : State.Agrees layout ((Wanted.scan second).1.under config.fprf) g mid :=
    hagree₁.symm.mono (fun _ => rfl) fun _ => rfl
  obtain ⟨final', hsecond', hfinal⟩ := hstart.run hv _ _ hsecond
  obtain ⟨block₂, after₂, hblock₂, hafter₂, hagree₂, -⟩ :=
    Compiler.compile_analyzed hnew hagree₁.left hbit₁ flush hsecond'
  refine ⟨block, block₁, block₂, hblock, hblock₁, hblock₂, fun hlimit hlimit₁ hlimit₂ =>
    ⟨after, mid, after₂, hafter hlimit, hmid hlimit₁, hafter₂ hlimit₂, ?_⟩⟩
  exact (hagree.trans (hfinal.trans hagree₂.symm)).differences_eq_nil

/-- A carry can be handed from one block to the next. -/
theorem carry_crosses_cut : ∃ block block₁ block₂ after mid after₂,
    Compiler.compile ⟨{}, .standard⟩ [0x7C642814, 0x7CC73915] none = .ok block ∧
    Compiler.compile ⟨{}, .standard⟩ [0x7C642814] none = .ok block₁ ∧
    Compiler.compile ⟨{}, .standard⟩ [0x7CC73915] none = .ok block₂ ∧
    block.run (.zeroed .standard) false ⟨false⟩ = (after, none) ∧
    block₁.run (.zeroed .standard) false ⟨false⟩ = (mid, none) ∧
    block₂.run mid false ⟨false⟩ = (after₂, none) ∧ after.differences after₂ = [] := by
  have hnew : Compiler.new {} .standard = .ok ⟨{}, .standard⟩ := rfl
  have hwords : ∀ word ∈ [0x7C642814] ++ [0x7CC73915],
      (Config.deferral? {} word).isSome = true → Interpreter.supports word = true := by
    simp only [List.cons_append, List.nil_append, List.mem_cons, List.not_mem_nil, or_false,
      forall_eq_or_imp, forall_eq]
    exact ⟨fun _ => rfl, fun _ => rfl⟩
  obtain ⟨block, block₁, block₂, hblock, hblock₁, hblock₂, hrun⟩ := cut_makes_no_difference hnew
    [0x7C642814] [0x7CC73915] hwords (State.On.zeroed Layout.valid_standard)
    (.zeroed Layout.valid_standard) false
  obtain ⟨after, mid, after₂, hruns⟩ := hrun (size_of_compile hblock (by decide +kernel))
    (size_of_compile hblock₁ (by decide +kernel)) (size_of_compile hblock₂ (by decide +kernel))
  exact ⟨block, block₁, block₂, after, mid, after₂, hblock, hblock₁, hblock₂, hruns⟩

end

end Block

end Recompiler
