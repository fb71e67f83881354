import Recompiler.Proofs.BlockRun

/-!
# Compiled code is well behaved

Compilation of any words with any hints succeeds. From any machine on the layout the code comes to
its exit within as many steps as it has instructions, or to the first word that the interpreter does
not know.
-/

namespace Recompiler

open Alloc Arm Block Emit Lower PowerPC

/-! ## Words that the interpreter knows -/

namespace PowerPC.Interpreter

/-- Words that the interpreter can execute: those of a family, and those that read the condition
register or the status word. -/
def supports (word : Word) : Bool :=
  (Op.decode word).isSome || (word.opcode = 31 && word.subop10 = 19) ||
    (word.opcode = 63 && word.subop10 = 583)

theorem step_of_supports (interpreter : Interpreter) (state : State) {word : Word}
    (h : supports word = true) : ∃ after, interpreter.step state word = .ok after := by
  unfold supports at h
  unfold step
  cases hop : Op.decode word with
  | some op => exact ⟨_, rfl⟩
  | none =>
    simp only [hop, Option.isSome_none, Bool.false_or, Bool.or_eq_true, Bool.and_eq_true,
      decide_eq_true_eq] at h
    unfold stepOther
    dsimp only
    split
    · exact ⟨_, rfl⟩
    · next hcr =>
      rw [if_pos (h.resolve_left hcr)]
      exact ⟨_, rfl⟩

theorem step_of_not_supports (interpreter : Interpreter) (state : State) {word : Word}
    (h : supports word = false) : interpreter.step state word = .error (.noInterpreter word) := by
  unfold supports at h
  unfold step
  cases hop : Op.decode word with
  | some op => simp [hop] at h
  | none =>
    simp only [hop, Option.isSome_none, Bool.false_or, Bool.or_eq_false_iff, Bool.and_eq_false_iff,
      decide_eq_false_iff_not] at h
    unfold stepOther
    dsimp only
    rw [if_neg (fun hcr => h.1.elim (· hcr.1) (· hcr.2)),
      if_neg (fun hfs => h.2.elim (· hfs.1) (· hfs.2))]

theorem decode_of_not_supports {word : Word} (h : supports word = false) :
    Op.decode word = none := by
  unfold supports at h
  cases hop : Op.decode word with
  | none => rfl
  | some op => simp [hop] at h

end PowerPC.Interpreter

/-! ## Runs of a block -/

namespace Emit

variable {s : Setting} {m : Machine}

theorem Setting.on_step (s : Setting) {state after : State} {word : Word} (hon : state.On s.layout)
    (h : s.interpreter.step state word = .ok after) : after.On s.layout := by
  rw [Interpreter.step_eq] at h
  exact hon.step s.valid h

/-- Words that the interpreter knows get the machine from one to the next. -/
theorem Invariant.supported (s : Setting) :
    Invariant s fun pairs _ _ => ∀ pair ∈ pairs, Interpreter.supports pair.1 = true where
  lowered hR _ _ _ _ _ pair hpair := hR pair (List.mem_cons_of_mem _ hpair)
  deferred := by
    intro word hints rest p c hR _ state hon _
    obtain ⟨after, hstep⟩ :=
      s.interpreter.step_of_supports state (hR (word, hints) List.mem_cons_self)
    exact ⟨after, hstep, s.on_step hon hstep, fun pair hpair =>
      hR pair (List.mem_cons_of_mem _ hpair)⟩

/-- The machine comes to the exit, or stops at the first word that the interpreter does not know. -/
theorem Setting.run_pairs (hm : s.Hosts m) (pairs : List (Word × Hints)) : ∃ block m',
    s.compiler.assemble (Compiler.compileWords pairs) = .ok block ∧
    ∀ fuel, block.code.size ≤ fuel → Machine.runFrom block.code fuel 0 m =
      (m', ((pairs.map (·.1)).find? fun word => !Interpreter.supports word).map
        .noInterpreter) := by
  rw [List.find?_map]
  cases hfind : pairs.find? ((fun word => !Interpreter.supports word) ∘ (·.1)) with
  | none =>
    have hall : ∀ pair ∈ pairs, Interpreter.supports pair.1 = true := by
      intro pair hpair
      simpa using List.find?_eq_none.1 hfind pair hpair
    obtain ⟨block, m', -, -, hblock, htakes, -⟩ := (Invariant.supported s).whole hm hall
    exact ⟨block, m', hblock, htakes⟩
  | some pair =>
    obtain ⟨hpair, left, right, rfl, hleft⟩ := List.find?_eq_some_iff_append.1 hfind
    obtain ⟨word, hints⟩ := pair
    have hword : Interpreter.supports word = false := by simpa using hpair
    have hall : ∀ pair ∈ left, Interpreter.supports pair.1 = true := by
      intro pair hmem
      simpa using hleft pair hmem
    have hlow : s.config.lowers word = none := by
      simp [Config.lowers, Interpreter.decode_of_not_supports hword]
    obtain ⟨e, m₁, carry, p, c, hrun₁, hruns, -, hboundary⟩ :=
      (Invariant.supported s).before hm hall ((word, hints) :: right)
    obtain ⟨e₂, m₂, hd⟩ := hboundary.defers word hints (Compiler.lookahead right)
    obtain ⟨e₃, hrun₃, hcode, hresume⟩ := hd.resume hlow
    obtain ⟨block, e₄, hrun₄, hfinish, hcontinues⟩ := (hresume m₂ hd.hosts).completes right
    rw [hcode] at hcontinues
    refine ⟨block, m₂, (s.assemble_eq (run_compileWords hrun₁ hrun₃ hrun₄)).trans hfinish, ?_⟩
    intro fuel hfuel
    obtain ⟨hinst, rest, hrun⟩ := hcontinues.runFrom hd.ok (hruns.trans hd.runs) hfuel
    have hfault : m₂.step (.interpret word) = .fault (.noInterpreter word) m₂ :=
      Machine.step_interpret_fault (m₂.interpreter.step_of_not_supports m₂.state hword)
    rw [hrun, Machine.runFrom, hinst]
    simp only [hfault]
    rfl

end Emit

/-! ## Compilation -/

namespace Block

theorem Compiler.new_eq_ok {config : Config} {layout : Layout} {compiler : Compiler}
    (h : Compiler.new config layout = .ok compiler) :
    Accepted config layout ∧ compiler = ⟨config, layout⟩ := by
  unfold Compiler.new at h
  split at h
  · simp at h
  · next hfault => exact ⟨hfault, (Except.ok.inj h).symm⟩

/-- The hints that a block is compiled with are as many as its words. -/
def HintsFit (words : List Word) (hints : Option (List Hints)) : Prop :=
  ∀ given, hints = some given → given.length = words.length

theorem HintsFit.compile_eq {words : List Word} {hints : Option (List Hints)}
    (h : HintsFit words hints) (compiler : Compiler) :
    (words.zip (hints.getD (analyze words))).map (·.1) = words ∧
      compiler.compile words hints =
        compiler.assemble (Compiler.compileWords (words.zip (hints.getD (analyze words)))) := by
  have hlength : (hints.getD (analyze words)).length = words.length := by
    cases hints with
    | none => exact length_analyze words
    | some given => exact h given rfl
  refine ⟨?_, ?_⟩
  · rw [List.map_fst_zip]
    exact Nat.le_of_eq hlength.symm
  · unfold Compiler.compile
    rw [if_neg (fun hne => hne hlength)]

/-- Compiled code takes at most one step for each of its instructions. It comes to its exit, with
nothing left on its stack, or stops at the first word that the interpreter does not know: no other
fault is possible, whatever the hints say and whatever the registers hold at the start. -/
theorem code_is_well_behaved {config : Config} {layout : Layout} {compiler : Compiler}
    (hnew : Compiler.new config layout = .ok compiler) (words : List Word)
    (hints : Option (List Hints)) (hfit : HintsFit words hints) {m : Machine}
    (hon : m.state.On layout) (hstack : m.stack = []) :
    ∃ block m', compiler.compile words hints = .ok block ∧
      Machine.runFrom block.code block.code.size 0 m =
        (m', (words.find? fun word => !Interpreter.supports word).map .noInterpreter) ∧
      (block.code.size ≤ Machine.stepLimit → m.run block.code =
        (m', (words.find? fun word => !Interpreter.supports word).map .noInterpreter)) := by
  obtain ⟨haccepted, rfl⟩ := Compiler.new_eq_ok hnew
  obtain ⟨hwords, hcompile⟩ := hfit.compile_eq ⟨config, layout⟩
  let s : Setting := ⟨config, layout, haccepted, 0, {}, none, m.flush, m.interpreter⟩
  obtain ⟨block, m', hblock, hrun⟩ := s.run_pairs (m := m) ⟨hon, hstack, rfl, rfl⟩
    (words.zip (hints.getD (analyze words)))
  rw [hwords] at hrun
  exact ⟨block, m', hcompile.trans hblock, hrun _ (Nat.le_refl _), hrun _⟩

/-- Hints that are wrong about every register do no harm to a sum, and a word of zeros stops the
code. -/
theorem word_of_zeros_stops_code : ∃ block m',
    Compiler.compile ⟨{}, .standard⟩ [0x7C632A14, 0, 0x7C632A14]
      (some [{ singles := 0xFFFFFFFF }, {}, {}]) = .ok block ∧
    Machine.runFrom block.code block.code.size 0 { state := .zeroed .standard } =
      (m', some (.noInterpreter 0)) := by
  have hfit : HintsFit [0x7C632A14, 0, 0x7C632A14] (some [{ singles := 0xFFFFFFFF }, {}, {}]) := by
    rintro _ ⟨⟩
    rfl
  have hnew : Compiler.new {} .standard = .ok ⟨{}, .standard⟩ := rfl
  have hon : ∀ state : State, state.On .standard → ({ state } : Machine).state.On .standard :=
    fun _ h => h
  have hzeroed := hon _ (State.On.zeroed Layout.valid_standard)
  obtain ⟨block, m', hcompile, hrun, -⟩ := code_is_well_behaved hnew _ _ hfit hzeroed rfl
  exact ⟨block, m', hcompile, hrun⟩

end Block

end Recompiler
