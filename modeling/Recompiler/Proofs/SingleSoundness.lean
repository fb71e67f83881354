import Recompiler.Proofs.DeferredState

/-!
# What is known to be single

The analysis and the precisions of the cache both say of registers that they hold exact singles.
Whatever they say about the operands of a word is true of the guest state before it.
-/

namespace Recompiler

open Alloc Arm Block Emit Ieee Lower PowerPC

/-- Precisions that are right about the state of the interpreter before the words of `rest`. -/
def Precise (fprf : Bool) (start : State) (pairs rest : List (Word × Hints))
    (p : Bank 32 Precision) : Prop :=
  ∃ left g, pairs = left ++ rest ∧
    Word.run (fun _ => .guest) fprf start (left.map (·.1)) = .ok g ∧
    SoundFor (fun x => Double.isExactSingle x = true) p fun reg => g.ps reg

namespace Emit

/-- The precisions between the words of a block are right about the interpreter. -/
theorem Invariant.precise (s : Setting) {fprf : Bool} {start : State} (hon : start.On s.layout)
    {pairs : List (Word × Hints)} {tail : List Word}
    (hhints : HintsRight (fun _ => .guest) fprf start pairs tail) {final : State}
    (hrun : Word.run (fun _ => .guest) fprf start (pairs.map (·.1)) = .ok final) :
    Invariant s fun rest p _ => Precise fprf start pairs rest p where
  lowered := by
    intro word hints rest p _ hR op hop next c' _
    obtain ⟨left, g, hsplit, hleft, hsound⟩ := hR
    obtain ⟨hdecode, -⟩ := Config.lowers_eq_some hop
    have hseeded := hsound.of_mask (hhints left word hints rest g hsplit hleft).known.single
    refine ⟨left ++ [(word, hints)], word.stepOp .guest fprf g op, ?_, ?_, ?_⟩
    · rw [hsplit, List.append_assoc]
      rfl
    · rw [List.map_append]
      refine (Word.run_concat hleft word).trans ?_
      rw [Word.step, hdecode]
    · exact hseeded.of_word .exact s.valid hop (hon.run s.valid hleft) _ _
  deferred := by
    intro word hints rest p _ hR _ state hstate _
    obtain ⟨left, g, hsplit, hleft, -⟩ := hR
    have hword : word ∈ pairs.map (·.1) := by
      rw [hsplit, List.map_append, List.map_cons]
      simp
    obtain ⟨after, hafter⟩ :=
      s.interpreter.step_of_supports state (Word.supports_of_run hrun word hword)
    refine ⟨after, hafter, s.on_step hstate hafter, ?_⟩
    rw [hsplit, List.map_append, List.map_cons] at hrun
    obtain ⟨next, hstep⟩ := Word.step_of_run hrun hleft
    refine ⟨left ++ [(word, hints)], next, ?_, ?_, .double _ _⟩
    · rw [hsplit, List.append_assoc]
      rfl
    · rw [List.map_append]
      exact (Word.run_concat hleft word).trans hstep

/-- While a word is compiled the cache calls no register single that it did not call so at first. -/
theorem Boundary.precision_compileWord {s : Setting} {carry : Carry} {p : Bank 32 Precision}
    {c : Contents} {e : Emitter} {m : Machine} (h : Boundary s carry p c e m) (word : Word)
    (hints : Hints) (next : Option NextInstruction) : ∃ e',
      (Compiler.compileWord word).run.run (e.reading word hints next) = (.ok (), e') ∧
      ∀ reg lowerOnly, e'.vectors.isSingle reg lowerOnly = true →
        (e.reading word hints next).vectors.isSingle reg lowerOnly = true := by
  cases hlow : s.config.lowers word with
  | none =>
    obtain ⟨e₁, m₁, hd⟩ := h.defers word hints next
    refine ⟨_, hd.run_compileWord hlow, ?_⟩
    intro reg lowerOnly hsingle
    have hdouble : (e₁.deferring word).vectors.precision = .replicate 32 .double := rfl
    rw [Vectors.isSingle, hdouble, Bank.get_replicate] at hsingle
    simp [Precision.isSingle] at hsingle
  | some op =>
    obtain ⟨⟨⟩, e₁, m₁, hbegin, -, h₁⟩ := h.begin_spec word hints next
    obtain rfl : e.reading word hints next = e₁ := (Prod.mk.inj hbegin).2
    obtain ⟨⟨⟩, e', m', hrun, -, c', k, kv, carry', -, h'⟩ := h₁.compileWord_spec hlow
    refine ⟨e', hrun, ?_⟩
    intro reg lowerOnly hsingle
    rw [Vectors.isSingle, h'.fixed.precision] at hsingle
    rw [Vectors.isSingle, h₁.fixed.precision]
    exact hsingle

end Emit

namespace Block

/-- What is known to be single is exactly single in the guest state before a word: the registers in
the masks of the analysis, and those that the cache calls single when the word is compiled. -/
theorem single_knowledge_is_sound {config : Config} {layout : Layout} {compiler : Compiler}
    (hnew : Compiler.new config layout = .ok compiler) (interpreter : Interpreter)
    {words : List Word} {state final : State} (hon : state.On layout)
    (hrun : interpreter.run state words = .ok final)
    {left right : List (Word × Hints)} {word : Word} {hints : Hints}
    (hsplit : words.zip (analyze words) = left ++ (word, hints) :: right) :
    ∃ guest e e', interpreter.run state (left.map (·.1)) = .ok guest ∧
      (∀ reg : GuestReg, (hints.singles.getLsbD reg || hints.storeSafe.getLsbD reg) = true →
        Double.isExactSingle (guest.ps0 reg) = true ∧ Double.isExactSingle (guest.ps1 reg) = true) ∧
      (emitUpTo left word hints right).run.run (.new config layout) = (.ok (), e) ∧
      (∀ reg : GuestReg, (e.vectors.isSingle reg true = true →
        Double.isExactSingle (guest.ps0 reg) = true) ∧
        (e.vectors.isSingle reg false = true → Double.isExactSingle (guest.ps0 reg) = true ∧
          Double.isExactSingle (guest.ps1 reg) = true)) ∧
      (Compiler.compileWord word).run.run e = (.ok (), e') ∧
      ∀ reg lowerOnly, e'.vectors.isSingle reg lowerOnly = true →
        e.vectors.isSingle reg lowerOnly = true := by
  obtain ⟨haccepted, -⟩ := Compiler.new_eq_ok hnew
  have hv := haccepted.layout_valid
  have hlength : words.length ≤ (analyze words).length := by rw [length_analyze]
  have hwords : words = left.map (·.1) ++ word :: right.map (·.1) := by
    have hmap := congrArg (List.map (·.1)) hsplit
    rwa [List.map_fst_zip hlength, List.map_append, List.map_cons] at hmap
  have hhints : HintsRight (fun _ => .guest) interpreter.fprf state
      (left ++ (word, hints) :: right) [] := hsplit ▸ .analyze hv hon words
  rw [Interpreter.run_eq, hwords] at hrun
  obtain ⟨guest, hguest, -⟩ := Word.run_append hrun
  have hright := hhints left word hints right guest rfl hguest
  let s : Setting := ⟨config, layout, haccepted, 0, {}, none, false, interpreter⟩
  let m : Machine := { state, flush := false, interpreter }
  have hm : s.Hosts m := ⟨hon, rfl, rfl, rfl⟩
  have hstart : Precise interpreter.fprf state left left (.replicate 32 .double) :=
    ⟨[], state, rfl, rfl, .double _ _⟩
  obtain ⟨e₀, m₀, carry, p, c, hrun₀, -, ⟨left', g, hleft, hg, hsound⟩, hboundary⟩ :=
    (Invariant.precise s hon hhints.before hguest).before hm hstart ((word, hints) :: right)
  obtain rfl : left = left' := by simpa using hleft
  obtain rfl : guest = g := Except.ok.inj (hguest.symm.trans hg)
  obtain ⟨e', hcompile, hkeeps⟩ :=
    hboundary.precision_compileWord word hints (Compiler.lookahead right)
  have hprecision : (e₀.reading word hints (Compiler.lookahead right)).vectors.precision =
      seeded p hints.singles :=
    congrArg (fun p => seeded p hints.singles) hboundary.fixed.precision
  have hseeded := hsound.of_mask hright.known.single
  refine ⟨guest, e₀.reading word hints (Compiler.lookahead right), e', ?_, ?_, ?_, ?_, hcompile,
    hkeeps⟩
  · rw [Interpreter.run_eq]
    exact hguest
  · intro reg hbit
    rcases Bool.or_eq_true_iff.1 hbit with hbit | hbit
    · exact hright.known.single reg hbit
    · exact hright.known.safe reg hbit
  · rw [emitUpTo, run_bind_ok hrun₀]
    rfl
  · intro reg
    unfold Vectors.isSingle
    rw [hprecision]
    refine ⟨(hseeded reg).lower, fun hboth => ⟨(hseeded reg).lower ?_, (hseeded reg).upper hboth⟩⟩
    exact Precision.isSingle_true_of_false hboth

/-- After `frsp` the cache calls the destination single in both lanes, which it is. -/
theorem rounded_is_known_single : ∃ guest e,
    Interpreter.run ⟨false⟩ (.zeroed .standard) [0xFC200818] = .ok guest ∧
    (emitUpTo [(0xFC200818, { wantsFprf := false })] 0xEC21082A { singles := 2, storeSafe := 2 }
      []).run.run (.new {} .standard) = (.ok (), e) ∧
    e.vectors.isSingle 1 false = true ∧
    Double.isExactSingle (guest.ps0 1) = true ∧ Double.isExactSingle (guest.ps1 1) = true := by
  have hnew : Compiler.new {} .standard = .ok ⟨{}, .standard⟩ := rfl
  have hsupports : ∀ word ∈ [0xFC200818, 0xEC21082A], Interpreter.supports word = true := by
    simp only [List.mem_cons, List.not_mem_nil, or_false, forall_eq_or_imp, forall_eq]
    exact ⟨rfl, rfl⟩
  obtain ⟨final, hfinal⟩ :=
    Word.run_of_supports (fun _ => .guest) false (.zeroed .standard) hsupports
  rw [← Interpreter.run_eq ⟨false⟩] at hfinal
  have hsplit : List.zip [(0xFC200818 : Word), 0xEC21082A] (analyze [0xFC200818, 0xEC21082A]) =
      [(0xFC200818, ({ wantsFprf := false } : Hints))] ++
        (0xEC21082A, ({ singles := 2, storeSafe := 2 } : Hints)) :: [] := rfl
  obtain ⟨guest, e, -, hguest, -, hemit, hsingle, -⟩ := single_knowledge_is_sound hnew ⟨false⟩
    (.zeroed Layout.valid_standard) hfinal hsplit
  have hknown : ((emitUpTo [(0xFC200818, { wantsFprf := false })] 0xEC21082A
      { singles := 2, storeSafe := 2 } []).run.run (.new {} .standard)).2.vectors.isSingle 1 false =
        true := by decide +kernel
  rw [hemit] at hknown
  exact ⟨guest, e, hguest, hemit, hknown, (hsingle 1).2 hknown⟩

end Block

end Recompiler
