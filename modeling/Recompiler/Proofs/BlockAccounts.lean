import Recompiler.Proofs.BlockSafety
import Recompiler.Proofs.LoweringCode

/-!
# What a block amounts to

The statistics of a block and the calls in its code, against the words it was compiled from. The
ledger of an emitter collects what they are read off. Lowering leaves the ledger as it is, so each
word enters it once, when it is counted as lowered or left to the interpreter.
-/

namespace Recompiler

open Alloc Arm Block Emit Lower PowerPC

namespace Arm.Inst

/-- Whether the instruction leaves the code of the block. -/
def leaves : Inst → Bool
  | .interpret _ | .exit => true
  | _ => false

/-- Whether the instruction calls a support routine. -/
def isCall : Inst → Bool
  | .call _ => true
  | _ => false

/-- The word that the instruction hands to the interpreter. -/
def interpreted? : Inst → Option Word
  | .interpret word => some word
  | _ => none

variable {i i' : Inst} {offset : Int}

theorem leaves_of_plain (h : i.plain = true) : i.leaves = false := by
  cases i <;> first | rfl | cases h

theorem isCall_of_plain (h : i.plain = true) : i.isCall = false := by
  cases i <;> first | rfl | cases h

theorem plain_of_isBranch (h : i.isBranch = true) : i.plain = true := by
  cases i <;> first | rfl | cases h

theorem isBranch_of_withOffset (h : i.withOffset? offset = some i') :
    i.isBranch = true ∧ i'.isBranch = true := by
  cases i <;> cases h <;> exact ⟨rfl, rfl⟩

end Arm.Inst

namespace Block

/-- The code and the statistics of a block account for its words. -/
structure CompiledBlock.Accounts (block : CompiledBlock) (config : Config) (words : List Word) :
    Prop where
  /-- The interpreter is called for the deferred words, in order. -/
  interpreted : block.code.toList.filterMap Inst.interpreted? =
    words.filter fun word => (config.deferral? word).isSome
  /-- There is one exit, and all those calls come before it. -/
  exit : ∃ before after, block.code.toList = before ++ .exit :: after ∧ .exit ∉ before ∧
    .exit ∉ after ∧ after.filterMap Inst.interpreted? = []
  guestCount : block.stats.guestCount = words.length
  deferred : block.stats.deferred = (block.code.toList.filterMap Inst.interpreted?).length
  total : block.stats.lowered + block.stats.deferred = block.stats.guestCount
  helperCalls : block.stats.helperCalls = block.code.toList.countP Inst.isCall
  hostInstructions : block.stats.hostInstructions = block.code.size

theorem interpreted_filter_leaves (code : List Inst) :
    (code.filter Inst.leaves).filterMap Inst.interpreted? = code.filterMap Inst.interpreted? := by
  rw [List.filterMap_filter]
  congr 1
  funext i
  cases i <;> rfl

theorem interpreted_map (words : List Word) :
    (words.map Inst.interpret).filterMap Inst.interpreted? = words := by
  rw [List.filterMap_map]
  exact List.filterMap_some

/-- Code with one exit at the end of what leaves it. -/
theorem exit_of_leaves {code : List Inst} {words : List Word}
    (h : code.filter Inst.leaves = words.map .interpret ++ [.exit]) :
    ∃ before after, code = before ++ .exit :: after ∧ .exit ∉ before ∧ .exit ∉ after ∧
      after.filterMap Inst.interpreted? = [] := by
  obtain ⟨left, right, rfl, hleft, hright⟩ := List.filter_eq_append_iff.1 h
  obtain ⟨middle, after, rfl, hmiddle, -, hafter⟩ := List.filter_eq_cons_iff.1 hright
  refine ⟨left ++ middle, after, (List.append_assoc ..).symm, ?_, ?_, ?_⟩
  · intro hmem
    rcases List.mem_append.1 hmem with hmem | hmem
    · have hexit : Inst.exit ∈ left.filter Inst.leaves := List.mem_filter.2 ⟨hmem, rfl⟩
      rw [hleft] at hexit
      obtain ⟨word, -, hword⟩ := List.mem_map.1 hexit
      cases hword
    · exact hmiddle _ hmem rfl
  · intro hmem
    have hexit : Inst.exit ∈ after.filter Inst.leaves := List.mem_filter.2 ⟨hmem, rfl⟩
    rw [hafter] at hexit
    cases hexit
  · rw [← interpreted_filter_leaves, hafter]
    rfl

end Block

namespace Emit

variable {e e' : Emitter}

/-! ## Finished code -/

section

variable {b : CodeBuffer} {code code' : Array Inst} {α : Type} {f : Inst → α}

/-- Filling in a branch changes nothing that is the same for all branches. -/
theorem CodeBuffer.map_resolve
    (hf : ∀ {i i' : Inst}, i.isBranch = true → i'.isBranch = true → f i = f i') {fixup : Fixup}
    (h : b.resolve code fixup = .ok code') : code'.map f = code.map f := by
  unfold resolve at h
  split at h
  · cases h
  · dsimp only at h
    split at h
    · cases h
    · next inst hinst =>
      cases h
      obtain ⟨old, hold, hoffset⟩ := Option.bind_eq_some_iff.1 hinst
      obtain ⟨hi, hi'⟩ := Inst.isBranch_of_withOffset hoffset
      apply Array.ext_getElem?
      intro k
      by_cases hk : b.finalIndex fixup.branch = k
      · subst hk
        have hlt := (Array.getElem?_eq_some_iff.1 hold).1
        rw [Array.getElem?_map, Array.getElem?_map,
          Array.getElem?_setIfInBounds_self_of_lt hlt, hold]
        exact congrArg some (hf hi' hi)
      · rw [Array.getElem?_map, Array.getElem?_map, Array.getElem?_setIfInBounds_ne hk]

theorem CodeBuffer.map_finish
    (hf : ∀ {i i' : Inst}, i.isBranch = true → i'.isBranch = true → f i = f i')
    (h : b.finish = .ok code) : code.map f = (b.near ++ b.far).map f := by
  have hfold : ∀ (fixups : List Fixup) {start : Array Inst},
      fixups.foldlM b.resolve start = .ok code → code.map f = start.map f := by
    intro fixups
    induction fixups with
    | nil =>
      intro start hstart
      cases hstart
      rfl
    | cons fixup fixups ih =>
      intro start hstart
      rw [List.foldlM_cons] at hstart
      cases hr : b.resolve start fixup with
      | error fault =>
        rw [hr] at hstart
        cases hstart
      | ok next =>
        rw [hr] at hstart
        exact (ih hstart).trans (map_resolve hf hr)
  exact hfold b.fixups.toList h

/-- Finishing keeps the instructions that are no branches, in order. -/
theorem CodeBuffer.filter_finish {p : Inst → Bool}
    (hp : ∀ {i : Inst}, i.isBranch = true → p i = false)
    (h : b.finish = .ok code) :
    code.toList.filter p = b.near.toList.filter p ++ b.far.toList.filter p := by
  have hguard : ∀ {i : Inst}, i.isBranch = true → Option.guard p i = none := by
    intro i hi
    simp [Option.guard, hp hi]
  have hmap :
      (code.map (Option.guard p)).toList = ((b.near ++ b.far).map (Option.guard p)).toList :=
    congrArg Array.toList (map_finish (fun hi hi' => (hguard hi).trans (hguard hi').symm) h)
  have hfilter : ∀ l : List Inst, l.filter p = (l.map (Option.guard p)).filterMap id := by
    intro l
    rw [List.filterMap_map, ← List.filterMap_eq_filter]
    rfl
  rw [Array.toList_map, Array.toList_map, Array.toList_append] at hmap
  rw [hfilter, hmap, ← hfilter, List.filter_append]

end

/-! ## The ledger -/

/-- What the statistics and the code of an emitter say about its words. -/
structure Ledger where
  config : Config
  /-- The instructions in the near code that leave the block, in order. -/
  near : List Inst
  far : List Inst
  guestCount : Nat
  lowered : Nat
  deferred : Nat
  /-- The calls in the code beyond those counted. -/
  uncounted : Int

def Emitter.ledger (e : Emitter) : Ledger where
  config := e.config
  near := e.code.near.toList.filter Inst.leaves
  far := e.code.far.toList.filter Inst.leaves
  guestCount := e.stats.guestCount
  lowered := e.stats.lowered
  deferred := e.stats.deferred
  uncounted :=
    (e.code.near.toList.countP Inst.isCall + e.code.far.toList.countP Inst.isCall : Nat) -
      (e.stats.helperCalls : Int)

/-- The ledger when some words have been compiled. -/
def Ledger.of (config : Config) (words : List Word) : Ledger where
  config
  near := (words.filter fun word => (config.deferral? word).isSome).map .interpret
  far := []
  guestCount := words.length
  lowered := words.countP fun word => (config.deferral? word).isNone
  deferred := words.countP fun word => (config.deferral? word).isSome
  uncounted := 0

theorem Emitter.ledger_emit_plain {i : Inst} (h : i.plain = true) :
    Emitter.ledger { e with code := e.code.emit i } = e.ledger := by
  unfold CodeBuffer.emit Emitter.ledger
  have hl := Inst.leaves_of_plain h
  have hc := Inst.isCall_of_plain h
  cases e.code.region <;> simp [hl, hc]

/-- Code of lowered words does not show in the ledger. -/
theorem Emitter.Move.ledger_eq (h : e.Move Plain e') : e'.ledger = e.ledger := by
  cases h with
  | emit i hi => exact Emitter.ledger_emit_plain hi
  | branch i label hi =>
    let b : CodeBuffer := { e.code with fixups := e.code.fixups.push ⟨e.code.here, label⟩ }
    exact Emitter.ledger_emit_plain (e := { e with code := b }) (Inst.plain_of_isBranch hi)
  | call routine =>
    have hl : (Inst.call routine).leaves = false := rfl
    have hc : (Inst.call routine).isCall = true := rfl
    unfold CodeBuffer.emit Emitter.ledger
    cases e.code.region <;> simp [hl, hc] <;> omega
  | labels | carry | aside => rfl

theorem Emitter.Moves.ledger_eq (h : e.Moves Plain e') : e'.ledger = e.ledger := by
  induction h with
  | refl => rfl
  | tail _ hmove ih => exact hmove.ledger_eq.trans ih

theorem Emitter.ledger_reading (word : Word) (hints : Hints) (next : Option NextInstruction) :
    (e.reading word hints next).ledger =
      { e.ledger with guestCount := e.ledger.guestCount + 1 } := rfl

theorem Emitter.ledger_deferring (hregion : e.code.region = .near) (word : Word) :
    (e.deferring word).ledger =
      { e.ledger with
        near := e.ledger.near ++ [.interpret word], deferred := e.ledger.deferred + 1 } := by
  have hl : (Inst.interpret word).leaves = true := rfl
  have hc : (Inst.interpret word).isCall = false := rfl
  simp [ledger, deferring, CodeBuffer.emit, hregion, hl, hc]

section

variable {config : Config} {words : List Word} {word : Word}

theorem Ledger.of_deferred (h : (config.deferral? word).isSome = true) :
    Ledger.of config (words ++ [word]) =
      { Ledger.of config words with
        near := (Ledger.of config words).near ++ [.interpret word]
        guestCount := (Ledger.of config words).guestCount + 1
        deferred := (Ledger.of config words).deferred + 1 } := by
  obtain ⟨reason, hreason⟩ := Option.isSome_iff_exists.1 h
  simp [Ledger.of, hreason]

theorem Ledger.of_lowered (h : (config.deferral? word).isSome = false) :
    Ledger.of config (words ++ [word]) =
      { Ledger.of config words with
        guestCount := (Ledger.of config words).guestCount + 1
        lowered := (Ledger.of config words).lowered + 1 } := by
  have hnone := Option.isSome_eq_false_iff.1 h
  simp [Ledger.of, hnone]

end

/-! ## Words -/

variable {s : Setting} {carry : Carry} {p : Bank 32 Precision} {c : Contents} {m : Machine}
  {words : List Word}

theorem compileWord_of_lowered {word : Word} {op : Op} (hlow : e.config.lowers word = some op) :
    (Compiler.compileWord word).run.run e =
      (do
        lower op
        modify fun e => { e with stats := { e.stats with lowered := e.stats.lowered + 1 } } :
          EmitM Unit).run.run e := by
  obtain ⟨hdecode, hdefer⟩ := Config.lowers_eq_some hlow
  unfold Compiler.compileWord
  rw [run_get_bind, Config.deferral?, hdecode]
  dsimp only
  rw [hdefer]

/-- The code of a word that is lowered. -/
theorem emitWord_of_lowered {word : Word} {hints : Hints} {next : Option NextInstruction} {op : Op}
    (hlow : e.config.lowers word = some op) :
    (emitWord word hints next).run.run e = (.ok (), e') ↔
      ∃ e₁, (lower op).run.run (e.reading word hints next) = (.ok (), e₁) ∧
        endInstruction.run.run
          { e₁ with stats := { e₁.stats with lowered := e₁.stats.lowered + 1 } } =
            (.ok (), e') := by
  have hreading : (e.reading word hints next).config.lowers word = some op := hlow
  unfold emitWord
  rw [run_beginInstruction]
  constructor
  · intro hrun
    obtain ⟨⟨⟩, e₂, hword, hend⟩ := run_bind_eq_ok hrun
    rw [compileWord_of_lowered hreading] at hword
    obtain ⟨⟨⟩, e₁, hcode, hcount⟩ := run_bind_eq_ok hword
    cases hcount
    exact ⟨e₁, hcode, hend⟩
  · rintro ⟨e₁, hcode, hend⟩
    have hword := (compileWord_of_lowered hreading).trans (run_bind_ok hcode)
    exact (run_bind_ok hword).trans hend

/-- Each word enters the ledger once. -/
theorem Boundary.ledger_word {word : Word} {hints : Hints} {next : Option NextInstruction}
    (h : Boundary s carry p c e m) (hledger : e.ledger = .of s.config words)
    (hrun : (emitWord word hints next).run.run e = (.ok (), e')) :
    e'.ledger = .of s.config (words ++ [word]) := by
  have hbegun : (e.reading word hints next).ledger =
      { Ledger.of s.config words with guestCount := words.length + 1 } := by
    rw [Emitter.ledger_reading, hledger]
    rfl
  cases hlow : s.config.lowers word with
  | some op =>
    have hlowered : (s.config.deferral? word).isSome = false := by
      rw [Bool.eq_false_iff]
      intro hdefer
      rw [Config.lowers_eq_none.2 hdefer] at hlow
      cases hlow
    have hconfig : e.config = s.config := h.fixed.config
    rw [← hconfig] at hlow
    obtain ⟨e₁, hcode, hend⟩ := (emitWord_of_lowered hlow).1 hrun
    rw [Ledger.of_lowered hlowered]
    calc e'.ledger
        = { e₁.ledger with lowered := e₁.ledger.lowered + 1 } :=
          (Emits.endInstruction.moves hend).ledger_eq
      _ = _ := by
          rw [(Emits.lower.moves hcode).ledger_eq, hbegun]
          rfl
  | none =>
    obtain ⟨e₁, m₁, hd⟩ := h.defers word hints next
    unfold emitWord at hrun
    rw [run_beginInstruction, run_bind_ok (hd.run_compileWord hlow)] at hrun
    rw [Ledger.of_deferred (Config.lowers_eq_none.1 hlow)]
    calc e'.ledger
        = (e₁.deferring word).ledger := (Emits.endInstruction.moves hrun).ledger_eq
      _ = _ := by
          rw [Emitter.ledger_deferring hd.ok.region, (Emits.flushAll.moves hd.flushed).ledger_eq,
            hbegun]
          rfl

theorem Boundary.ledger_words (h : Boundary s carry p c e m) (next pairs : List (Word × Hints))
    (hledger : e.ledger = .of s.config words) : ∃ e',
      (emitWords next pairs).run.run e = (.ok (), e') ∧
      e'.ledger = .of s.config (words ++ pairs.map (·.1)) ∧
      ∃ carry' p' c' m', Boundary s carry' p' c' e' m' := by
  have hstart : e.ledger = .of s.config (words ++ []) := by
    rw [hledger, List.append_nil]
  obtain ⟨e', hrun, -, hledger', h'⟩ := Boundary.emits_keeping
    (I := fun done e => e.ledger = .of s.config (words ++ done.map (·.1)))
    (fun h hledger hrun => by
      rw [List.map_append, ← List.append_assoc]
      exact h.ledger_word hledger hrun) next pairs [] h hstart
  exact ⟨e', hrun, hledger', h'⟩

/-! ## Blocks -/

section

variable {config : Config} {code : Array Inst}

theorem Emitter.leaves_of_finish (hledger : e.ledger = .of config words)
    (hregion : e.code.region = .near) (hfinish : (e.code.emit .exit).finish = .ok code) :
    code.toList.filter Inst.leaves =
      (words.filter fun word => (config.deferral? word).isSome).map .interpret ++ [.exit] := by
  have hnear : e.code.near.toList.filter Inst.leaves =
      (words.filter fun word => (config.deferral? word).isSome).map .interpret :=
    congrArg Ledger.near hledger
  have hfar : e.code.far.toList.filter Inst.leaves = [] := congrArg Ledger.far hledger
  have hbranch : ∀ {i : Inst}, i.isBranch = true → i.leaves = false :=
    fun hi => Inst.leaves_of_plain (Inst.plain_of_isBranch hi)
  rw [CodeBuffer.filter_finish hbranch hfinish, CodeBuffer.emit_near _ _ hregion]
  rw [Array.toList_push, List.filter_append, hnear, hfar, List.append_nil]
  rfl

theorem Emitter.calls_of_finish (hledger : e.ledger = .of config words)
    (hregion : e.code.region = .near) (hfinish : (e.code.emit .exit).finish = .ok code) :
    e.stats.helperCalls = code.toList.countP Inst.isCall := by
  have hcounted : ((e.code.near.toList.countP Inst.isCall + e.code.far.toList.countP Inst.isCall :
      Nat) : Int) - e.stats.helperCalls = 0 := congrArg Ledger.uncounted hledger
  have hbranch : ∀ {i : Inst}, i.isBranch = true → i.isCall = false :=
    fun hi => Inst.isCall_of_plain (Inst.plain_of_isBranch hi)
  have hexit : [Inst.exit].countP Inst.isCall = 0 := rfl
  calc e.stats.helperCalls
      = e.code.near.toList.countP Inst.isCall + e.code.far.toList.countP Inst.isCall := by omega
    _ = (e.code.emit .exit).near.toList.countP Inst.isCall +
          (e.code.emit .exit).far.toList.countP Inst.isCall := by
        rw [CodeBuffer.emit_near _ _ hregion, Array.toList_push, List.countP_append, hexit]
        rfl
    _ = code.toList.countP Inst.isCall := by
        simp only [List.countP_eq_length_filter]
        rw [CodeBuffer.filter_finish hbranch hfinish, List.length_append]

end

/-- Closing a block adds the exit and makes the final counts. -/
theorem Boundary.accounts (h : Boundary s carry p c e m) (hledger : e.ledger = .of s.config words) :
    ∃ block, Compiler.finish e = .ok block ∧ block.Accounts s.config words := by
  obtain ⟨⟨⟩, e₁, m₁, hrun, -, hsim, -⟩ := Sim.flushAll_spec h
  have hok : e₁.code.Ok := hsim.fixed.code
  obtain ⟨code, hfinish, -, -⟩ := (hok.emit .exit).finish
  have hclose : Compiler.closeBlock.run.run e =
      (.ok (), { e₁ with code := e₁.code.emit .exit }) := run_bind_ok hrun
  have hledger₁ : e₁.ledger = .of s.config words :=
    (Emits.flushAll.moves hrun).ledger_eq.trans hledger
  have hleaves := Emitter.leaves_of_finish hledger₁ hok.region hfinish
  have hinterpreted : code.toList.filterMap Inst.interpreted? =
      words.filter fun word => (s.config.deferral? word).isSome := by
    rw [← interpreted_filter_leaves, hleaves, List.filterMap_append, interpreted_map]
    exact List.append_nil _
  have hcount : e₁.stats.guestCount = words.length := congrArg Ledger.guestCount hledger₁
  have hlowered : e₁.stats.lowered = words.countP fun word => (s.config.deferral? word).isNone :=
    congrArg Ledger.lowered hledger₁
  have hdeferred : e₁.stats.deferred = words.countP fun word => (s.config.deferral? word).isSome :=
    congrArg Ledger.deferred hledger₁
  refine ⟨⟨code, { e₁.stats with
      spills := e₁.integers.spills + e₁.vectors.cache.spills
      hostInstructions := code.size }⟩, ?_, ?_⟩
  · unfold Compiler.finish
    rw [hclose]
    unfold Compiler.collected
    simp only [hfinish]
  · refine ⟨hinterpreted, exit_of_leaves hleaves, hcount, ?_, ?_,
      Emitter.calls_of_finish hledger₁ hok.region hfinish, rfl⟩
    · dsimp only
      rw [hinterpreted, hdeferred, List.countP_eq_length_filter]
    · dsimp only
      rw [hlowered, hdeferred, hcount]
      have hsplit := words.length_eq_countP_add_countP fun word => (s.config.deferral? word).isSome
      simp only [Bool.not_eq_true, Option.isSome_eq_false_iff, Bool.decide_eq_true] at hsplit
      omega

end Emit

namespace Block

/-- A block calls the interpreter for exactly the deferred words and in their order, before its only
exit, and its statistics count its words and its instructions. -/
theorem deferrals_and_statistics_are_exact {config : Config} {layout : Layout} {compiler : Compiler}
    (hnew : Compiler.new config layout = .ok compiler) (words : List Word)
    (hints : Option (List Hints)) (hfit : HintsFit words hints) :
    ∃ block, compiler.compile words hints = .ok block ∧ block.Accounts config words := by
  obtain ⟨haccepted, rfl⟩ := Compiler.new_eq_ok hnew
  obtain ⟨hwords, hcompile⟩ := hfit.compile_eq ⟨config, layout⟩
  let m : Machine := { state := .zeros layout }
  let s : Setting := ⟨config, layout, haccepted, 0, {}, none, m.flush, m.interpreter⟩
  have hnone : (Emitter.new config layout).ledger = .of config [] := rfl
  have hstart := Boundary.start (s := s) (m := m) ⟨State.On.zeros layout, rfl, rfl, rfl⟩
  obtain ⟨e, hrun, hledger, carry, p, c, m', h⟩ :=
    hstart.ledger_words [] (words.zip (hints.getD (analyze words))) hnone
  rw [List.nil_append, hwords] at hledger
  rw [← compileWords_eq] at hrun
  obtain ⟨block, hblock, haccounts⟩ := h.accounts hledger
  exact ⟨block, hcompile.trans ((s.assemble_eq hrun).trans hblock), haccounts⟩

/-- A word of zeros and a sum that notes its overflow are left to the interpreter; a reciprocal and
a plain sum are not. -/
theorem zeros_and_overflow_are_deferred : ∃ block,
    Compiler.compile ⟨{}, .standard⟩ [0xEC201030, 0, 0x7C632A14, 0x7C632E14] none = .ok block ∧
    block.code.toList.filterMap Inst.interpreted? = [0, 0x7C632E14] ∧ block.stats.guestCount = 4 ∧
    block.stats.lowered = 2 := by
  have hnew : Compiler.new {} .standard = .ok ⟨{}, .standard⟩ := rfl
  obtain ⟨block, hblock, haccounts⟩ := deferrals_and_statistics_are_exact hnew
    [0xEC201030, 0, 0x7C632A14, 0x7C632E14] none (fun _ h => nomatch h)
  have hinterpreted : block.code.toList.filterMap Inst.interpreted? = [0, 0x7C632E14] :=
    haccounts.interpreted.trans (by decide +kernel)
  have hcount : block.stats.guestCount = 4 := haccounts.guestCount
  have hdeferred := haccounts.deferred
  have htotal := haccounts.total
  rw [hinterpreted, List.length_cons, List.length_singleton] at hdeferred
  exact ⟨block, hblock, hinterpreted, hcount, by omega⟩

end Block

end Recompiler
