import Recompiler.Proofs.Boundary

/-!
# The code of words

The code of a lowered word follows the contents; the code of a deferred word brings everything to
memory and calls the interpreter there. `Invariant` is what a property of contents has to satisfy to
hold along the code of a list of words, and `Invariant.emitWords_spec` is the induction over that
list, made once. `Boundary.emits_keeping` is the induction for properties of the emitter.
-/

namespace Recompiler

open Alloc Arm Block Emit Lower PowerPC

/-! ## Words that are lowered -/

/-- The operation of a word that is not left to the interpreter. -/
def Block.Config.lowers (config : Config) (word : Word) : Option Op :=
  match Op.decode word, config.deferral? word with
  | some op, none => some op
  | _, _ => none

theorem Block.Config.lowers_eq_some {config : Config} {word : Word} {op : Op}
    (h : config.lowers word = some op) :
    Op.decode word = some op ∧ config.opDeferral? word op = none := by
  unfold lowers deferral? at h
  cases hop : Op.decode word with
  | none => simp [hop] at h
  | some op' =>
    rw [hop] at h
    cases hd : config.opDeferral? word op' with
    | none =>
      simp only [hd, Option.some.injEq] at h
      exact ⟨congrArg some h, h ▸ hd⟩
    | some reason => simp [hd] at h

theorem Block.Config.lowers_eq_none {config : Config} {word : Word} :
    config.lowers word = none ↔ (config.deferral? word).isSome = true := by
  unfold lowers deferral?
  cases Op.decode word with
  | none => simp
  | some op =>
    dsimp only
    cases config.opDeferral? word op <;> simp

/-- The code of one word. -/
def emitWord (word : Word) (hints : Hints) (next : Option NextInstruction) : EmitM Unit := do
  beginInstruction word hints next
  Compiler.compileWord word
  endInstruction

/-- The code of words that others follow. -/
def emitWords (next : List (Word × Hints)) : List (Word × Hints) → EmitM Unit
  | [] => return ()
  | (word, hints) :: rest => do
    emitWord word hints (Compiler.lookahead (rest ++ next))
    emitWords next rest

theorem compileWords_append (left right : List (Word × Hints)) :
    Compiler.compileWords (left ++ right) =
      emitWords right left >>= fun _ => Compiler.compileWords right := by
  induction left with
  | nil => simp [emitWords]
  | cons pair left ih =>
    obtain ⟨word, hints⟩ := pair
    simp [Compiler.compileWords, emitWords, emitWord, ih]

theorem compileWords_eq (pairs : List (Word × Hints)) :
    Compiler.compileWords pairs = emitWords [] pairs := by
  have h := compileWords_append pairs []
  simpa [Compiler.compileWords] using h

/-- Compile words, and begin another one. -/
def emitUpTo (left : List (Word × Hints)) (word : Word) (hints : Hints)
    (right : List (Word × Hints)) : EmitM Unit := do
  emitWords ((word, hints) :: right) left
  beginInstruction word hints (Compiler.lookahead right)

/-- The precisions after a word. -/
def wordPrecisions (config : Config) (word : Word) (hints : Hints) (p : Bank 32 Precision) :
    Bank 32 Precision :=
  match config.lowers word with
  | some op =>
    committed (seeded p hints.singles)
      (opPending (seeded p hints.singles) (.replicate 32 none) word op)
  | none => .replicate 32 .double

namespace Emit

variable {s : Setting} {carry : Carry} {p : Bank 32 Precision} {c : Contents} {e e' : Emitter}
  {m m' : Machine} {word : Word} {hints : Hints} {next : Option NextInstruction} {e₁ : Emitter}
  {m₁ : Machine}

theorem Sim.compileWord_spec (h : Sim (s.reading word hints next) (s.rest carry p) c e m) {op : Op}
    (hop : s.config.lowers word = some op) :
    wp (Compiler.compileWord word) (fun _ e' m' => ∃ c' k kv carry',
      c.AfterOp (s.reading word hints next) p op c' ∧
        Sim (s.reading word hints next) ⟨⟨k, .empty, .empty, none⟩, carry',
          ⟨⟨kv, .empty, .empty, none⟩, p,
            opPending p (.replicate 32 none) word op⟩⟩ c' e' m') e m := by
  have hroom : 5 ≤ (s.reading word hints next).vecs.order.length :=
    (s.accepted.goodPool .vector).size
  have hlower := Sim.lower_spec (h.weakenV hroom) op
  have hconfig : e.config = s.config := h.fixed.config
  obtain ⟨hdecode, hdefer⟩ := Config.lowers_eq_some hop
  unfold Compiler.compileWord
  refine wp_get ?_
  rw [hconfig, Config.deferral?, hdecode]
  dsimp only
  rw [hdefer]
  dsimp only
  refine wp_bind hlower ?_
  rintro - e₁ m₁ ⟨c', k, kv, carry', hafter, h₁⟩
  exact wp_modify rfl ⟨c', k, kv, carry', hafter, h₁.with_stats _⟩

theorem Boundary.lowered_spec (h : Boundary s carry p c e m) {op : Op}
    (hop : s.config.lowers word = some op) (hints : Hints) (next : Option NextInstruction) :
    wp (emitWord word hints next) (fun _ e' m' => ∃ carry' c',
      c.AfterOp (s.reading word hints next) (seeded p hints.singles) op c' ∧
        Boundary s carry' (wordPrecisions s.config word hints p) c' e' m') e m := by
  refine wp_bind (h.begin_spec word hints next) ?_
  intro _ e₁ m₁ h₁
  refine wp_bind (h₁.compileWord_spec hop) ?_
  rintro - e₂ m₂ ⟨c', k, kv, carry', hafter, h₂⟩
  refine wp_mono h₂.end_spec ?_
  rintro - e₃ m₃ ⟨h₃, -⟩
  refine ⟨carry', c', hafter, ?_⟩
  rw [wordPrecisions, hop]
  exact h₃

/-! ## Deferred words -/

/-- The emitter when the instruction of a word has begun. -/
def Emitter.reading (e : Emitter) (word : Word) (hints : Hints) (next : Option NextInstruction) :
    Emitter :=
  { e with
    word, hints, next
    stats := { e.stats with guestCount := e.stats.guestCount + 1 }
    vectors := e.vectors.seedSingles hints.singles }

theorem run_beginInstruction {α : Type} (word : Word) (hints : Hints)
    (next : Option NextInstruction) (rest : Unit → EmitM α) :
    (beginInstruction word hints next >>= rest).run.run e =
      (rest ()).run.run (e.reading word hints next) := rfl

/-- The emitter when a word has been left to the interpreter. -/
def Emitter.deferring (e : Emitter) (word : Word) : Emitter :=
  { e with
    code := e.code.emit (.interpret word)
    vectors := e.vectors.resetPrecision
    stats := { e.stats with deferred := e.stats.deferred + 1 } }

/-- The code of a word that is left to the interpreter comes to the call with emitter `e₁` and
machine `m₁`. -/
structure Defers (s : Setting) (word : Word) (hints : Hints) (next : Option NextInstruction)
    (c : Contents) (e : Emitter) (m : Machine) (e₁ : Emitter) (m₁ : Machine) : Prop where
  config : e.config = s.config
  flushed : flushAll.run.run (e.reading word hints next) = (.ok (), e₁)
  runs : e.code.Runs e₁.code m m₁
  sim : ∃ p, Sim (s.reading word hints next) (s.rest .inGuestState p) c e₁ m₁
  memory : e₁.InMemory

theorem Boundary.defers (h : Boundary s carry p c e m) (word : Word) (hints : Hints)
    (next : Option NextInstruction) : ∃ e₁ m₁, Defers s word hints next c e m e₁ m₁ := by
  have hflush : wp (do beginInstruction word hints next; flushAll) (fun _ e₁ m₁ =>
      Sim (s.reading word hints next) (s.rest .inGuestState (seeded p hints.singles)) c e₁ m₁ ∧
        e₁.InMemory) e m :=
    wp_bind (h.begin_spec word hints next) fun _ _ _ h₁ => h₁.flushAll_spec
  obtain ⟨⟨⟩, e₁, m₁, hrun, hruns, hsim, hmem⟩ := hflush
  exact ⟨e₁, m₁, h.fixed.config, hrun, hruns, ⟨_, hsim⟩, hmem⟩

theorem compileWord_of_deferred (hconfig : e.config = s.config)
    (hlow : s.config.lowers word = none) :
    (Compiler.compileWord word).run.run e = deferWord.run.run e := by
  have hdefer := Config.lowers_eq_none.1 hlow
  obtain ⟨reason, hreason⟩ := Option.isSome_iff_exists.1 hdefer
  unfold Compiler.compileWord
  rw [run_get_bind, hconfig, hreason]
  cases Op.decode word <;> rfl

namespace Defers

theorem ok (h : Defers s word hints next c e m e₁ m₁) : e₁.code.Ok := by
  obtain ⟨p, hsim⟩ := h.sim
  exact hsim.fixed.code

theorem hosts (h : Defers s word hints next c e m e₁ m₁) : s.Hosts m₁ := by
  obtain ⟨p, hsim⟩ := h.sim
  exact ⟨hsim.hosts.on, hsim.hosts.stack, hsim.hosts.flush, hsim.hosts.interpreter⟩

theorem run_compileWord (h : Defers s word hints next c e m e₁ m₁)
    (hlow : s.config.lowers word = none) :
    (Compiler.compileWord word).run.run (e.reading word hints next) =
      (.ok (), e₁.deferring word) := by
  obtain ⟨p, hsim⟩ := h.sim
  have hword : e₁.word = word := hsim.fixed.word
  have hconfig : (e.reading word hints next).config = s.config := h.config
  rw [compileWord_of_deferred hconfig hlow]
  unfold deferWord
  rw [run_bind_ok h.flushed, run_get_bind, hword]
  rfl

/-- Whatever the interpreter does to guest memory, the emitter stands for it. -/
theorem resume (h : Defers s word hints next c e m e₁ m₁) (hlow : s.config.lowers word = none) :
    ∃ e', (emitWord word hints next).run.run e = (.ok (), e') ∧
      e'.code = e₁.code.emit (.interpret word) ∧
      ∀ m', s.Hosts m' →
        Boundary s .inGuestState (.replicate 32 .double) (.ofState m'.state) e' m' := by
  obtain ⟨p, hsim⟩ := h.sim
  have hmem : (e₁.deferring word).InMemory := ⟨h.memory.ints, h.memory.vecs⟩
  have hreset : ∀ m', s.Hosts m' → Sim (s.reading word hints next)
      (s.rest .inGuestState (.replicate 32 .double)) (.ofState m'.state)
        (e₁.deferring word) m' := by
    intro m' hm'
    have hstart := hsim.of_inMemory h.memory ⟨hm'.on, hm'.stack, hm'.flush, hm'.interpreter⟩
    exact ⟨⟨hstart.fixed.config, hstart.fixed.layout, hstart.fixed.word, hstart.fixed.hints,
      hstart.fixed.next, rfl, rfl, hstart.fixed.carry, hstart.fixed.code.emit _⟩, hstart.around,
      hstart.ints, hstart.vecs, hstart.ca⟩
  have hdouble : committed (.replicate 32 .double) (.replicate 32 none) =
      .replicate 32 .double := by
    ext reg
    rw [get_committed, Bank.get_replicate]
    rfl
  have hend : ∀ m', s.Hosts m' → wp endInstruction (fun _ e' n =>
      Boundary s .inGuestState (.replicate 32 .double) (.ofState m'.state) e' n ∧
        e'.code = e₁.code.emit (.interpret word) ∧ n = m') (e₁.deferring word) m' := by
    intro m' hm'
    have h' := (hreset m' hm').end_spec
    rw [hdouble] at h'
    exact h'
  obtain ⟨⟨⟩, e', n, hrun, -, -, hcode, -⟩ := hend m₁ h.hosts
  refine ⟨e', ?_, hcode, ?_⟩
  · unfold emitWord
    rw [run_beginInstruction, run_bind_ok (h.run_compileWord hlow)]
    exact hrun
  · intro m' hm'
    obtain ⟨⟨⟩, e'', n, hrun', -, hboundary, -, rfl⟩ := hend m' hm'
    obtain rfl : e'' = e' := by
      rw [hrun] at hrun'
      exact (Prod.mk.inj hrun').2.symm
    exact hboundary

theorem boundary_of_run (h : Defers s word hints next c e m e₁ m₁)
    (hlow : s.config.lowers word = none)
    (hrun : (emitWord word hints next).run.run e = (.ok (), e')) :
    Boundary s .inGuestState (.replicate 32 .double) (.ofState m₁.state) e' m₁ := by
  obtain ⟨e'', hrun', -, hresume⟩ := h.resume hlow
  obtain rfl : e'' = e' := (Prod.mk.inj (hrun'.symm.trans hrun)).2
  exact hresume m₁ h.hosts

end Defers

/-! ## Lists of words -/

/-- Any word can be compiled. -/
theorem Boundary.emits_word (h : Boundary s carry p c e m) (word : Word) (hints : Hints)
    (next : Option NextInstruction) : ∃ e', (emitWord word hints next).run.run e = (.ok (), e') ∧
      e.code.Extends e'.code ∧ ∃ carry' p' c' m', Boundary s carry' p' c' e' m' := by
  cases hlow : s.config.lowers word with
  | some op =>
    obtain ⟨⟨⟩, e', m', hrun, hruns, carry', c', -, h'⟩ := h.lowered_spec hlow hints next
    exact ⟨e', hrun, hruns.ext, carry', _, c', m', h'⟩
  | none =>
    obtain ⟨e₁, m₁, hd⟩ := h.defers word hints next
    obtain ⟨e', hrun, hcode, hresume⟩ := hd.resume hlow
    refine ⟨e', hrun, ?_, _, _, _, m₁, hresume m₁ hd.hosts⟩
    rw [hcode]
    exact hd.runs.ext.trans (.emit _ _ hd.ok.region)

/-- Any words can be compiled. What compiling one word preserves, given the words before it, holds
when all are compiled. -/
theorem Boundary.emits_keeping {I : List (Word × Hints) → Emitter → Prop}
    (hword : ∀ {carry p c e m done word hints next e'}, Boundary s carry p c e m → I done e →
      (emitWord word hints next).run.run e = (.ok (), e') → I (done ++ [(word, hints)]) e')
    (next pairs done : List (Word × Hints)) (h : Boundary s carry p c e m) (hI : I done e) :
    ∃ e', (emitWords next pairs).run.run e = (.ok (), e') ∧ e.code.Extends e'.code ∧
      I (done ++ pairs) e' ∧ ∃ carry' p' c' m', Boundary s carry' p' c' e' m' := by
  induction pairs generalizing done carry p c e m with
  | nil =>
    rw [List.append_nil]
    exact ⟨e, rfl, .refl _, hI, _, _, _, _, h⟩
  | cons pair rest ih =>
    obtain ⟨word, hints⟩ := pair
    obtain ⟨e₁, hrun₁, hext₁, carry₁, p₁, c₁, m₁, h₁⟩ :=
      h.emits_word word hints (Compiler.lookahead (rest ++ next))
    obtain ⟨e₂, hrun₂, hext₂, hI₂, h₂⟩ := ih _ h₁ (hword h hI hrun₁)
    rw [List.append_assoc] at hI₂
    exact ⟨e₂, (run_bind_ok hrun₁).trans hrun₂, hext₁.trans hext₂, hI₂, h₂⟩

theorem Boundary.emits (h : Boundary s carry p c e m) (next pairs : List (Word × Hints)) :
    ∃ e', (emitWords next pairs).run.run e = (.ok (), e') ∧ e.code.Extends e'.code ∧
      ∃ carry' p' c' m', Boundary s carry' p' c' e' m' := by
  obtain ⟨e', hrun, hext, -, h'⟩ := Boundary.emits_keeping (I := fun _ _ => True)
    (fun _ _ _ => trivial) next pairs [] h trivial
  exact ⟨e', hrun, hext, h'⟩

/-- A property of the contents between words, given those to come, that lowered words preserve, and
deferred words as well, with the interpreter in their place. -/
structure Invariant (s : Setting)
    (R : List (Word × Hints) → Bank 32 Precision → Contents → Prop) : Prop where
  lowered : ∀ {word hints rest p c}, R ((word, hints) :: rest) p c →
    ∀ {op}, s.config.lowers word = some op → ∀ {next c'},
      c.AfterOp (s.reading word hints next) (seeded p hints.singles) op c' →
        R rest (wordPrecisions s.config word hints p) c'
  deferred : ∀ {word hints rest p c}, R ((word, hints) :: rest) p c →
    s.config.lowers word = none → ∀ {state : State}, state.On s.layout →
      (∀ cell, (cell = .xerCa → c.ca.isSome = true) → state.fetch cell = c.cell cell) →
        ∃ after, s.interpreter.step state word = .ok after ∧ after.On s.layout ∧
          R rest (.replicate 32 .double) (.ofState after)

theorem Defers.step_spec (h : Defers s word hints next c e m e₁ m₁)
    (hlow : s.config.lowers word = none) {after : State}
    (hstep : s.interpreter.step m₁.state word = .ok after) (hon : after.On s.layout) :
    wp (emitWord word hints next) (fun _ e' m' =>
      Boundary s .inGuestState (.replicate 32 .double) (.ofState after) e' m') e m := by
  obtain ⟨e', hrun, hcode, hresume⟩ := h.resume hlow
  rw [← h.hosts.interpreter] at hstep
  obtain ⟨m', hinterpret, hsame⟩ := Machine.step_interpret hstep
  have hm' : s.Hosts m' := ⟨hsame.state ▸ hon, hsame.stack.trans h.hosts.stack,
    hsame.flush.trans h.hosts.flush, hsame.interpreter.trans h.hosts.interpreter⟩
  refine ⟨(), e', m', hrun, ?_, ?_⟩
  · rw [hcode]
    exact h.runs.trans (.emit h.ok hinterpret)
  · have hboundary := hresume m' hm'
    rw [hsame.state] at hboundary
    exact hboundary

theorem Invariant.emitWords_spec {R : List (Word × Hints) → Bank 32 Precision → Contents → Prop}
    (hinv : Invariant s R) (next pairs : List (Word × Hints)) : ∀ {carry : Carry}
    {p : Bank 32 Precision} {c : Contents} {e : Emitter} {m : Machine}, R pairs p c →
    Boundary s carry p c e m → wp (emitWords next pairs) (fun _ e' m' => ∃ carry' p' c',
      R [] p' c' ∧ Boundary s carry' p' c' e' m') e m := by
  induction pairs with
  | nil => exact fun hR h => wp_pure ⟨_, _, _, hR, h⟩
  | cons pair rest ih =>
    obtain ⟨word, hints⟩ := pair
    intro carry p c e m hR h
    cases hlow : s.config.lowers word with
    | some op =>
      refine wp_bind (h.lowered_spec hlow hints (Compiler.lookahead (rest ++ next))) ?_
      rintro - e₁ m₁ ⟨carry₁, c₁, hafter, h₁⟩
      exact ih (hinv.lowered hR hlow hafter) h₁
    | none =>
      obtain ⟨e₀, m₀, hd⟩ := h.defers word hints (Compiler.lookahead (rest ++ next))
      obtain ⟨q, hsim⟩ := hd.sim
      obtain ⟨after, hstep, hon, hR'⟩ := hinv.deferred hR hlow hd.hosts.on (hsim.fetch_eq hd.memory)
      refine wp_bind (hd.step_spec hlow hstep hon) ?_
      intro _ e₁ m₁ h₁
      exact ih hR' h₁

end Emit

end Recompiler
