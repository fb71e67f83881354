import Recompiler.Block.Agreement
import Recompiler.Proofs.BlockCode

/-!
# Whole blocks

A block ends by bringing everything to guest memory and leaving. `Boundary.closes` follows the
machine to the exit; `Invariant.whole` and `Invariant.before` carry an invariant of the words
through a whole block, and up to one of its words.
-/

namespace Recompiler

open Alloc Arm Block Emit Lower PowerPC

namespace Block

/-- A block turns a machine into another one, with one step for each of its instructions at most. -/
def CompiledBlock.Takes (block : CompiledBlock) (m m' : Machine) : Prop :=
  ∀ fuel, block.code.size ≤ fuel → Machine.runFrom block.code fuel 0 m = (m', none)

/-- A block has been made from code that begins with the code of a buffer. -/
structure CompiledBlock.Continues (block : CompiledBlock) (b : CodeBuffer) : Prop where
  grown : ∃ final, b.Extends final ∧ block.code.size = final.size ∧
    CodeBuffer.Laid block.code final.near.size final.place? final

theorem CompiledBlock.Continues.of_extends {block : CompiledBlock} {a b : CodeBuffer}
    (h : block.Continues b) (hab : a.Extends b) : block.Continues a := by
  obtain ⟨final, hext, hsize, hlaid⟩ := h.grown
  exact ⟨final, hab.trans hext, hsize, hlaid⟩

/-- The machine gets through the code that a block begins with. -/
theorem CompiledBlock.Continues.runFrom {block : CompiledBlock} {b : CodeBuffer} {i : Inst}
    {m m' : Machine} (h : block.Continues (b.emit i)) (hok : b.Ok)
    (hruns : CodeBuffer.Runs {} b m m') {fuel : Nat} (hfuel : block.code.size ≤ fuel) :
    block.code[b.near.size]? = some i ∧ ∃ rest,
      Machine.runFrom block.code fuel 0 m =
        Machine.runFrom block.code (rest + 1) b.near.size m' := by
  obtain ⟨final, hext, hsize, hlaid⟩ := h.grown
  have hemit := CodeBuffer.Extends.emit b i hok.region
  obtain ⟨visited, hlength, -, hreach⟩ :=
    hruns.run _ _ _ (hlaid.of_extends (hemit.trans hext))
  have hempty : CodeBuffer.size {} = 0 := rfl
  have hgrown : b.size + 1 ≤ final.size := by
    have hle := hext.size
    rw [CodeBuffer.emit_near b i hok.region] at hle
    simp only [CodeBuffer.size, Array.size_push] at hle ⊢
    omega
  obtain ⟨rest, rfl⟩ : ∃ rest, fuel = visited.length + (rest + 1) :=
    ⟨fuel - visited.length - 1, by omega⟩
  exact ⟨hok.laid_emit (hlaid.of_extends hext), rest, hreach.runFrom _⟩

end Block

namespace Emit

variable {s : Setting} {carry : Carry} {p : Bank 32 Precision} {c : Contents} {e e₁ : Emitter}
  {m m₀ m₁ : Machine} {block : CompiledBlock}

/-! ## The end of a block -/

/-- Closing the block of `e` gives `block`. Its code brings the contents to memory and comes to the
exit with machine `m₁`. -/
structure Closes (s : Setting) (c : Contents) (e : Emitter) (m : Machine) (block : CompiledBlock)
    (e₁ : Emitter) (m₁ : Machine) : Prop where
  finished : Compiler.finish e = .ok block
  runs : e.code.Runs e₁.code m m₁
  ok : e₁.code.Ok
  continues : block.Continues (e₁.code.emit .exit)
  hosts : s.Hosts m₁
  memory : ∀ cell, (cell = .xerCa → c.ca.isSome = true) → m₁.state.fetch cell = c.cell cell

theorem Boundary.closes (h : Boundary s carry p c e m) : ∃ block e₁ m₁,
    Closes s c e m block e₁ m₁ := by
  obtain ⟨⟨⟩, e₁, m₁, hrun, hruns, hsim, hmem⟩ := Sim.flushAll_spec h
  have hok : e₁.code.Ok := hsim.fixed.code
  obtain ⟨code, hfinish, hsize, hlaid⟩ := (hok.emit .exit).finish
  have hclose : Compiler.closeBlock.run.run e =
      (.ok (), { e₁ with code := e₁.code.emit .exit }) := run_bind_ok hrun
  have hfinished : ∃ block, Compiler.finish e = .ok block ∧ block.code = code := by
    unfold Compiler.finish
    rw [hclose]
    unfold Compiler.collected
    simp only [hfinish]
    exact ⟨_, rfl, rfl⟩
  obtain ⟨block, hblock, rfl⟩ := hfinished
  exact ⟨block, e₁, m₁, hblock, hruns, hok, ⟨_, .refl _, hsize, hlaid⟩,
    ⟨hsim.hosts.on, hsim.hosts.stack, hsim.hosts.flush, hsim.hosts.interpreter⟩, hsim.fetch_eq hmem⟩

theorem Closes.takes (h : Closes s c e m block e₁ m₁)
    (hstart : CodeBuffer.Runs {} e.code m₀ m) : block.Takes m₀ m₁ := by
  intro fuel hfuel
  obtain ⟨hexit, rest, hrun⟩ := h.continues.runFrom h.ok (hstart.trans h.runs) hfuel
  calc Machine.runFrom block.code fuel 0 m₀
      = Machine.runFrom block.code (rest + 1) e₁.code.near.size m₁ := hrun
    _ = (m₁, if m₁.stack.isEmpty then none else some (.stackNotEmpty m₁.stack.length)) := by
        rw [Machine.runFrom, hexit]
        rfl
    _ = (m₁, none) := by rw [h.hosts.stack]; rfl

theorem Closes.continues_start (h : Closes s c e m block e₁ m₁) : block.Continues e.code :=
  h.continues.of_extends (h.runs.ext.trans (.emit _ _ h.ok.region))

/-! ## Invariants of blocks -/

/-- The compiler of a setting. -/
def Setting.compiler (s : Setting) : Compiler := ⟨s.config, s.layout⟩

theorem Setting.assemble_eq (s : Setting) {program : EmitM Unit}
    (h : program.run.run (.new s.config s.layout) = (.ok (), e)) :
    s.compiler.assemble program = Compiler.finish e := by
  unfold Compiler.assemble Setting.compiler
  rw [h]

/-- Words after those that an emitter has compiled can be compiled. -/
theorem Boundary.completes (h : Boundary s carry p c e m) (pairs : List (Word × Hints)) :
    ∃ block e', (Compiler.compileWords pairs).run.run e = (.ok (), e') ∧
      Compiler.finish e' = .ok block ∧ block.Continues e.code := by
  rw [compileWords_eq]
  obtain ⟨e', hrun, hext, carry', p', c', m', h'⟩ := h.emits [] pairs
  obtain ⟨block, e₁, m₁, hclose⟩ := h'.closes
  exact ⟨block, e', hrun, hclose.finished, hclose.continues_start.of_extends hext⟩

variable {R : List (Word × Hints) → Bank 32 Precision → Contents → Prop}

/-- An invariant that holds of the contents of memory at the start holds of those at the end. -/
theorem Invariant.whole (hinv : Invariant s R) {pairs : List (Word × Hints)} (hm : s.Hosts m)
    (hR : R pairs (.replicate 32 .double) (.ofState m.state)) : ∃ block m' p c,
      s.compiler.assemble (Compiler.compileWords pairs) = .ok block ∧ block.Takes m m' ∧
      R [] p c ∧ s.Hosts m' ∧
      ∀ cell, (cell = .xerCa → c.ca.isSome = true) → m'.state.fetch cell = c.cell cell := by
  obtain ⟨⟨⟩, e, m₁, hrun, hruns, carry', p, c, hR', h'⟩ :=
    hinv.emitWords_spec [] pairs hR (Boundary.start hm)
  rw [← compileWords_eq] at hrun
  obtain ⟨block, e₁, m', hclose⟩ := h'.closes
  exact ⟨block, m', p, c, (s.assemble_eq hrun).trans hclose.finished, hclose.takes hruns, hR',
    hclose.hosts, hclose.memory⟩

/-- An invariant that holds of the words before others holds of the contents between them. -/
theorem Invariant.before (hinv : Invariant s R) {left : List (Word × Hints)} (hm : s.Hosts m)
    (hR : R left (.replicate 32 .double) (.ofState m.state)) (right : List (Word × Hints)) :
    ∃ e m₁ carry p c, (emitWords right left).run.run (.new s.config s.layout) = (.ok (), e) ∧
      CodeBuffer.Runs {} e.code m m₁ ∧ R [] p c ∧ Boundary s carry p c e m₁ := by
  obtain ⟨⟨⟩, e, m₁, hrun, hruns, carry, p, c, hR', h'⟩ :=
    hinv.emitWords_spec right left hR (Boundary.start hm)
  exact ⟨e, m₁, carry, p, c, hrun, hruns, hR', h'⟩

/-- Compiling words in three parts. -/
theorem run_compileWords {left right : List (Word × Hints)} {word : Word} {hints : Hints}
    {e₀ e e₁ e₂ : Emitter}
    (hleft : (emitWords ((word, hints) :: right) left).run.run e₀ = (.ok (), e))
    (hword : (emitWord word hints (Compiler.lookahead right)).run.run e = (.ok (), e₁))
    (hright : (Compiler.compileWords right).run.run e₁ = (.ok (), e₂)) :
    (Compiler.compileWords (left ++ (word, hints) :: right)).run.run e₀ = (.ok (), e₂) := by
  have hsplit : Compiler.compileWords ((word, hints) :: right) =
      emitWord word hints (Compiler.lookahead right) >>= fun _ => Compiler.compileWords right := by
    simp [Compiler.compileWords, emitWord]
  rw [compileWords_append, run_bind_ok hleft, hsplit, run_bind_ok hword]
  exact hright

end Emit

end Recompiler
