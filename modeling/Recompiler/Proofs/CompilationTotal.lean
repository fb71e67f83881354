import Recompiler.Proofs.ConversionBlock

/-!
# Compilation does not fail

A compiler is accepted exactly if its layout is valid and its pools are large enough, without
repetitions, and made of allowed registers. An accepted compiler compiles all words and all
conversions.
-/

namespace Recompiler.Block

open Alloc Arm Emit Lower PowerPC

variable {config : Config} {layout : Layout} {cls : RegClass}

/-! ## Accepted settings -/

theorem poolFaultAfter_eq_none {regs before : List HostReg}
    (hallowed : ∀ r ∈ regs, allowedInPool cls r = true) (hnodup : regs.Nodup)
    (hbefore : ∀ r ∈ regs, r ∉ before) : poolFaultAfter cls before regs = none := by
  induction regs generalizing before with
  | nil => rfl
  | cons r regs ih =>
    obtain ⟨hr, hregs⟩ := List.nodup_cons.1 hnodup
    have hfirst : allowedInPool cls r = true := hallowed r List.mem_cons_self
    rw [poolFaultAfter, hfirst, if_neg (by simp), if_neg (hbefore r List.mem_cons_self)]
    refine ih (fun q hq => hallowed q (List.mem_cons_of_mem r hq)) hregs ?_
    intro q hq hmem
    rcases List.mem_cons.1 hmem with rfl | hmem
    · exact hr hq
    · exact hbefore q (List.mem_cons_of_mem r hq) hmem

theorem poolFault?_eq_none {pool : Option (List HostReg)} {standard : List HostReg}
    (h : GoodPool cls (pool.getD standard)) : poolFault? cls pool = none := by
  cases pool with
  | none => rfl
  | some regs =>
    have hsize : leastPool ≤ regs.length := h.size
    rw [poolFault?, if_neg (Nat.not_lt.2 hsize)]
    exact poolFaultAfter_eq_none h.allowed h.nodup fun _ _ => List.not_mem_nil

/-- What an accepted compiler is made of. -/
theorem accepted_iff : Accepted config layout ↔
    layout.Valid ∧ ∀ cls, GoodPool cls (config.order cls) := by
  constructor
  · intro h
    exact ⟨h.layout_valid, h.goodPool⟩
  · rintro ⟨hlayout, hpools⟩
    unfold Accepted Compiler.fault?
    rw [Option.or_eq_none_iff, Option.or_eq_none_iff]
    exact ⟨⟨hlayout, poolFault?_eq_none (hpools .general)⟩, poolFault?_eq_none (hpools .vector)⟩

theorem Compiler.new_eq_ok_iff {compiler : Compiler} : Compiler.new config layout = .ok compiler ↔
    Accepted config layout ∧ compiler = ⟨config, layout⟩ := by
  refine ⟨Compiler.new_eq_ok, ?_⟩
  rintro ⟨haccepted, rfl⟩
  unfold Accepted at haccepted
  rw [Compiler.new, haccepted]

/-! ## Words and conversions -/

/-- A machine at rest with nothing in its registers. -/
theorem hosts_zeros (s : Setting) :
    s.Hosts { state := .zeros s.layout, flush := s.flush, interpreter := s.interpreter } :=
  ⟨State.On.zeros s.layout, rfl, rfl, rfl⟩

/-- Every layout that is valid, with pools of at least five allowed registers without repetitions,
is accepted. An accepted compiler compiles any words, with its own hints or as many of any kind, and
any conversion between two registers with any hints. -/
theorem compilation_never_fails (config : Config) (layout : Layout) :
    ((∃ compiler, Compiler.new config layout = .ok compiler) ↔
      layout.Valid ∧ ∀ cls, GoodPool cls (config.order cls)) ∧
    ∀ compiler, Compiler.new config layout = .ok compiler →
      (∀ words hints, HintsFit words hints → ∃ block, compiler.compile words hints = .ok block) ∧
      ∀ kind src dst hints, src < 32 → dst < 32 →
        ∃ block, compiler.compileConversion kind src dst hints = .ok block := by
  simp only [Compiler.new_eq_ok_iff]
  refine ⟨?_, ?_⟩
  · rw [← accepted_iff]
    exact ⟨fun ⟨_, haccepted, _⟩ => haccepted, fun haccepted => ⟨_, haccepted, rfl⟩⟩
  · rintro _ ⟨haccepted, rfl⟩
    let s : Setting := ⟨config, layout, haccepted, 0, {}, none, false, {}⟩
    refine ⟨?_, ?_⟩
    · intro words hints hfit
      obtain ⟨block, -, hblock, -⟩ :=
        s.run_pairs (hosts_zeros s) (words.zip (hints.getD (analyze words)))
      exact ⟨block, (hfit.compile_eq ⟨config, layout⟩).2.trans hblock⟩
    · intro kind src dst hints hsrc hdst
      obtain ⟨block, -, hblock, -⟩ :=
        s.conversion_takes (hosts_zeros s) kind ⟨src, hsrc⟩ ⟨dst, hdst⟩ hints
      exact ⟨block, hblock⟩

/-- Five argument registers and five vector registers, words of all kinds with hints that are wrong
about them, and a conversion in place. -/
theorem argument_registers_suffice :
    let config : Config :=
      { generalPool := some [0, 1, 2, 3, 4], vectorPool := some [1, 2, 3, 4, 5], fprf := true }
    Compiler.new config .standard = .ok ⟨config, .standard⟩ ∧
    (∃ block, Compiler.compile ⟨config, .standard⟩ [0x7C632915, 0xEC2220FB, 0, 0xFFFFFFFF]
      (some (.replicate 4 { singles := 0xFFFFFFFF, wantsCaInFlags := true })) = .ok block) ∧
    ∃ block, Compiler.compileConversion ⟨config, .standard⟩ .doubleToSinglePair 31 31
      { singles := 0xFFFFFFFF, storeSafe := 0xFFFFFFFF } = .ok block := by
  intro config
  have hnew : Compiler.new config .standard = .ok ⟨config, .standard⟩ := by decide +kernel
  obtain ⟨hwords, hconversions⟩ := (compilation_never_fails config .standard).2 _ hnew
  refine ⟨hnew, hwords _ _ ?_, hconversions _ _ _ _ (by decide) (by decide)⟩
  rintro _ ⟨⟩
  rfl

end Recompiler.Block
