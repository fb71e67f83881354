import Recompiler.Proofs.BlockEquivalence

/-!
# Guest memory at calls of the interpreter

The code of a block visits the call of the interpreter for a deferred word once. Guest memory is
then complete: apart from what no later word looks at, it holds what the interpreter would have
computed by itself, and the emitter holds nothing back.
-/

namespace Recompiler

open Alloc Arm Block Emit Ieee Lower PowerPC

/-! ## Places that are visited once -/

namespace Arm.Machine

variable {code : Array Inst} {v v' : List Nat} {p q q' : Nat} {m n n' : Machine}

/-- Of two runs from the same place, one begins with the other. -/
theorem Reaches.linear (h : Reaches code v p m q n) (h' : Reaches code v' p m q' n') :
    (∃ w, v' = v ++ w ∧ Reaches code w q n q' n') ∨
      ∃ w, v = v' ++ w ∧ Reaches code w q' n' q n := by
  induction h generalizing v' with
  | refl pc m => exact .inl ⟨v', rfl, h'⟩
  | @cons_next pc pc' inst m m₁ n v hc hs h ih =>
    cases h' with
    | refl => exact .inr ⟨_, rfl, .cons_next hc hs h⟩
    | cons_next hc' hs' h' =>
      obtain rfl : inst = _ := Option.some.inj (hc.symm.trans hc')
      obtain rfl : m₁ = _ := Outcome.next.inj (hs.symm.trans hs')
      rcases ih h' with ⟨w, rfl, hw⟩ | ⟨w, rfl, hw⟩
      · exact .inl ⟨w, rfl, hw⟩
      · exact .inr ⟨w, rfl, hw⟩
    | cons_jump hc' hs' ht' h' =>
      obtain rfl : inst = _ := Option.some.inj (hc.symm.trans hc')
      rw [hs] at hs'
      simp at hs'
  | @cons_jump pc pc' target inst offset m m₁ n v hc hs ht h ih =>
    cases h' with
    | refl => exact .inr ⟨_, rfl, .cons_jump hc hs ht h⟩
    | cons_next hc' hs' h' =>
      obtain rfl : inst = _ := Option.some.inj (hc.symm.trans hc')
      rw [hs] at hs'
      simp at hs'
    | @cons_jump _ _ target' _ _ _ _ _ _ hc' hs' ht' h' =>
      obtain rfl : inst = _ := Option.some.inj (hc.symm.trans hc')
      obtain ⟨rfl, rfl⟩ := Outcome.jump.inj (hs.symm.trans hs')
      obtain rfl : target = target' := by omega
      rcases ih h' with ⟨w, rfl, hw⟩ | ⟨w, rfl, hw⟩
      · exact .inl ⟨w, rfl, hw⟩
      · exact .inr ⟨w, rfl, hw⟩

/-- A run stays where it is, or visits the place where it starts. -/
theorem Reaches.stays_or_visits (h : Reaches code v p m q n) :
    (v = [] ∧ q = p ∧ n = m) ∨ ∃ w, v = p :: w := by
  cases h with
  | refl => exact .inl ⟨rfl, rfl, rfl⟩
  | cons_next => exact .inr ⟨_, rfl⟩
  | cons_jump => exact .inr ⟨_, rfl⟩

/-- Nothing follows the exit. -/
theorem Reaches.of_exit (hc : code[p]? = some .exit) (h : Reaches code v p m q n) :
    q = p := by
  cases h with
  | refl => rfl
  | cons_next hc' hs =>
    rw [hc, Option.some.injEq] at hc'
    subst hc'
    simp [Machine.step] at hs
  | cons_jump hc' hs =>
    rw [hc, Option.some.injEq] at hc'
    subst hc'
    simp [Machine.step] at hs

end Arm.Machine

namespace Emit.CodeBuffer

variable {a b : CodeBuffer} {base pc : Nat} {i : Inst}

theorem indexFrom_eq_near {pos : Position} {n : Nat} (h : indexFrom base pos = n) (hn : n < base) :
    pos = ⟨.near, n⟩ := by
  obtain ⟨region, index⟩ := pos
  cases region with
  | near =>
    obtain rfl : index = n := h
    rfl
  | far =>
    have hfar : base + index = n := h
    omega

theorem Fresh.ne_end (h : Fresh b a base pc) (hbase : a.near.size < base) : pc ≠ a.near.size := by
  rintro rfl
  obtain ⟨pos, i, -, hsome, hpc⟩ := h
  rw [indexFrom_eq_near hpc.symm hbase, inst?_near_size] at hsome
  simp at hsome

theorem Fresh.ne_emitted (h : Fresh (a.emit i) b base pc) (hok : a.Ok)
    (hbase : a.near.size < base) : pc ≠ a.near.size := by
  rintro rfl
  obtain ⟨pos, j, hnone, -, hpc⟩ := h
  rw [indexFrom_eq_near hpc.symm hbase, inst?_push a i hok.region, if_pos rfl] at hnone
  simp at hnone

theorem Extends.near_lt (h : Extends (a.emit i) b) (ha : a.Ok) : a.near.size < b.near.size := by
  have hinst := h.inst ⟨.near, a.near.size⟩ i (by rw [inst?_push a i ha.region, if_pos rfl])
  exact (Array.getElem?_eq_some_iff.1 hinst).1

/-- An instruction between code that is run through is visited once. -/
theorem Runs.reaches_once {m m₁ m₂ m₃ : Machine} (hbefore : Runs {} a m m₁)
    (hstep : m₁.step i = .next m₂) (hafter : Runs (a.emit i) b m₂ m₃) (ha : a.Ok) (hb : b.Ok)
    {code : Array Inst} {place : Nat → Option Position} (hbase : a.near.size < base)
    (hl : Laid code base place (b.emit .exit)) :
    (∃ visited, Machine.Reaches code visited 0 m a.near.size m₁) ∧
    ∀ visited n, Machine.Reaches code visited 0 m a.near.size n → n = m₁ := by
  have hexit := Extends.emit b .exit hb.region
  have hinst : code[a.near.size]? = some i := ha.laid_emit (hl.of_extends (hafter.ext.trans hexit))
  have hlast : code[b.near.size]? = some .exit := hb.laid_emit hl
  have hemit := (Extends.emit a i ha.region).trans (hafter.ext.trans hexit)
  obtain ⟨before, -, hfresh, hreach⟩ := hbefore.run _ _ _ (hl.of_extends hemit)
  obtain ⟨after, -, hfresh', hreach'⟩ := hafter.run _ _ _ (hl.of_extends hexit)
  have hnear : (a.emit i).near.size = a.near.size + 1 := by
    rw [emit_near a i ha.region, Array.size_push]
  rw [hnear] at hreach'
  have hnot : a.near.size ∉ before := fun hmem => (hfresh _ hmem).ne_end hbase rfl
  have hnot' : a.near.size ∉ after := fun hmem => (hfresh' _ hmem).ne_emitted ha hbase rfl
  have hne : b.near.size ≠ a.near.size := by
    intro heq
    rw [heq, hinst, Option.some.injEq] at hlast
    subst hlast
    simp [Machine.step] at hstep
  refine ⟨⟨before, hreach⟩, ?_⟩
  intro visited n hn
  rcases hreach.linear hn with ⟨w, rfl, hw⟩ | ⟨w, rfl, hw⟩
  · -- a second visit would lie on the way to the exit
    have hrest : Machine.Reaches code (a.near.size :: after) a.near.size m₁ b.near.size m₃ :=
      .cons_next hinst hstep hreach'
    rcases hw.stays_or_visits with ⟨-, -, hsame⟩ | ⟨u, rfl⟩
    · exact hsame
    · exfalso
      rcases hrest.linear hw with ⟨w', -, hw'⟩ | ⟨w', hsplit, hw'⟩
      · exact hne (hw'.of_exit hlast).symm
      · obtain rfl : after = u ++ w' := List.tail_eq_of_cons_eq hsplit
        rcases hw'.stays_or_visits with ⟨-, hsame, -⟩ | ⟨u', rfl⟩
        · exact hne hsame
        · exact hnot' (by simp)
  · rcases hw.stays_or_visits with ⟨-, -, hsame⟩ | ⟨u, rfl⟩
    · exact hsame.symm
    · exact absurd (by simp) hnot

end Emit.CodeBuffer

/-! ## The host as the guest's unit -/

/-- Without flushing, the host's unit differs from the guest's in negated fused operations only. -/
theorem PowerPC.Word.step_host {word : Word}
    (h : ∀ op, Op.decode word = some (.float op) → op.isNegated = false) (fprf : Bool)
    (state : State) : word.step (.host false) fprf state = word.step .guest fprf state := by
  unfold Word.step
  cases hop : Op.decode word with
  | none => rfl
  | some op =>
    cases op with
    | int op => rfl
    | float op => simp only [Word.stepOp, State.floatWith, effect_host (h op hop)]

theorem Block.Config.run_units {config : Config} {words : List Word}
    (h : ∀ word ∈ words, ∀ op, Op.decode word = some (.float op) → op.isNegated = true →
      (config.deferral? word).isSome = true) (state : State) :
    Word.run (config.units false) config.fprf state words =
      Interpreter.run ⟨config.fprf⟩ state words := by
  rw [Interpreter.run_eq]
  refine Word.run_congr ?_ state
  intro word hword g
  unfold Config.units
  cases hlow : config.lowers word with
  | none => rfl
  | some op =>
    refine Word.step_host ?_ config.fprf g
    intro op' hop'
    by_contra hneg
    rw [Bool.not_eq_false] at hneg
    have hdefer := h word hword op' hop' hneg
    rw [← Config.lowers_eq_none, hlow] at hdefer
    simp at hdefer

theorem PowerPC.Word.supports_of_run {units : Word → FloatUnit} {fprf : Bool} {state final : State}
    {words : List Word} (h : Word.run units fprf state words = .ok final) :
    ∀ word ∈ words, Interpreter.supports word = true := by
  induction words generalizing state with
  | nil => simp
  | cons word words ih =>
    have hfirst : Interpreter.supports word = true := by
      by_contra hnot
      rw [Bool.not_eq_true] at hnot
      have hfault := Interpreter.step_of_not_supports ⟨fprf⟩ state hnot
      rw [Word.run, Word.step, Interpreter.decode_of_not_supports hnot] at h
      rw [Interpreter.step, Interpreter.decode_of_not_supports hnot] at hfault
      simp [hfault] at h
    rw [Word.run] at h
    cases hstep : word.step (units word) fprf state with
    | error fault => simp [hstep] at h
    | ok after =>
      rw [hstep] at h
      simpa [hfirst] using ih h

/-! ## The deferral of a word -/

namespace Emit

/-- The code of a block calls the interpreter for a word once, with machine `m₁`; the call is
emitted when nothing of the guest is in a register. -/
structure CallsOnce (block : CompiledBlock) (word : Word) (m : Machine) (e : Emitter)
    (m₁ : Machine) : Prop where
  memory : e.InMemory
  carry : e.carry = .inGuestState
  ok : e.code.Ok
  inst : block.code[e.code.near.size]? = some (.interpret word)
  reached : ∃ visited, Machine.Reaches block.code visited 0 m e.code.near.size m₁
  once : ∀ visited n, Machine.Reaches block.code visited 0 m e.code.near.size n → n = m₁

/-- The machine calls the interpreter for a deferred word once, with memory that agrees with the run
of the words before it. -/
theorem Setting.call_of_run (s : Setting) (hfprf : s.interpreter.fprf = s.config.fprf) {m : Machine}
    (hm : s.Hosts m) (hbit : m.state.CarryIsBit) {left right : List (Word × Hints)} {word : Word}
    {hints : Hints} (hhints : HintsRight (s.config.units s.flush) s.config.fprf m.state
      (left ++ (word, hints) :: right) []) {final : State}
    (hrun : Word.run (s.config.units s.flush) s.config.fprf m.state
      ((left ++ (word, hints) :: right).map (·.1)) = .ok final)
    (hlow : s.config.lowers word = none) : ∃ block g e m₁,
      s.compiler.assemble (Compiler.compileWords (left ++ (word, hints) :: right)) = .ok block ∧
      Word.run (s.config.units s.flush) s.config.fprf m.state (left.map (·.1)) = .ok g ∧
      (do emitUpTo left word hints right; Compiler.compileWord word).run.run
        (.new s.config s.layout) = (.ok (), Emitter.deferring e word) ∧
      CallsOnce block word m e m₁ ∧ m₁.state.Agrees s.layout
        (((Wanted.scan (right.map (·.1))).1.before (Op.decode word)).under s.config.fprf) g := by
  rw [List.map_append] at hrun
  have hsupports := Word.supports_of_run hrun
  obtain ⟨g, hleft, -⟩ := Word.run_append hrun
  have hstart : Followed s.layout (s.config.units s.flush) s.config.fprf m.state left
      (((word, hints) :: right).map (·.1) ++ []) left (.replicate 32 .double) (.ofState m.state) :=
    ⟨[], m.state, rfl, rfl, .ofState (.refl hm.on _) fun _ => hbit, .double _ _⟩
  obtain ⟨e, m₁, carry, p, c, hrun₁, hruns₁, ⟨left', g', hsplit, hg', htracks, -⟩, hboundary⟩ :=
    (Invariant.followed s hfprf hhints.before hleft).before hm hstart ((word, hints) :: right)
  obtain rfl : left = left' := by simpa using hsplit
  obtain rfl : g = g' := Except.ok.inj (hleft.symm.trans hg')
  obtain ⟨e₂, m₂, hd⟩ := hboundary.defers word hints (Compiler.lookahead right)
  obtain ⟨q, hsim⟩ := hd.sim
  have hagree := htracks.agrees hd.hosts.on (hsim.fetch_eq hd.memory)
  rw [List.append_nil] at hagree
  obtain ⟨e₃, hrun₃, hcode, hresume⟩ := hd.resume hlow
  -- the words that follow bring the machine to the exit
  obtain ⟨after, hafter⟩ := m₂.interpreter.step_of_supports m₂.state (hsupports word (by simp))
  obtain ⟨m₃, hinterpret, hsame⟩ := Machine.step_interpret hafter
  rw [hd.hosts.interpreter] at hafter
  have hm₃ : s.Hosts m₃ := ⟨hsame.state ▸ s.on_step hd.hosts.on hafter,
    hsame.stack.trans hd.hosts.stack, hsame.flush.trans hd.hosts.flush,
    hsame.interpreter.trans hd.hosts.interpreter⟩
  have hright : ∀ pair ∈ right, Interpreter.supports pair.1 = true := by
    intro pair hpair
    refine hsupports pair.1 (List.mem_append_right _ (List.mem_cons_of_mem _ ?_))
    exact List.mem_map_of_mem hpair
  obtain ⟨⟨⟩, e₄, m₄, hrun₄, hruns₄, carry₄, p₄, c₄, -, hboundary₄⟩ :=
    (Invariant.supported s).emitWords_spec [] right hright (hresume m₃ hm₃)
  rw [← compileWords_eq] at hrun₄
  obtain ⟨block, e₅, m₅, hclose⟩ := hboundary₄.closes
  obtain ⟨last, hext, -, hlaid⟩ := hclose.continues.grown
  have hruns₅ := hruns₄.trans hclose.runs
  rw [hcode] at hruns₅
  have hexit := CodeBuffer.Extends.emit e₅.code .exit hclose.ok.region
  have hlast := hruns₅.ext.trans (hexit.trans hext)
  obtain ⟨hreached, honce⟩ := CodeBuffer.Runs.reaches_once (hruns₁.trans hd.runs) hinterpret hruns₅
    hd.ok hclose.ok (hlast.near_lt hd.ok) (hlaid.of_extends hext)
  refine ⟨block, g, e₂, m₂, ?_, hleft, ?_,
    ⟨hd.memory, hsim.fixed.carry, hd.ok, ?_, hreached, honce⟩, hagree⟩
  · exact (s.assemble_eq (run_compileWords hrun₁ hrun₃ hrun₄)).trans hclose.finished
  · rw [emitUpTo, bind_assoc, run_bind_ok hrun₁, run_beginInstruction]
    exact hd.run_compileWord hlow
  · exact hd.ok.laid_emit (hlaid.of_extends hlast)

end Emit

namespace Block

/-- Memory has what the interpreter needs to execute a word in a guest state, and what is needed
after it. -/
structure CompleteFor (word : Word) (memory guest : State) : Prop where
  gpr : ∀ reg : GuestReg, memory.gpr reg = guest.gpr reg
  ps : ∀ reg : GuestReg, memory.ps reg = guest.ps reg
  cr : ∀ field : CrField, memory.crField field = guest.crField field
  soOv : memory.xerSoOv = guest.xerSoOv
  ca : (∀ op, Op.decode word = some op → op.readsCa = true) → memory.xerCa = guest.xerCa
  fpscr : Op.decode word = none → memory.fpscr = guest.fpscr

theorem CompleteFor.of_agrees {layout : Layout} {w : Wanted} {fprf : Bool} {word : Word}
    {memory guest : State}
    (h : memory.Agrees layout ((w.before (Op.decode word)).under fprf) guest) :
    CompleteFor word memory guest where
  gpr := h.gpr
  ps := h.ps
  cr := h.crField
  soOv := h.xerSoOv
  ca hread := by
    apply h.xerCa
    cases hop : Op.decode word with
    | none => rfl
    | some op =>
      have hreads := hread op hop
      have hwrites : op.writesCa = true := by
        rcases op with op | op
        · cases op <;> simp_all [Op.readsCa, Op.writesCa, IntOp.readsCa, IntOp.writesCa]
        · simp [Op.readsCa] at hreads
      simp [Wanted.before, Wanted.under, hwrites, hreads]
  fpscr hop := by
    apply h.fpscr
    rw [hop]
    rfl

/-- When the machine is about to call the interpreter for a deferred word, guest memory is complete
for that word: it agrees with what the interpreter computes from the words before. When the call has
been emitted, nothing of the guest is in a register, and the carry is in the guest state. -/
theorem memory_is_complete_at_deferrals {config : Config} {layout : Layout} {compiler : Compiler}
    (hnew : Compiler.new config layout = .ok compiler) {words : List Word} {state final : State}
    (hrun : Interpreter.run ⟨config.fprf⟩ state words = .ok final)
    (hnegated : ∀ word ∈ words, ∀ op, Op.decode word = some (.float op) → op.isNegated = true →
      (config.deferral? word).isSome = true) (hon : state.On layout) (hbit : state.CarryIsBit)
    {left right : List (Word × Hints)} {word : Word} {hints : Hints}
    (hsplit : words.zip (analyze words) = left ++ (word, hints) :: right)
    (hdefer : (config.deferral? word).isSome = true) :
    ∃ block guest e place, compiler.compile words none = .ok block ∧
      Interpreter.run ⟨config.fprf⟩ state (left.map (·.1)) = .ok guest ∧
      (do emitUpTo left word hints right; Compiler.compileWord word).run.run (.new config layout) =
        (.ok (), e) ∧
      e.code.near.size = place + 1 ∧ block.code[place]? = some (.interpret word) ∧
      (∃ visited m, Machine.Reaches block.code visited 0
        { state, flush := false, interpreter := ⟨config.fprf⟩ } place m) ∧
      (∀ visited m, Machine.Reaches block.code visited 0
        { state, flush := false, interpreter := ⟨config.fprf⟩ } place m →
          CompleteFor word m.state guest) ∧
      e.InMemory ∧ e.carry = .inGuestState := by
  obtain ⟨haccepted, rfl⟩ := Compiler.new_eq_ok hnew
  have hfit : HintsFit words none := fun _ h => by simp at h
  obtain ⟨hwords, hcompile⟩ := hfit.compile_eq ⟨config, layout⟩
  rw [Option.getD_none, hsplit] at hwords hcompile
  let s : Setting := ⟨config, layout, haccepted, 0, {}, none, false, ⟨config.fprf⟩⟩
  let m : Machine := { state, flush := false, interpreter := ⟨config.fprf⟩ }
  have hm : s.Hosts m := ⟨hon, rfl, rfl, rfl⟩
  have hhints :
      HintsRight (config.units false) config.fprf state (left ++ (word, hints) :: right) [] :=
    hsplit ▸ .analyze haccepted.layout_valid hon words
  have hunits : Word.run (config.units false) config.fprf state
      ((left ++ (word, hints) :: right).map (·.1)) = .ok final := by
    rw [hwords, Config.run_units hnegated]
    exact hrun
  have hbefore : ∀ word ∈ left.map (·.1), ∀ op, Op.decode word = some (.float op) →
      op.isNegated = true → (config.deferral? word).isSome = true := by
    intro word' hword'
    refine hnegated word' ?_
    rw [← hwords, List.map_append]
    exact List.mem_append_left _ hword'
  obtain ⟨block, guest, e, m₁, hblock, hguest, hemit, hcalls, hagree⟩ :=
    s.call_of_run rfl hm hbit hhints hunits (Config.lowers_eq_none.2 hdefer)
  rw [Config.run_units hbefore] at hguest
  refine ⟨block, guest, e.deferring word, e.code.near.size, hcompile.trans hblock,
    hguest, hemit, ?_, hcalls.inst, hcalls.reached.imp fun _ h => ⟨m₁, h⟩, ?_,
    ⟨hcalls.memory.ints, hcalls.memory.vecs⟩, hcalls.carry⟩
  · show (e.code.emit (.interpret word)).near.size = e.code.near.size + 1
    rw [CodeBuffer.emit_near _ _ hcalls.ok.region, Array.size_push]
  · intro visited n hn
    rw [hcalls.once visited n hn]
    exact .of_agrees hagree

/-- After a sum with carry out, the word that reads the condition register finds complete memory. -/
theorem memory_is_complete_after_sum : ∃ block guest place,
    Compiler.compile ⟨{}, .standard⟩ [0x7C642814, 0x7D000026] none = .ok block ∧
    Interpreter.run ⟨false⟩ (.zeroed .standard) [0x7C642814] = .ok guest ∧
    block.code[place]? = some (.interpret 0x7D000026) ∧
    ∃ visited m, Machine.Reaches block.code visited 0
        { state := .zeroed .standard, flush := false, interpreter := ⟨false⟩ } place m ∧
      CompleteFor 0x7D000026 m.state guest := by
  have hnew : Compiler.new {} .standard = .ok ⟨{}, .standard⟩ := rfl
  have hsupports : ∀ word ∈ [0x7C642814, 0x7D000026], Interpreter.supports word = true := by
    simp only [List.mem_cons, List.not_mem_nil, or_false, forall_eq_or_imp, forall_eq]
    exact ⟨rfl, rfl⟩
  obtain ⟨final, hfinal⟩ :=
    Word.run_of_supports (fun _ => .guest) false (.zeroed .standard) hsupports
  rw [← Interpreter.run_eq ⟨false⟩] at hfinal
  have hnegated : ∀ word ∈ [0x7C642814, 0x7D000026], ∀ op, Op.decode word = some (.float op) →
      op.isNegated = true → (Config.deferral? {} word).isSome = true := by
    have hsum : Op.decode 0x7C642814 = some (.int .addc) := rfl
    have hread : Op.decode 0x7D000026 = none := rfl
    simp only [List.mem_cons, List.not_mem_nil, or_false, forall_eq_or_imp, forall_eq, hsum, hread]
    simp
  have hsplit : List.zip [(0x7C642814 : Word), 0x7D000026] (analyze [0x7C642814, 0x7D000026]) =
      [(0x7C642814, ({} : Hints))] ++ (0x7D000026, ({} : Hints)) :: [] := rfl
  obtain ⟨block, guest, -, place, hblock, hguest, -, -, hinst, ⟨visited, m, hreach⟩,
      hcomplete, -⟩ :=
    memory_is_complete_at_deferrals hnew hfinal hnegated (.zeroed Layout.valid_standard)
      (.zeroed Layout.valid_standard) hsplit rfl
  exact ⟨block, guest, place, hblock, hguest, hinst, visited, m, hreach, hcomplete visited m hreach⟩

end Block

end Recompiler
