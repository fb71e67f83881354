import Recompiler.Proofs.CarrySteps

/-!
# Floating-point slots

Reading, writing and emitting code for floating-point registers, with emitter and machine side by
side. By the time a floating-point instruction touches its registers the carry is in guest memory,
so its code may use the flags.
-/

namespace Recompiler

open Alloc Arm Block PowerPC

/-- Another machine for the same cache, with the same values in the registers of slots. -/
theorem Alloc.Cache.At.of_kept {n : Nat} {V : Type} {home : Home n V} {cache : Cache n}
    {m m' : Machine} {val : Fin n → V} {u : Usage n} (h : Cache.At home cache m val u)
    (hon : m'.state.On home.layout)
    (hreg : ∀ s r, cache.binding s = .host r → u.hole ≠ some s → home.reg m' r = home.reg m r)
    (hmem : ∀ s, home.mem m'.state s = home.mem m.state s) : Cache.At home cache m' val u where
  ready := h.ready
  holds := ⟨hon, fun s r hb hs => (hreg s r hb hs).trans (h.holds.host s r hb hs),
    fun s hd => (hmem s).trans (h.holds.memory s hd), h.holds.constant, h.holds.fits⟩

namespace Emit

variable {s : Setting} {u : Stage} {c : Contents} {e e' : Emitter} {m m' : Machine} {iu : Usage 40}
  {carry : Carry} {f : FloatStage} {dst : HostReg} {v : BitVec 128} {reg : GuestReg}

namespace Setting

theorem vectorScratch_not_mem (s : Setting) : vectorScratch ∉ s.vecs.order :=
  fun h => (s.accepted.goodPool .vector).ne_vectorScratch h rfl

end Setting

/-! ## Moving slots -/

theorem run_requestVector {request : Access 32 → Cache 32 → Except (Refusal 32) (Grant 32)}
    {grant : Grant 32} (hok : request (.vector e.layout) e.vectors.cache = .ok grant) :
    (requestVector request).run.run e =
      (.ok grant.reg, { e with
        vectors := { e.vectors with cache := grant.cache }
        code := e.code.emitAll grant.code }) := by
  unfold requestVector
  rw [run_get_bind, hok]
  rfl

theorem Frame.getX_of_vector (hf : Frame .vector m m') (r : HostReg) : m'.getX r = m.getX r := by
  simp only [Machine.getX, hf.x rfl]

/-- What a request for a vector register leads to. -/
theorem Sim.requestVector_spec {fu : Usage 32} (h : Sim s ⟨iu, carry, f⟩ c e m)
    {request : Access 32 → Cache 32 → Except (Refusal 32) (Grant 32)} {grant : Grant 32}
    (hok : request s.vecs.access e.vectors.cache = .ok grant)
    (hstep : Cache.Step s.vecs e.vectors.cache m grant.code grant.cache m')
    (hat : Cache.At s.vecs grant.cache m' c.ps fu) {Q : HostReg → Emitter → Machine → Prop}
    (hq : ∀ e', Sim s ⟨iu, carry, { f with usage := fu }⟩ c e' m' → Keeps e m e' m' →
      e'.vectors.cache = grant.cache → Q grant.reg e' m') :
    wp (requestVector request) Q e m := by
  have hok' : request (.vector e.layout) e.vectors.cache = .ok grant := by
    rw [h.fixed.layout]
    exact hok
  refine ⟨_, _, m', run_requestVector hok', .emitAll h.fixed.code hstep.exec, hq _ ?_ ?_ rfl⟩
  · exact
      { fixed := { h.fixed with code := h.fixed.code.emitAll _ }
        around := h.around.of_frame hstep.frame
        ints := h.ints_of_frame hstep.frame
        vecs := hat
        ca := fun b hb => (h.ca b hb).of_frame hstep.frame }
  · refine ⟨fun _ _ hb => hb, ?_, hstep.keeps.bound, ?_⟩
    · intro r x hx
      exact ⟨hx.owns, (Frame.getX_of_vector hstep.frame r).trans hx.val⟩
    · intro r x hx
      have := hstep.keeps.has r x ⟨hx.owns, hx.val⟩
      exact ⟨this.1, this.2⟩

section Slots

variable {k : Nat} {held locked : RegSet} {hole : Option GuestReg} {p : Bank 32 Precision}
  {pd : Bank 32 (Option Precision)}

theorem Sim.readFpr_spec (h : Sim s ⟨iu, carry, ⟨⟨k + 1, held, locked, none⟩, p, pd⟩⟩ c e m)
    (reg : GuestReg) : wp (readFpr reg) (fun r e' m' =>
      Sim s ⟨iu, carry, ⟨⟨k, held, locked, none⟩, p, pd⟩⟩ c e' m' ∧ Keeps e m e' m' ∧
        e'.HasV m' r (c.ps reg) ∧ e'.vectors.cache.Bound reg r) e m := by
  obtain ⟨grant, m', hok, hstep, hat, hb, -⟩ := h.vecs.read reg
  refine h.requestVector_spec hok hstep hat ?_
  intro e' h' hk he
  refine ⟨h', hk, ?_, he ▸ hb⟩
  have := hat.has hb (by simp)
  exact ⟨he ▸ this.1, this.2⟩

/-- A write gives a register for the new value and notes its precision. The slot has no value until
the register is written. -/
theorem Sim.writeFpr_spec (h : Sim s ⟨iu, carry, ⟨⟨k + 1, held, locked, none⟩, p, pd⟩⟩ c e m)
    (reg : GuestReg) (keep : Bool) (precision : Precision) :
    wp (writeFpr reg keep precision) (fun r e' m' =>
      Sim s ⟨iu, carry, ⟨⟨k, held, locked, some reg⟩, p, pd.set reg (some precision)⟩⟩ c e' m' ∧
        Keeps e m e' m' ∧ e'.vectors.cache.Bound reg r ∧
        (keep = true → m'.getV r = c.ps reg)) e m := by
  have hreq : wp (requestVector fun access cache => Cache.write access cache reg keep)
      (fun r e' m' => Sim s ⟨iu, carry, ⟨⟨k, held, locked, some reg⟩, p, pd⟩⟩ c e' m' ∧
        Keeps e m e' m' ∧ e'.vectors.cache.Bound reg r ∧
        (keep = true → m'.getV r = c.ps reg)) e m := by
    obtain ⟨grant, m', hok, hstep, hat, hb, hkeep⟩ := h.vecs.write reg keep
    refine h.requestVector_spec hok hstep hat ?_
    intro e' h' hk he
    exact ⟨h', hk, he ▸ hb, hkeep⟩
  refine wp_bind hreq ?_
  rintro r e₁ m₁ ⟨h₁, hk₁, hb, hkeep⟩
  have hpending : e₁.vectors.pending = pd := h₁.fixed.pending
  refine wp_bind (wp_modify rfl (Q := fun _ e₂ m₂ =>
    Sim s ⟨iu, carry, ⟨⟨k, held, locked, some reg⟩, p, pd.set reg (some precision)⟩⟩ c e₂ m₂ ∧
      Keeps e m e₂ m₂ ∧ e₂.vectors.cache.Bound reg r ∧ (keep = true → m₂.getV r = c.ps reg))
    ⟨?_, ?_, hb, hkeep⟩) ?_
  · refine ⟨{ h₁.fixed with pending := ?_ }, h₁.around, h₁.ints, h₁.vecs, h₁.ca⟩
    simp only [Vectors.setPending, hpending]
  · exact hk₁.trans ⟨fun _ _ hb => hb, fun hx => ⟨hx.owns, hx.val⟩, fun _ _ hb => hb,
      fun hx => ⟨hx.owns, hx.val⟩⟩
  · intro _ e₂ m₂ hq
    exact wp_pure hq

theorem Sim.scratchVector_spec (h : Sim s ⟨iu, carry, ⟨⟨k + 1, held, locked, hole⟩, p, pd⟩⟩ c e m) :
    wp scratchVector (fun r e' m' =>
      Sim s ⟨iu, carry, ⟨⟨k, held.insert r, locked, hole⟩, p, pd⟩⟩ c e' m' ∧ Keeps e m e' m' ∧
        held.contains r = false ∧ e'.vectors.cache.Owns r ∧
        ∀ q, e.vectors.cache.Owns q → q ≠ r) e m := by
  obtain ⟨grant, m', hok, hstep, hat, hheld, hown, hne⟩ := h.vecs.scratch
  refine h.requestVector_spec hok hstep hat ?_
  intro e' h' hk he
  exact ⟨h', hk, hheld, he ▸ hown, hne⟩

end Slots

/-! ## Code that writes one vector register -/

/-- The machines agree, except for one vector register, the register for short-lived constants and
the flags. -/
structure SameButV (dst : HostReg) (m m' : Machine) : Prop where
  x : m'.x = m.x
  v : ∀ r, r ≠ dst → r ≠ vectorScratch → m'.getV r = m.getV r
  state : m'.state = m.state
  stack : m'.stack = m.stack
  flush : m'.flush = m.flush
  interpreter : m'.interpreter = m.interpreter

namespace SameButV

theorem refl (dst : HostReg) (m : Machine) : SameButV dst m m :=
  ⟨rfl, fun _ _ _ => rfl, rfl, rfl, rfl, rfl⟩

theorem trans {l m n : Machine} (h : SameButV dst l m) (h' : SameButV dst m n) :
    SameButV dst l n :=
  ⟨h'.x.trans h.x, fun r hr hs => (h'.v r hr hs).trans (h.v r hr hs), h'.state.trans h.state,
    h'.stack.trans h.stack, h'.flush.trans h.flush, h'.interpreter.trans h.interpreter⟩

theorem setV (m : Machine) (dst : HostReg) (v : BitVec 128) : SameButV dst m (m.setV dst v) := by
  refine ⟨rfl, ?_, rfl, rfl, rfl, rfl⟩
  intro r hr _
  rw [Machine.getV_setV, if_neg hr]

theorem scratch (m : Machine) (dst : HostReg) (v : BitVec 128) :
    SameButV dst m (m.setV vectorScratch v) := by
  refine ⟨rfl, ?_, rfl, rfl, rfl, rfl⟩
  intro r _ hs
  rw [Machine.getV_setV, if_neg hs]

theorem flags (h : SameButV dst m m') (flags : Flags) : SameButV dst m { m' with flags } :=
  ⟨h.x, h.v, h.state, h.stack, h.flush, h.interpreter⟩

theorem getX (h : SameButV dst m m') (r : HostReg) : m'.getX r = m.getX r := by
  simp only [Machine.getX, h.x]

end SameButV

/-- No floating-point slot is in the register, except one that is not written yet. -/
def LooseV (f : FloatStage) (e : Emitter) (dst : HostReg) : Prop :=
  ∀ reg, e.vectors.cache.binding reg = .host dst → f.usage.hole = some reg

theorem Sim.looseV_bound (h : Sim s ⟨iu, carry, f⟩ c e m) (hb : e.vectors.cache.Bound reg dst)
    (hh : f.usage.hole = some reg) : LooseV f e dst := by
  intro reg' hb'
  rw [hh, h.vecs.ready.owned.host_inj hb.1 hb']

theorem Sim.looseV_held (h : Sim s ⟨iu, carry, f⟩ c e m) (hr : f.usage.held.contains dst = true) :
    LooseV f e dst := by
  intro reg hb
  have := h.vecs.ready.owned.not_scratch hb
  rw [h.vecs.ready.held, hr] at this
  simp at this

theorem Sim.looseV_of_not_mem (h : Sim s ⟨iu, carry, f⟩ c e m) (hd : dst ∉ s.vecs.order) :
    LooseV f e dst := by
  intro reg hb
  have := h.vecs.ready.owned.owner_mem dst reg ((h.vecs.ready.owned.owner_iff dst reg).2 hb)
  rw [h.vecs.ready.order] at this
  exact absurd this hd

theorem Sim.mem_vecs_order (h : Sim s ⟨iu, carry, f⟩ c e m) (hd : e.vectors.cache.Owns dst) :
    dst ∈ s.vecs.order := h.vecs.ready.mem_order hd

theorem Sim.ne_vectorScratch (h : Sim s ⟨iu, carry, f⟩ c e m) (hd : e.vectors.cache.Owns dst) :
    dst ≠ vectorScratch := by
  rintro rfl
  exact s.vectorScratch_not_mem (h.mem_vecs_order hd)

theorem Sim.ownsV_held (h : Sim s ⟨iu, carry, f⟩ c e m) (hr : f.usage.held.contains dst = true) :
    e.vectors.cache.Owns dst :=
  .inr (by rw [h.vecs.ready.held, hr])

def Contents.setFpscr (c : Contents) (status : BitVec 32) : Contents := { c with fpscr := status }

/-- Another machine for the same emitter: the registers of slots that have a value are the same, and
in guest memory at most the status word is different. -/
theorem Sim.of_machine (h : Sim s ⟨iu, .inGuestState, f⟩ c e m) (m' : Machine) (status : BitVec 32)
    (hx : ∀ slot r, e.integers.binding slot = .host r → iu.hole ≠ some slot →
      m'.getX r = m.getX r)
    (hv : ∀ reg r, e.vectors.cache.binding reg = .host r → f.usage.hole ≠ some reg →
      m'.getV r = m.getV r)
    (hon : m'.state.On s.layout) (hstatus : m'.state.fetch .fpscr = status)
    (hcell : ∀ cell, cell ≠ .fpscr → m'.state.fetch cell = m.state.fetch cell)
    (hstack : m'.stack = m.stack) (hflush : m'.flush = m.flush)
    (hinter : m'.interpreter = m.interpreter) :
    Sim s ⟨iu, .inGuestState, f⟩ (c.setFpscr status) e m' where
  fixed := { h.fixed with }
  around :=
    { stack := hstack.trans h.around.stack
      flush := hflush.trans h.around.flush
      interpreter := hinter.trans h.around.interpreter
      soOv := (hcell .xerSoOv (by simp)).trans h.around.soOv
      fpscr := hstatus }
  ints := by
    have hslot : (c.setFpscr status).slot = c.slot := rfl
    rw [hslot]
    refine h.ints.of_kept hon hx ?_
    intro slot
    refine congrArg (BitVec.setWidth 64) (hcell _ fun he => ?_)
    have hcls := IntSlot.cls_cell slot
    rw [he] at hcls
    simp [PowerPC.Cell.cls] at hcls
  vecs := h.vecs.of_kept hon hv fun reg => hcell (.ps reg) (by simp)
  ca b hb := (hcell .xerCa (by simp)).trans (h.ca b hb)

/-- The instruction loses nothing that it relies on, except one vector register. -/
structure KeepsButV (dst : HostReg) (e : Emitter) (m : Machine) (e' : Emitter) (m' : Machine) :
    Prop where
  bound : ∀ slot r, e.integers.Bound slot r → e'.integers.Bound slot r
  has : ∀ {r v}, e.Has m r v → e'.Has m' r v
  boundV : ∀ slot r, e.vectors.cache.Bound slot r → e'.vectors.cache.Bound slot r
  hasV : ∀ {r v}, r ≠ dst → e.HasV m r v → e'.HasV m' r v

/-- A vector register that the instruction did not rely on may be lost. -/
theorem Keeps.butV {e₁ e₂ e₃ : Emitter} {m₁ m₂ m₃ : Machine} {r : HostReg} (h : Keeps e₁ m₁ e₂ m₂)
    (h' : KeepsButV r e₂ m₂ e₃ m₃) (hne : ∀ q, e₁.vectors.cache.Owns q → q ≠ r) :
    Keeps e₁ m₁ e₃ m₃ where
  bound slot q hb := h'.bound slot q (h.bound slot q hb)
  has hv := h'.has (h.has hv)
  boundV slot q hb := h'.boundV slot q (h.boundV slot q hb)
  hasV hv := h'.hasV (hne _ hv.owns) (h.hasV hv)

/-- Another machine for the same emitter. -/
theorem Sim.of_sameV (h : Sim s ⟨iu, .inGuestState, f⟩ c e m) (hl : LooseV f e dst)
    (hm : SameButV dst m m') : Sim s ⟨iu, .inGuestState, f⟩ c e m' := by
  have hstate : ∀ cell, m'.state.fetch cell = m.state.fetch cell := by
    intro cell
    rw [hm.state]
  have hon : m'.state.On s.layout := by
    rw [hm.state]
    exact h.vecs.holds.on
  refine h.of_machine m' c.fpscr (fun _ r _ _ => hm.getX r) ?_ hon
    ((hstate .fpscr).trans h.around.fpscr) (fun cell _ => hstate cell) hm.stack hm.flush
    hm.interpreter
  intro reg r hb hhole
  refine hm.v r ?_ ?_
  · rintro rfl
    exact hhole (hl reg hb)
  · rintro rfl
    exact s.vectorScratch_not_mem (h.vecs.ready.order ▸ h.vecs.ready.owned.owner_mem _ reg
      ((h.vecs.ready.owned.owner_iff _ reg).2 hb))

theorem Sim.keeps_of_sameV (h : Sim s ⟨iu, carry, f⟩ c e m) (hm : SameButV dst m m')
    (hi : e'.integers = e.integers) (hv : e'.vectors = e.vectors) : KeepsButV dst e m e' m' where
  bound _ _ hb := hi ▸ hb
  has hx := ⟨hi ▸ hx.owns, (hm.getX _).trans hx.val⟩
  boundV _ _ hb := hv ▸ hb
  hasV hr hx := ⟨hv ▸ hx.owns, (hm.v _ hr (h.ne_vectorScratch hx.owns)).trans hx.val⟩

/-- Instructions that write a vector register that no slot needs. -/
theorem Sim.emitAllV (h : Sim s ⟨iu, .inGuestState, f⟩ c e m) {insts : List Inst}
    (hl : LooseV f e dst) (hexec : m.execAll insts = some m') (hm : SameButV dst m m') :
    wp (emitAll insts) (fun _ e₁ m₁ => Sim s ⟨iu, .inGuestState, f⟩ c e₁ m₁ ∧
      KeepsButV dst e m e₁ m₁ ∧ m₁ = m') e m :=
  wp_emitAll h.fixed.code hexec
    ⟨(h.of_sameV hl hm).with_buffer (h.fixed.code.emitAll insts), h.keeps_of_sameV hm rfl rfl, rfl⟩

theorem Sim.emitV (h : Sim s ⟨iu, .inGuestState, f⟩ c e m) {inst : Inst} (hl : LooseV f e dst)
    (hs : m.step inst = .next m') (hm : SameButV dst m m') :
    wp (emit inst) (fun _ e₁ m₁ => Sim s ⟨iu, .inGuestState, f⟩ c e₁ m₁ ∧
      KeepsButV dst e m e₁ m₁ ∧ m₁ = m') e m :=
  wp_emit h.fixed.code hs
    ⟨(h.of_sameV hl hm).with_code inst, h.keeps_of_sameV hm rfl rfl, rfl⟩

/-- An instruction that writes the flags only. -/
theorem Sim.emitCompare (h : Sim s ⟨iu, .inGuestState, f⟩ c e m) {inst : Inst} {flags : Flags}
    (hs : m.step inst = .next { m with flags }) :
    wp (emit inst) (fun _ e₁ m₁ => Sim s ⟨iu, .inGuestState, f⟩ c e₁ m₁ ∧ Keeps e m e₁ m₁ ∧
      m₁ = { m with flags }) e m := by
  have hsame := (SameButV.refl vectorScratch m).flags flags
  refine wp_emit h.fixed.code hs ⟨?_, ⟨fun _ _ hb => hb, fun hx => ⟨hx.owns, hx.val⟩,
    fun _ _ hb => hb, fun hx => ⟨hx.owns, hx.val⟩⟩, rfl⟩
  exact (h.of_sameV (h.looseV_of_not_mem s.vectorScratch_not_mem) hsame).with_code inst

section Stages

variable {k : Nat} {held locked : RegSet} {hole : Option GuestReg} {p : Bank 32 Precision}
  {pd : Bank 32 (Option Precision)}

theorem Sim.releaseVector_spec {r : HostReg}
    (h : Sim s ⟨iu, carry, ⟨⟨k, held.insert r, locked, hole⟩, p, pd⟩⟩ c e m)
    (hr : held.contains r = false) : wp (releaseVector r) (fun _ e' m' =>
      Sim s ⟨iu, carry, ⟨⟨k + 1, held, locked, hole⟩, p, pd⟩⟩ c e' m' ∧
        KeepsButV r e m e' m' ∧ m' = m) e m := by
  obtain ⟨hat, hhas⟩ := h.vecs.release hr
  refine wp_modify rfl ⟨⟨{ h.fixed with }, h.around, h.ints, hat, h.ca⟩, ⟨fun _ _ hb => hb,
    fun hx => ⟨hx.owns, hx.val⟩, fun _ _ hb => hb, ?_⟩, rfl⟩
  intro q x hq hx
  have := hhas q x hq ⟨hx.owns, hx.val⟩
  exact ⟨this.1, this.2⟩

/-- A slot whose register has been written has the value of the register. -/
theorem Sim.closePs (h : Sim s ⟨iu, carry, ⟨⟨k, held, locked, some reg⟩, p, pd⟩⟩ c e m)
    (hb : e.vectors.cache.Bound reg dst) (hv : m.getV dst = v) :
    Sim s ⟨iu, carry, ⟨⟨k, held, locked, none⟩, p, pd⟩⟩ (c.setPs reg v) e m where
  fixed := { h.fixed with }
  around := { h.around with }
  ints := h.ints
  vecs := h.vecs.close hb hv trivial
  ca := h.ca

/-- The instructions that give a floating-point register its new value. -/
theorem Sim.emitAllPs
    (h : Sim s ⟨iu, .inGuestState, ⟨⟨k, held, locked, some reg⟩, p, pd⟩⟩ c e m)
    {insts : List Inst} (hb : e.vectors.cache.Bound reg dst) (hexec : m.execAll insts = some m')
    (hm : SameButV dst m m') (hv : m'.getV dst = v) :
    wp (emitAll insts) (fun _ e₁ m₁ =>
      Sim s ⟨iu, .inGuestState, ⟨⟨k, held, locked, none⟩, p, pd⟩⟩ (c.setPs reg v) e₁ m₁ ∧
        KeepsButV dst e m e₁ m₁ ∧ e₁.vectors.cache.Bound reg dst ∧ m₁.getV dst = v) e m := by
  refine wp_mono (h.emitAllV (h.looseV_bound hb rfl) hexec hm) ?_
  rintro - e₁ m₁ ⟨h₁, hk₁, rfl⟩
  exact ⟨h₁.closePs (hk₁.boundV _ _ hb) hv, hk₁, hk₁.boundV _ _ hb, hv⟩

end Stages

end Emit

end Recompiler
