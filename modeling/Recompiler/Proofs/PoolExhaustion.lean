import Recompiler.Proofs.VectorSlots

/-!
# Exhausted pools

A pool is exhausted when none of its registers is free and none can be taken from its owner. A
request for a register fails exactly when it needs a new one and the pool is exhausted. The caches
decide this before they evict anything or emit code, so a request that fails leaves no trace.
-/

namespace Recompiler

open Arm PowerPC

namespace Emit

open Alloc

variable {e e' : Emitter} {f : Fault}

/-- A request keeps what the cache did before it refused. -/
theorem run_requestInteger_eq_error
    {request : Access 40 → Cache 40 → Except (Refusal 40) (Grant 40)} :
    (requestInteger request).run.run e = (.error f, e') ↔
      ∃ refused, request (.integer e.layout) e.integers = .error refused ∧ f = refused.fault ∧
        e' = { e with integers := refused.cache, code := e.code.emitAll refused.code } := by
  cases hrequest : request (.integer e.layout) e.integers with
  | ok grant =>
    rw [run_requestInteger hrequest]
    constructor
    · rintro ⟨⟩
    · rintro ⟨refused, ⟨⟩, -⟩
  | error refused =>
    unfold requestInteger
    rw [run_get_bind, hrequest]
    constructor
    · rintro ⟨⟩
      exact ⟨refused, rfl, rfl, rfl⟩
    · rintro ⟨refused', ⟨⟩, rfl, rfl⟩
      rfl

theorem run_requestVector_eq_error
    {request : Access 32 → Cache 32 → Except (Refusal 32) (Grant 32)} :
    (requestVector request).run.run e = (.error f, e') ↔
      ∃ refused, request (.vector e.layout) e.vectors.cache = .error refused ∧ f = refused.fault ∧
        e' = { e with
          vectors := { e.vectors with cache := refused.cache }
          code := e.code.emitAll refused.code } := by
  cases hrequest : request (.vector e.layout) e.vectors.cache with
  | ok grant =>
    rw [run_requestVector hrequest]
    constructor
    · rintro ⟨⟩
    · rintro ⟨refused, ⟨⟩, -⟩
  | error refused =>
    unfold requestVector
    rw [run_get_bind, hrequest]
    constructor
    · rintro ⟨⟩
      exact ⟨refused, rfl, rfl, rfl⟩
    · rintro ⟨refused', ⟨⟩, rfl, rfl⟩
      rfl

/-- A step followed by one that never fails. -/
theorem run_bind_eq_error {α β : Type} {prog : EmitM α} {g : α → EmitM β}
    (hg : ∀ a e, ∃ b e', (g a).run.run e = (.ok b, e')) :
    (prog >>= g).run.run e = (.error f, e') ↔ prog.run.run e = (.error f, e') := by
  rw [ExceptT.run_bind, StateT.run_bind]
  rcases prog.run.run e with ⟨result, after⟩
  cases result with
  | error fault =>
    constructor <;> rintro ⟨⟩ <;> rfl
  | ok a =>
    obtain ⟨b, last, hrun⟩ := hg a after
    change (g a).run.run after = _ ↔ _
    rw [hrun]
    constructor
    · rintro ⟨⟩
    · rintro ⟨⟩

/-- A request fails exactly when it is denied, always with the same fault, and leaves everything as
it was. -/
def FailsExactlyIf (denied : Prop) (fault : Fault) (request : EmitM HostReg) (e : Emitter) : Prop :=
  ∀ f e', request.run.run e = (.error f, e') ↔ denied ∧ f = fault ∧ e' = e

/-- A request of the integer cache that refuses only by doing nothing. -/
theorem failsExactlyIf_requestInteger
    {request : Access 40 → Cache 40 → Except (Refusal 40) (Grant 40)} {denied : Prop}
    (h : ∀ refused, request (.integer e.layout) e.integers = .error refused ↔
      denied ∧ refused = e.integers.refusal) :
    FailsExactlyIf denied e.integers.exhaustion (requestInteger request) e := by
  intro f e'
  rw [run_requestInteger_eq_error]
  constructor
  · rintro ⟨refused, hrefused, rfl, rfl⟩
    obtain ⟨hdenied, rfl⟩ := (h refused).1 hrefused
    exact ⟨hdenied, rfl, rfl⟩
  · rintro ⟨hdenied, rfl, rfl⟩
    exact ⟨e'.integers.refusal, (h _).2 ⟨hdenied, rfl⟩, rfl, rfl⟩

theorem failsExactlyIf_requestVector
    {request : Access 32 → Cache 32 → Except (Refusal 32) (Grant 32)} {denied : Prop}
    (h : ∀ refused, request (.vector e.layout) e.vectors.cache = .error refused ↔
      denied ∧ refused = e.vectors.cache.refusal) :
    FailsExactlyIf denied e.vectors.cache.exhaustion (requestVector request) e := by
  intro f e'
  rw [run_requestVector_eq_error]
  constructor
  · rintro ⟨refused, hrefused, rfl, rfl⟩
    obtain ⟨hdenied, rfl⟩ := (h refused).1 hrefused
    exact ⟨hdenied, rfl, rfl⟩
  · rintro ⟨hdenied, rfl, rfl⟩
    exact ⟨e'.vectors.cache.refusal, (h _).2 ⟨hdenied, rfl⟩, rfl, rfl⟩

/-- Requests for registers fail exactly when they need a new register and the pool is exhausted. The
emitter, with both caches, the count of evictions and the code, is then what it was before. This
holds of all caches, whatever operations led to them. -/
theorem exhaustion_is_exact_and_harmless (e : Emitter) :
    (∀ slot, FailsExactlyIf (e.integers.Denies slot) e.integers.exhaustion (readSlot slot) e) ∧
    (∀ slot keep, FailsExactlyIf (e.integers.Denies slot) e.integers.exhaustion
      (writeSlot slot keep) e) ∧
    (∀ slot, FailsExactlyIf (e.integers.Denies slot) e.integers.exhaustion (readWord slot) e) ∧
    (∀ slot keep, FailsExactlyIf (e.integers.Denies slot) e.integers.exhaustion
      (writeWord slot keep) e) ∧
    FailsExactlyIf e.integers.pool.Exhausted e.integers.exhaustion scratch e ∧
    (∀ reg, FailsExactlyIf (e.vectors.cache.Denies reg) e.vectors.cache.exhaustion
      (readFpr reg) e) ∧
    (∀ reg keep precision, FailsExactlyIf (e.vectors.cache.Denies reg)
      e.vectors.cache.exhaustion (writeFpr reg keep precision) e) ∧
    FailsExactlyIf e.vectors.cache.pool.Exhausted e.vectors.cache.exhaustion scratchVector e := by
  refine ⟨?_, ?_, ?_, ?_, ?_, ?_, ?_, ?_⟩
  · intro slot
    exact failsExactlyIf_requestInteger fun _ => Cache.read_eq_error _
  · intro slot keep
    exact failsExactlyIf_requestInteger fun _ => Cache.write_eq_error _
  · intro slot f e'
    rw [readWord, run_get_bind]
    exact failsExactlyIf_requestInteger (fun _ => Cache.read_eq_error _) f e'
  · intro slot keep f e'
    rw [writeWord, run_get_bind]
    exact failsExactlyIf_requestInteger (fun _ => Cache.write_eq_error _) f e'
  · exact failsExactlyIf_requestInteger fun _ => Cache.scratch_eq_error _
  · intro reg
    exact failsExactlyIf_requestVector fun _ => Cache.read_eq_error _
  · -- the precision of a value is noted once there is a register for it
    intro reg keep precision f e'
    rw [writeFpr, run_bind_eq_error]
    · exact failsExactlyIf_requestVector (fun _ => Cache.write_eq_error _) f e'
    · exact fun host e => ⟨host, _, rfl⟩
  · exact failsExactlyIf_requestVector fun _ => Cache.scratch_eq_error _

/-- An instruction that reads two registers leaves nothing of a pool of two. -/
example : ((do let _ ← readGpr 3; let _ ← readGpr 4; scratch : EmitM HostReg).run.run
    (Emitter.new { generalPool := some [19, 20] } .standard)).1 =
      .error (.poolExhausted .general 2 2) := rfl

end Emit

end Recompiler
