import Recompiler.Proofs.BlockAccounts

/-!
# Labels and branches

A buffer is written step by step: labels are made and placed, instructions and branches go to the
region that is current. What was written can be told from the steps alone: the lines of each region,
and for each label the place where it was put last. Finishing the buffer succeeds exactly when every
branch is one and its label was placed, and it then leads each branch to that place.
-/

namespace Recompiler.Emit

open Arm

/-! ## What steps write -/

/-- An instruction as it was written, with the label that it branches to. -/
structure Line where
  inst : Inst
  label : Option Nat

namespace Asm

/-- The line that a step writes. -/
def line? : Asm → Option Line
  | .emit i => some ⟨i, none⟩
  | .branch i target => some ⟨i, some target⟩
  | .label | .place _ | .switch _ => none

def isLabel : Asm → Bool
  | .label => true
  | _ => false

/-- Whether a step places only a label that was made. -/
def isSound (made : Nat) : Asm → Bool
  | .place target => target < made
  | _ => true

/-- Whether steps place only labels that were made before, by them or among the first `made`. -/
def areSound (made : Nat) : List Asm → Bool
  | [] => true
  | step :: steps =>
    step.isSound made && areSound (if step.isLabel then made + 1 else made) steps

/-- The region after a step. -/
def regionAfter (current : Region) : Asm → Region
  | .switch region => region
  | _ => current

/-- The lines that steps write to a region. -/
def linesFrom (current region : Region) : List Asm → List Line
  | [] => []
  | step :: steps =>
    (if current = region then step.line?.toList else []) ++
      linesFrom (step.regionAfter current) region steps

theorem linesFrom_concat (steps : List Asm) (step : Asm) (current region : Region) :
    linesFrom current region (steps ++ [step]) = linesFrom current region steps ++
      if steps.foldl regionAfter current = region then step.line?.toList else [] := by
  induction steps generalizing current with
  | nil => exact List.append_nil _
  | cons first steps ih =>
    rw [List.cons_append, linesFrom, ih, linesFrom, List.append_assoc]
    rfl

theorem areSound_concat (steps : List Asm) (step : Asm) (made : Nat) :
    areSound made (steps ++ [step]) =
      (areSound made steps && step.isSound (made + steps.countP isLabel)) := by
  induction steps generalizing made with
  | nil => simp [areSound]
  | cons first steps ih =>
    rw [List.cons_append, areSound, ih, areSound, List.countP_cons, Bool.and_assoc]
    cases first.isLabel <;> simp [Nat.add_assoc, Nat.add_comm 1]

/-- Steps write a branch to one of the regions. -/
theorem mem_linesFrom (steps : List Asm) (current : Region) (i : Inst) (label : Nat) :
    (∃ region, ⟨i, some label⟩ ∈ linesFrom current region steps) ↔ .branch i label ∈ steps := by
  induction steps generalizing current with
  | nil => simp [linesFrom]
  | cons step steps ih =>
    have hstep : (∃ region, (⟨i, some label⟩ : Line) ∈
        if current = region then step.line?.toList else []) ↔ .branch i label = step := by
      cases step <;> simp [line?]
    simp only [linesFrom, List.mem_append, exists_or, hstep, ih, List.mem_cons]

end Asm

/-- Steps that write a buffer from its beginning. -/
abbrev Script := List Asm

namespace Script

/-- The region where the script ends. -/
def region (script : Script) : Region := script.foldl Asm.regionAfter .near

def lines (script : Script) (region : Region) : List Line := Asm.linesFrom .near region script

/-- Where the next line goes. -/
def here (script : Script) : Position := ⟨script.region, (script.lines script.region).length⟩

def line? (script : Script) (pos : Position) : Option Line := (script.lines pos.region)[pos.index]?

/-- All lines, far lines after near lines. -/
def listing (script : Script) : List Line := script.lines .near ++ script.lines .far

/-- The index of a place in the listing. -/
def index (script : Script) (pos : Position) : Nat :=
  CodeBuffer.indexFrom (script.lines .near).length pos

/-- The last step that places the label places it at `pos`. -/
def PlacesLast (script : Script) (label : Nat) (pos : Position) : Prop :=
  ∃ before later, script = before ++ .place label :: later ∧ Asm.place label ∉ later ∧
    pos = here before

/-- The code is the listing, with each branch led to the last place of its label. -/
structure Resolved (script : Script) (code : Array Inst) : Prop where
  size : code.size = script.listing.length
  plain : ∀ (p : Nat) (line : Line), script.listing[p]? = some line → line.label = none →
    code[p]? = some line.inst
  branch : ∀ (p : Nat) (line : Line) (label : Nat), script.listing[p]? = some line →
    line.label = some label →
    ∃ (inst : Inst) (offset : Int) (pos : Position), code[p]? = some inst ∧
      line.inst.withOffset? offset = some inst ∧ script.PlacesLast label pos ∧
      p + offset = script.index pos ∧ -2 ^ 31 ≤ offset ∧ offset < 2 ^ 31

/-- Every branch is one, and its label is placed somewhere. -/
def Resolvable (script : Script) : Prop :=
  ∀ i label, .branch i label ∈ script → i.isBranch = true ∧ .place label ∈ script

variable {script : Script} {step : Asm} {label : Nat} {pos : Position}

theorem region_concat (script : Script) (step : Asm) :
    region (script ++ [step]) = step.regionAfter script.region := by
  simp [region]

theorem lines_concat (script : Script) (step : Asm) (region : Region) :
    lines (script ++ [step]) region =
      script.lines region ++ if script.region = region then step.line?.toList else [] :=
  Asm.linesFrom_concat script step .near region

theorem line?_here (script : Script) : script.line? script.here = none := by
  simp [line?, here]

/-- A step writes its line, if it has one, and nothing else. -/
theorem line?_concat (script : Script) (step : Asm) (pos : Position) :
    line? (script ++ [step]) pos = if pos = script.here then step.line? else script.line? pos := by
  rcases pos with ⟨region, index⟩
  simp only [line?, lines_concat, here, Position.mk.injEq]
  by_cases hregion : script.region = region
  · subst hregion
    simp only [if_true, true_and]
    rcases Nat.lt_trichotomy index (script.lines script.region).length with hlt | heq | hgt
    · rw [List.getElem?_append_left hlt, if_neg (Nat.ne_of_lt hlt)]
    · rw [List.getElem?_append_right (Nat.le_of_eq heq.symm), if_pos heq, heq, Nat.sub_self]
      cases step.line? <;> rfl
    · have hlength : step.line?.toList.length ≤ 1 := by cases step.line? <;> simp
      rw [if_neg (Nat.ne_of_gt hgt), List.getElem?_eq_none (Nat.le_of_lt hgt),
        List.getElem?_eq_none (by rw [List.length_append]; omega)]
  · rw [if_neg hregion, if_neg (fun h => hregion h.1.symm), List.append_nil]

/-! ## Where labels are placed -/

/-- A step in a script with one more step is that step, or was in the script before. -/
theorem split_concat {before later : Script} {other : Asm}
    (h : script ++ [step] = before ++ other :: later) :
    (later = [] ∧ before = script ∧ other = step) ∨
      ∃ rest, later = rest ++ [step] ∧ script = before ++ other :: rest := by
  rcases List.eq_nil_or_concat later with rfl | ⟨rest, last, rfl⟩
  · obtain ⟨hscript, hstep⟩ := List.append_inj' h rfl
    exact .inl ⟨rfl, hscript.symm, (List.cons.inj hstep).1.symm⟩
  · rw [List.concat_eq_append, ← List.cons_append, ← List.append_assoc] at h
    obtain ⟨hscript, hstep⟩ := List.append_inj' h rfl
    rw [List.concat_eq_append, hstep]
    exact .inr ⟨rest, rfl, hscript⟩

theorem placesLast_concat_self :
    PlacesLast (script ++ [.place label]) label pos ↔ pos = script.here := by
  constructor
  · rintro ⟨before, later, hsplit, hlater, rfl⟩
    rcases split_concat hsplit with ⟨-, rfl, -⟩ | ⟨rest, rfl, -⟩
    · rfl
    · exact absurd (by simp) hlater
  · rintro rfl
    exact ⟨script, [], rfl, by simp, rfl⟩

theorem placesLast_concat_of_ne (h : step ≠ .place label) :
    PlacesLast (script ++ [step]) label pos ↔ script.PlacesLast label pos := by
  constructor
  · rintro ⟨before, later, hsplit, hlater, rfl⟩
    rcases split_concat hsplit with ⟨-, -, hstep⟩ | ⟨rest, rfl, hscript⟩
    · exact absurd hstep.symm h
    · exact ⟨before, rest, hscript, fun hmem => hlater (by simp [hmem]), rfl⟩
  · rintro ⟨before, later, rfl, hlater, rfl⟩
    refine ⟨before, later ++ [step], by simp, ?_, rfl⟩
    simp [hlater, h.symm]

theorem exists_placesLast : (∃ pos, script.PlacesLast label pos) ↔ .place label ∈ script := by
  induction script using List.reverseRecOn with
  | nil => simp [PlacesLast]
  | append_singleton script step ih =>
    by_cases h : step = .place label
    · subst h
      simp [placesLast_concat_self]
    · simp [placesLast_concat_of_ne h, ih, Ne.symm h]

/-! ## The listing -/

theorem branch_mem {i : Inst} (h : script.line? pos = some ⟨i, some label⟩) :
    .branch i label ∈ script :=
  (Asm.mem_linesFrom script .near i label).1 ⟨pos.region, List.mem_of_getElem? h⟩

theorem exists_line_of_mem {i : Inst} (h : .branch i label ∈ script) :
    ∃ pos, script.line? pos = some ⟨i, some label⟩ := by
  obtain ⟨region, hmem⟩ := (Asm.mem_linesFrom script .near i label).2 h
  obtain ⟨index, hindex⟩ := List.mem_iff_getElem?.1 hmem
  exact ⟨⟨region, index⟩, hindex⟩

theorem exists_line_of_listing {p : Nat} {line : Line} (h : script.listing[p]? = some line) :
    ∃ pos, script.index pos = p ∧ script.line? pos = some line := by
  by_cases hlt : p < (script.lines .near).length
  · rw [listing, List.getElem?_append_left hlt] at h
    exact ⟨⟨.near, p⟩, rfl, h⟩
  · rw [listing, List.getElem?_append_right (by omega)] at h
    refine ⟨⟨.far, p - (script.lines .near).length⟩, ?_, h⟩
    simp only [index, CodeBuffer.indexFrom]
    omega

theorem length_lines_le (before later : Script) (region : Region) :
    (before.lines region).length ≤ (lines (before ++ later) region).length := by
  induction later using List.reverseRecOn with
  | nil => rw [List.append_nil]
  | append_singleton later step ih =>
    rw [← List.append_assoc, lines_concat, List.length_append]
    omega

/-- Labels are placed inside the listing or at its end. -/
theorem PlacesLast.index_le (h : script.PlacesLast label pos) :
    script.index pos ≤ script.listing.length := by
  obtain ⟨before, later, hsplit, -, rfl⟩ := h
  have hle := length_lines_le before (.place label :: later) before.region
  rw [← hsplit] at hle
  rw [listing, List.length_append, index, here]
  cases hregion : before.region <;> rw [hregion] at hle <;> simp only [CodeBuffer.indexFrom] <;>
    omega

end Script

/-! ## What a script writes to a buffer -/

namespace CodeBuffer

@[simp] theorem region_emit (b : CodeBuffer) (i : Inst) : (b.emit i).region = b.region := by
  unfold emit
  cases b.region <;> rfl

@[simp] theorem labels_emit (b : CodeBuffer) (i : Inst) : (b.emit i).labels = b.labels := by
  unfold emit
  cases b.region <;> rfl

@[simp] theorem fixups_emit (b : CodeBuffer) (i : Inst) : (b.emit i).fixups = b.fixups := by
  unfold emit
  cases b.region <;> rfl

theorem region_write (b : CodeBuffer) (base : Nat) (step : Asm) :
    (b.write base step).region = step.regionAfter b.region := by
  cases step <;> simp [write, branchTo, addLabel, placeLabel, switchTo, Asm.regionAfter]

theorem code_write (b : CodeBuffer) (base : Nat) (step : Asm) (region : Region) :
    ((b.write base step).code region).toList = (b.code region).toList ++
      (if b.region = region then step.line?.toList else []).map (·.inst) := by
  have hnone : step.line? = none → (b.write base step).code region = b.code region →
      ((b.write base step).code region).toList = (b.code region).toList ++
        (if b.region = region then step.line?.toList else []).map (·.inst) := by
    intro hline hcode
    simp [hline, hcode]
  cases step with
  | emit i =>
    rw [write, code_emit]
    split <;> rfl
  | branch i label =>
    rw [write, branchTo, code_emit]
    split <;> rfl
  | label | place label | switch _ => exact hnone rfl (by cases region <;> rfl)

/-- The buffer holds what the script wrote. -/
structure Holds (b : CodeBuffer) (script : Script) : Prop where
  region : b.region = script.region
  code : ∀ region, (b.code region).toList = (script.lines region).map (·.inst)
  labels : b.labels.size = script.countP Asm.isLabel
  place : ∀ label pos, b.place? label = some pos ↔ script.PlacesLast label pos
  fixup : ∀ pos label, ⟨pos, label⟩ ∈ b.fixups ↔
    (script.line? pos).bind (·.label) = some label
  once : (b.fixups.toList.map (·.branch)).Nodup

namespace Holds

variable {b : CodeBuffer} {script : Script} {step : Asm}

theorem size_code (h : b.Holds script) (region : Region) :
    (b.code region).size = (script.lines region).length := by
  rw [← Array.length_toList, h.code, List.length_map]

theorem inst? (h : b.Holds script) (pos : Position) :
    b.inst? pos = (script.line? pos).map (·.inst) := by
  rw [CodeBuffer.inst?, ← Array.getElem?_toList, h.code, List.getElem?_map]
  rfl

theorem here (h : b.Holds script) : b.here = script.here := by
  rw [CodeBuffer.here, h.size_code, h.region]
  rfl

theorem empty : Holds {} [] where
  region := rfl
  code region := by cases region <;> rfl
  labels := rfl
  place label pos := by simp [place?, Script.PlacesLast]
  fixup pos label := by simp [Script.line?, Script.lines, Asm.linesFrom]
  once := List.nodup_nil

theorem place_write (h : b.Holds script)
    (hsound : step.isSound (script.countP Asm.isLabel) = true) (label : Nat) (pos : Position) :
    (b.write 0 step).place? label = some pos ↔
      Script.PlacesLast (script ++ [step]) label pos := by
  by_cases hstep : step = .place label
  · subst hstep
    have hlt : label < b.labels.size := by
      rw [h.labels]
      exact of_decide_eq_true hsound
    rw [Script.placesLast_concat_self, ← h.here]
    simp [write, placeLabel, place?, hlt, eq_comm]
  · rw [Script.placesLast_concat_of_ne hstep, ← h.place]
    cases step with
    | label =>
      have hpush : (b.labels.push none)[label]?.join = b.labels[label]?.join := by
        rw [Array.getElem?_push]
        split
        · next heq => simp [heq]
        · rfl
      simp only [write, addLabel, place?, hpush]
    | place other =>
      have hne : other ≠ label := fun heq => hstep (heq ▸ rfl)
      simp [write, placeLabel, place?, Array.getElem?_setIfInBounds_ne hne]
    | branch i other => simp [write, branchTo, place?]
    | emit i => simp [write, place?]
    | switch region => rfl

theorem fixups_branch (h : b.Holds script) (i : Inst) (target : Nat) :
    (b.write 0 (.branch i target)).fixups = b.fixups.push ⟨script.here, target⟩ := by
  simp [write, branchTo, h.here]

theorem fixup_write (h : b.Holds script) (step : Asm) (pos : Position) (label : Nat) :
    ⟨pos, label⟩ ∈ (b.write 0 step).fixups ↔
      (Script.line? (script ++ [step]) pos).bind (·.label) = some label := by
  have hquiet : step.line?.bind (·.label) = none → (b.write 0 step).fixups = b.fixups →
      (⟨pos, label⟩ ∈ (b.write 0 step).fixups ↔
        (Script.line? (script ++ [step]) pos).bind (·.label) = some label) := by
    intro hlabel hfixups
    rw [hfixups, h.fixup, Script.line?_concat]
    split
    · next hpos => simp [hpos, Script.line?_here, hlabel]
    · rfl
  cases step with
  | branch i target =>
    rw [h.fixups_branch, Array.mem_push, h.fixup, Script.line?_concat, Fixup.mk.injEq]
    split
    · next hpos => simp [hpos, Script.line?_here, Asm.line?, eq_comm]
    · next hpos => simp [hpos]
  | emit i => exact hquiet rfl (by simp [write])
  | label | place other | switch region => exact hquiet rfl rfl

theorem once_write (h : b.Holds script) (step : Asm) :
    ((b.write 0 step).fixups.toList.map (·.branch)).Nodup := by
  cases step with
  | branch i target =>
    rw [h.fixups_branch, Array.toList_push, List.map_append, List.nodup_append]
    refine ⟨h.once, List.nodup_singleton _, ?_⟩
    intro pos hpos pos' hpos' heq
    obtain ⟨⟨pos, label⟩, hmem, rfl⟩ := List.mem_map.1 hpos
    have hline := (h.fixup pos label).1 (Array.mem_toList_iff.1 hmem)
    simp only [List.map_cons, List.map_nil, List.mem_singleton] at hpos'
    have hhere : pos = script.here := heq.trans hpos'
    rw [hhere, Script.line?_here] at hline
    cases hline
  | emit i =>
    rw [write, fixups_emit]
    exact h.once
  | label | place other | switch region => exact h.once

theorem write (h : b.Holds script) (hsound : step.isSound (script.countP Asm.isLabel) = true) :
    (b.write 0 step).Holds (script ++ [step]) where
  region := by rw [region_write, Script.region_concat, h.region]
  code region := by
    rw [code_write, Script.lines_concat, List.map_append, h.code, h.region]
  labels := by
    rw [List.countP_append, ← h.labels]
    cases step <;> simp [CodeBuffer.write, addLabel, placeLabel, branchTo, switchTo, Asm.isLabel]
  place := h.place_write hsound
  fixup := h.fixup_write step
  once := h.once_write step

/-- Every buffer that is written by steps holds what they wrote. -/
theorem writeAll {script : Script} (hsound : Asm.areSound 0 script = true) :
    (CodeBuffer.writeAll 0 {} script).Holds script := by
  -- from the end of the script, since what is placed last wins
  induction script using List.reverseRecOn with
  | nil => exact empty
  | append_singleton script step ih =>
    rw [Asm.areSound_concat, Nat.zero_add, Bool.and_eq_true] at hsound
    rw [writeAll_append]
    exact (ih hsound.1).write hsound.2

end Holds

/-! ## Finishing -/

theorem of_resolve {b : CodeBuffer} {code code' : Array Inst} {fixup : Fixup}
    (h : b.resolve code fixup = .ok code') : (∃ target, b.place? fixup.label = some target) ∧
      (code.map Inst.isBranch)[b.finalIndex fixup.branch]? = some true := by
  unfold resolve at h
  split at h
  · cases h
  · next target hplace =>
    dsimp only at h
    split at h
    · cases h
    · next inst hinst =>
      obtain ⟨old, hold, hoffset⟩ := Option.bind_eq_some_iff.1 hinst
      refine ⟨⟨target, hplace⟩, ?_⟩
      rw [Array.getElem?_map, hold, Option.map_some, (Inst.isBranch_of_withOffset hoffset).1]

/-- A buffer that can be finished has only branches to fill in, with placed labels. Branches that
are filled in stay branches, so each of them was one from the beginning. -/
theorem of_foldlM_resolve {b : CodeBuffer} {fixups : List Fixup} {start code : Array Inst}
    (h : fixups.foldlM b.resolve start = .ok code) : ∀ fixup ∈ fixups,
      (∃ target, b.place? fixup.label = some target) ∧
      (start.map Inst.isBranch)[b.finalIndex fixup.branch]? = some true := by
  induction fixups generalizing start with
  | nil => simp
  | cons first fixups ih =>
    rw [List.foldlM_cons] at h
    cases hfirst : b.resolve start first with
    | error fault =>
      rw [hfirst] at h
      cases h
    | ok next =>
      rw [hfirst] at h
      intro fixup hmem
      rcases List.mem_cons.1 hmem with rfl | hmem
      · exact of_resolve hfirst
      · have hrest := ih h fixup hmem
        rw [map_resolve (fun hi hi' => hi.trans hi'.symm) hfirst] at hrest
        exact hrest

namespace Holds

variable {b : CodeBuffer} {script : Script} {code : Array Inst}

/-- A branch that is to be filled in was written as one. -/
theorem line_of_fixup (h : b.Holds script) {fixup : Fixup} (hfixup : fixup ∈ b.fixups) :
    ∃ i, script.line? fixup.branch = some ⟨i, some fixup.label⟩ := by
  have hlabel := (h.fixup fixup.branch fixup.label).1 hfixup
  obtain ⟨⟨i, label⟩, hline, rfl⟩ := Option.bind_eq_some_iff.1 hlabel
  exact ⟨i, hline⟩

/-- Finishing does not look at the region. -/
theorem ok_switchTo (h : b.Holds script) (hbranch : script.Resolvable) :
    (b.switchTo .near).Ok := by
  refine ⟨rfl, ?_, ?_, h.once⟩
  · intro fixup hfixup
    obtain ⟨i, hline⟩ := h.line_of_fixup hfixup
    have hinst : b.inst? fixup.branch = some i := by rw [h.inst?, hline, Option.map_some]
    exact ⟨i, hinst, (hbranch i fixup.label (Script.branch_mem hline)).1⟩
  · intro fixup hfixup
    obtain ⟨i, hline⟩ := h.line_of_fixup hfixup
    obtain ⟨pos, hpos⟩ :=
      Script.exists_placesLast.2 (hbranch i fixup.label (Script.branch_mem hline)).2
    exact ⟨pos, (h.place fixup.label pos).2 hpos⟩

theorem resolvable_of_finish (h : b.Holds script) (hfinish : b.finish = .ok code) :
    script.Resolvable := by
  intro i label hmem
  obtain ⟨pos, hline⟩ := Script.exists_line_of_mem hmem
  have hfixup : (⟨pos, label⟩ : Fixup) ∈ b.fixups := (h.fixup pos label).2 (by rw [hline]; rfl)
  obtain ⟨⟨target, hplace⟩, hbranch⟩ :=
    of_foldlM_resolve hfinish ⟨pos, label⟩ (Array.mem_toList_iff.2 hfixup)
  have hinst : b.inst? pos = some i := by rw [h.inst?, hline, Option.map_some]
  rw [Array.getElem?_map, getElem?_finalIndex hinst, Option.map_some, Option.some.injEq] at hbranch
  exact ⟨hbranch, Script.exists_placesLast.1 ⟨target, (h.place label target).1 hplace⟩⟩

theorem size (h : b.Holds script) : b.size = script.listing.length := by
  rw [CodeBuffer.size, Script.listing, List.length_append]
  exact congrArg₂ (· + ·) (h.size_code .near) (h.size_code .far)

theorem index_eq (h : b.Holds script) (pos : Position) :
    indexFrom b.near.size pos = script.index pos := by
  have hbase : b.near.size = (script.lines .near).length := h.size_code .near
  rw [hbase, Script.index]

variable {p : Nat} {line : Line} {label : Nat} {target : Position}

theorem plain_of_laid (h : b.Holds script) (hlaid : Laid code b.near.size b.place? b)
    (hp : script.listing[p]? = some line) (hlabel : line.label = none) :
    code[p]? = some line.inst := by
  obtain ⟨pos, rfl, hline⟩ := Script.exists_line_of_listing hp
  rw [← h.index_eq]
  apply hlaid.plain pos
  · rw [h.inst?, hline, Option.map_some]
  · intro fixup hfixup hpos
    obtain ⟨i, hbranch⟩ := h.line_of_fixup hfixup
    rw [hpos, hline, Option.some.injEq] at hbranch
    rw [hbranch] at hlabel
    cases hlabel

theorem branch_of_laid (h : b.Holds script) (hlaid : Laid code b.near.size b.place? b)
    (hp : script.listing[p]? = some line) (hlabel : line.label = some label)
    (htarget : script.PlacesLast label target) :
    code[p]? = line.inst.withOffset? ((script.index target : Int) - (p : Int)) := by
  obtain ⟨pos, rfl, hline⟩ := Script.exists_line_of_listing hp
  have hfixup : (⟨pos, label⟩ : Fixup) ∈ b.fixups := by
    rw [h.fixup, hline, Option.bind_some, hlabel]
  rw [← h.index_eq, ← h.index_eq]
  apply hlaid.branch ⟨pos, label⟩ hfixup line.inst target
  · rw [h.inst?, hline, Option.map_some]
  · exact (h.place label target).2 htarget

theorem resolved (h : b.Holds script) (hsize : script.listing.length < 2 ^ 31)
    (hbranch : script.Resolvable) : ∃ code, b.finish = .ok code ∧ script.Resolved code := by
  obtain ⟨code, hfinish, hcode, hlaid⟩ := (h.ok_switchTo hbranch).finish
  have hlaid' : Laid code b.near.size b.place? b := ⟨hlaid.plain, hlaid.branch, hlaid.label⟩
  have hlength : code.size = script.listing.length := hcode.trans h.size
  refine ⟨code, hfinish, hlength, fun p line => h.plain_of_laid hlaid', ?_⟩
  intro p line label hp hlabel
  obtain ⟨pos, -, hline⟩ := Script.exists_line_of_listing hp
  have hmem : .branch line.inst label ∈ script := by
    rw [show line = ⟨line.inst, some label⟩ by rw [← hlabel]] at hline
    exact Script.branch_mem hline
  obtain ⟨target, htarget⟩ := Script.exists_placesLast.2 (hbranch line.inst label hmem).2
  have hle := htarget.index_le
  have hlt : p < code.size := by
    rw [hlength]
    exact (List.getElem?_eq_some_iff.1 hp).1
  have hinst := h.branch_of_laid hlaid' hp hlabel htarget
  rw [Array.getElem?_eq_getElem hlt] at hinst
  refine ⟨_, _, target, Array.getElem?_eq_getElem hlt, hinst.symm, htarget, ?_, ?_, ?_⟩ <;> omega

end Holds

/-- A script whose labels are made before they are placed writes a buffer that can be finished
exactly when each of its branches is one, with a label that is placed before or after it. Finished
code is the near lines followed by the far lines as they were written, but for the branches, which
lead to where their labels were placed last. -/
theorem finish_leads_branches_to_labels (script : Script)
    (hsound : Asm.areSound 0 script = true) (hsize : script.listing.length < 2 ^ 31) :
    ((∃ code, (writeAll 0 {} script).finish = .ok code) ↔ script.Resolvable) ∧
    ∀ code, (writeAll 0 {} script).finish = .ok code → script.Resolved code := by
  have hholds := Holds.writeAll hsound
  refine ⟨⟨?_, ?_⟩, ?_⟩
  · rintro ⟨code, hfinish⟩
    exact hholds.resolvable_of_finish hfinish
  · intro hbranch
    obtain ⟨code, hfinish, -⟩ := hholds.resolved hsize hbranch
    exact ⟨code, hfinish⟩
  · intro code hfinish
    obtain ⟨code', hfinish', hresolved⟩ :=
      hholds.resolved hsize (hholds.resolvable_of_finish hfinish)
    rw [hfinish, Except.ok.injEq] at hfinish'
    rw [hfinish']
    exact hresolved

/-- A branch to far code and one back, both to labels that are placed later, the first one twice. -/
theorem finish_far_and_back :
    (∃ code, (writeAll 0 {} [.label, .label, .place 0, .branch (.branchIf .eq 0) 0, .switch .far,
      .place 0, .branch (.branch 0) 1, .switch .near, .place 1, .emit .exit]).finish = .ok code) ∧
    Script.Resolved [.label, .label, .place 0, .branch (.branchIf .eq 0) 0, .switch .far,
      .place 0, .branch (.branch 0) 1, .switch .near, .place 1, .emit .exit]
      #[.branchIf .eq 2, .exit, .branch (-1)] := by
  have h := finish_leads_branches_to_labels [.label, .label, .place 0,
    .branch (.branchIf .eq 0) 0, .switch .far, .place 0, .branch (.branch 0) 1, .switch .near,
    .place 1, .emit .exit] (by decide) (by decide)
  refine ⟨h.1.2 ?_, h.2 _ rfl⟩
  intro i label hmem
  simp only [List.mem_cons, List.not_mem_nil, or_false, false_or, reduceCtorEq,
    Asm.branch.injEq] at hmem
  rcases hmem with ⟨rfl, rfl⟩ | ⟨rfl, rfl⟩
  · exact ⟨rfl, by simp⟩
  · exact ⟨rfl, by simp⟩

end CodeBuffer

end Recompiler.Emit
