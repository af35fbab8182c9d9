import Garnet.Proofs.Code.Writing
import Mathlib

/-!
# The code of routines

A routine starts with all variables at home, so its body has no junction where a variable is cached
(`held_eq_nil_of_isJunction`). The labels in the code of a program are those of its routines, and labels with a
stem and a number of which no two are the same (`emitRoutines_labels`).
-/

namespace Garnet

lemma Emitter.atHome_start (r : Routine) (shared : Shared) : (Emitter.start r shared).AtHome where
  balanced := Cache.balanced_new _
  unlocked := rfl
  settled := fun e he => absurd he (Array.not_mem_empty e)
  held := rfl

/-- The code of a routine, behind its prologue, is a list of lines each kept with the variables that
were in registers when it was written. There were none where control can meet or part, where compiled
code is called, and, in a protected region, where the run-time library is; nor are there any at the
end. -/
theorem held_eq_nil_of_isJunction {r : Routine} {shared shared' : Shared} {lines : List Line}
    (h : emitRoutine r shared = .ok (lines, shared')) :
    ∃ s, Emit.body r (.start r shared) = .ok () s ∧
      lines = Prologue.lines r s.frame s.maxSlot ++ s.entries.toList.map Entry.line ∧
      s.registers.held = [] ∧ ∀ e ∈ s.entries, e.isJunction → e.held = [] := by
  rw [emitRoutine] at h
  split at h
  · rename_i u s hbody
    have hs := (Emit.codes_body (b := true) r).rests (Emitter.atHome_start r shared) hbody
    obtain ⟨rfl, -⟩ := Prod.mk.inj (Except.ok.inj h)
    exact ⟨s, hbody, rfl, hs.held, hs.settled⟩
  · cases h

/-- A method with a loop that assigns to a variable. -/
def countUp : Routine where
  label := "count_up"
  kind := .method
  blockParam := "__block__"
  params := ["limit"]
  rest := none
  locals := ["i"]
  env := none
  body := .node .loop .zero 0
    [.name "limit", .node .seq .zero 1 [.node .assign .zero 2 [.name "i", .int 1], .name "i"]]
  span := .zero

/-- The loop is written with dirty variables in registers, but its labels and jumps are not. -/
theorem held_eq_nil_of_isJunction_countUp : ∃ lines shared' s, emitRoutine countUp {} = .ok (lines, shared') ∧
      Emit.body countUp (.start countUp {}) = .ok () s ∧
      (∃ e ∈ s.entries, ∃ v ∈ e.held, v.dirty) ∧ (∃ e ∈ s.entries, e.isJunction) ∧
      ∀ e ∈ s.entries, e.isJunction → e.held = [] := by
  have hends : Ends (fun s => (s.entries.any (fun e => e.held.any (·.dirty)) &&
      s.entries.any Entry.isJunction) = true) (Emit.body countUp (.start countUp {})) := by cbv
  have hok : (emitRoutine countUp {}).isOk = true := by cbv
  cases hemit : emitRoutine countUp {} with
  | error e =>
    rw [hemit] at hok
    cases hok
  | ok r =>
    obtain ⟨lines, shared'⟩ := r
    obtain ⟨s, hbody, -, -, hsettled⟩ := held_eq_nil_of_isJunction hemit
    rw [hbody, Ends, Bool.and_eq_true, Array.any_eq_true', Array.any_eq_true'] at hends
    obtain ⟨⟨e, he, hdirty⟩, hjunction⟩ := hends
    exact ⟨lines, shared', s, rfl, hbody, ⟨e, he, List.any_eq_true.mp hdirty⟩, hjunction, hsettled⟩

variable {lines : List Line}

open Reg Line Prologue

def Line.isIns : Line → Bool
  | .ins .. => true
  | _ => false

lemma labels_of_isIns (h : lines.all isIns) : labels lines = [] := by
  refine List.filterMap_eq_nil_iff.mpr fun l hl => ?_
  have hins := List.all_eq_true.mp h l hl
  cases l <;> first | rfl | cases hins

lemma isIns_makeEnv (r : Routine) (f : Frame) (env : List String) : (makeEnv r f env).all isIns := by
  have hm : (env.mapIdx (moveParam r f)).flatten.all isIns := by
    rw [List.all_flatten, List.all_eq_true]
    intro lines hl
    obtain ⟨i, hi, rfl⟩ := List.mem_mapIdx.mp hl
    rw [moveParam]
    split
    · split <;> rfl
    · rfl
  rw [makeEnv, List.all_append, List.all_cons, hm]
  cases f.home? "__env__" <;> split <;> rfl

lemma prologue_eq (r : Routine) (f : Frame) (slots : Nat) :
    ∃ code, Prologue.lines r f slots = .label r.label :: code ∧ code.all isIns := by
  have hr (home : Option Operand) : (collectRest r home).all isIns := by cases home <;> rfl
  have hs : ((List.range f.named).map fun i => Line.movl .nil (.slot i)).all isIns := by
    rw [List.all_map, List.all_eq_true]
    exact fun _ _ => rfl
  refine ⟨(Prologue.lines r f slots).tail, rfl, ?_⟩
  simp only [Prologue.lines, List.cons_append, List.tail_cons, List.all_cons, List.all_append, hs]
  cases r.rest <;> cases r.env <;> simp only [hr, isIns_makeEnv] <;> split <;> split <;> rfl

lemma labels_prologue (r : Routine) (f : Frame) (slots : Nat) :
    Line.labels (Prologue.lines r f slots) = [r.label] := by
  obtain ⟨code, heq, hc⟩ := prologue_eq r f slots
  rw [heq]
  exact congrArg (r.label :: ·) (labels_of_isIns hc)

lemma emitRoutine_labels {r : Routine} {t t' : Shared} (h : emitRoutine r t = .ok (lines, t')) :
    Bound [r.label] t (labels lines) t' := by
  rw [emitRoutine] at h
  split at h
  · rename_i u s hb
    cases h
    obtain ⟨code, hl, -, hbou⟩ := (Emit.codes_body (b := true) r).levels hb
    have hc : s.entries.toList.map Entry.line = code := hl
    rw [labels_append, labels_prologue, hc]
    exact (Bound.refl [r.label] t).append hbou
  · cases h

theorem emitRoutines_labels {rs : List Routine} {t t' : Shared} (h : emitRoutines rs t = .ok (lines, t')) :
    Bound (rs.map Routine.label) t (labels lines) t' := by
  induction rs generalizing t lines with
  | nil =>
    cases h
    exact .nil (.refl _)
  | cons r rs ih =>
    rw [emitRoutines] at h
    obtain ⟨⟨first, s⟩, hf, h⟩ := except_bind_eq_ok.mp h
    obtain ⟨⟨rest, s'⟩, hr, h⟩ := except_bind_eq_ok.mp h
    cases h
    rw [labels_append]
    exact (emitRoutine_labels hf).append (ih hr)

end Garnet
