import Garnet.Proofs.Code.Labels

/-!
# The code that ways out run

A way out of protected regions writes their code again, and this code may hold a `break` or a `next` of its
own. These go to the innermost loop at the place where the code is written (`jumps_of_break`,
`jumps_of_next`). Where a region is left, that is the innermost loop at the way out, which need not be around
the region: a loop inside the region may be left with it. `ensure_loops_iff` says when the two are the same.
-/

namespace Garnet

namespace Exits

variable {x y : Exits} {r : Region}

/-- The place `y` is the place `x`, or stands in loops and protected regions inside it. -/
inductive Around (x : Exits) : Exits → Prop where
  | refl : Around x x
  | inLoop {y : Exits} (h : Around x y) (next exit : String) : Around x (y.inLoop next exit)
  | inRegion {y : Exits} (h : Around x y) (r : Region) : Around x (y.inRegion r)

/-- The loops around a place have no more regions around them than the place has. -/
def Nested (x : Exits) : Prop := ∀ l ∈ x.loops, l.depth ≤ x.regions.length

namespace Around

lemma regions (h : Around x y) : ∃ inner, y.regions = inner ++ x.regions := by
  induction h with
  | refl => exact ⟨[], rfl⟩
  | inLoop _ _ _ ih => exact ih
  | inRegion _ r ih =>
    obtain ⟨inner, heq⟩ := ih
    exact ⟨r :: inner, congrArg (r :: ·) heq⟩

lemma loops (h : Around x y) :
    ∃ inner, y.loops = inner ++ x.loops ∧ ∀ l ∈ inner, x.regions.length ≤ l.depth := by
  induction h with
  | refl => exact ⟨[], rfl, nofun⟩
  | inRegion _ _ ih => exact ih
  | inLoop h next exit ih =>
    obtain ⟨inner, heq, hdepth⟩ := ih
    obtain ⟨regions, hr⟩ := h.regions
    refine ⟨_ :: inner, congrArg _ heq, List.forall_mem_cons.mpr ⟨?_, hdepth⟩⟩
    rw [hr, List.length_append]
    exact Nat.le_add_left _ _

lemma head?_loops_iff (hx : x.Nested) (h : (x.inRegion r).Around y) :
    y.loops.head? = x.loops.head? ↔ y.loops = x.loops := by
  refine ⟨fun hh => ?_, fun heq => heq ▸ rfl⟩
  obtain ⟨inner, heq, hdepth⟩ := h.loops
  cases inner with
  | nil => exact heq
  | cons l inner =>
    rw [heq] at hh
    have hle := hx l (List.mem_of_head? hh.symm)
    have hlt : x.regions.length + 1 ≤ l.depth := hdepth l List.mem_cons_self
    omega

lemma loops_eq_of_depth_le (h : (x.inRegion r).Around y) {l : LoopExit} (hl : l ∈ y.loops.head?)
    (hdepth : l.depth ≤ x.regions.length) : y.loops = x.loops := by
  obtain ⟨inner, heq, hinn⟩ := h.loops
  cases inner with
  | nil => exact heq
  | cons l' inner =>
    rw [heq] at hl
    cases hl
    have hlt : x.regions.length + 1 ≤ l.depth := hinn l List.mem_cons_self
    omega

end Around

end Exits

namespace Emit

variable {rec : Exits → Tree → Emit Unit} {x y : Exits} {r : Region} {depth : Nat} {n : Node}
  {s s' : Emitter} {a : Unit}

lemma leaveEach_of_le {regions : List Region} (h : regions.length ≤ depth) :
    leaveEach rec y depth regions = pure () := by
  cases regions with
  | nil => rfl
  | cons r outer => exact if_neg (Nat.not_le_of_lt h)

lemma leaveEach_append (inner : List Region) {outer : List Region} (hdepth : depth ≤ outer.length) :
    leaveEach rec y depth (inner ++ outer) = (do
      leaveEach rec y outer.length (inner ++ outer)
      leaveEach rec y depth outer) := by
  induction inner with
  | nil => rw [List.nil_append, leaveEach_of_le le_rfl, pure_bind]
  | cons r inner ih =>
    have hlen : outer.length ≤ (inner ++ outer).length := by simp
    simp only [List.cons_append, leaveEach, if_pos hlen, if_pos (Nat.le_trans hdepth hlen), ih]
    cases r.handler <;> cases r.ensure.isAbsent <;> simp

lemma leaveEach_of_around (h : (x.inRegion r).Around y) (hdepth : depth ≤ x.regions.length) :
    leaveEach rec y depth y.regions = (do
      leaveEach rec y (x.regions.length + 1) y.regions
      if let some record := r.handler then unlinkHandler record
      if !r.ensure.isAbsent then rec { y with regions := x.regions } r.ensure
      leaveEach rec y depth x.regions) := by
  obtain ⟨inner, heq⟩ := h.regions
  rw [heq]
  refine (leaveEach_append inner (Nat.le_succ_of_le hdepth)).trans ?_
  exact bind_congr fun _ => if_pos hdepth

lemma lines_jump {label : String} (h : jump label s = .ok a s') :
    ∃ t : Emitter, s'.lines = t.lines ++ [.jmp label] := by
  obtain ⟨_, t, -, h⟩ := bind_eq_ok.mp h
  obtain ⟨_, u, hw, h⟩ := bind_eq_ok.mp h
  cases h
  exact ⟨t, show u.lines = _ from lines_write hw⟩

theorem jumps_of_break (hf : (n.child 1).isAbsent) (h : breakOut rec x n s = .ok a s') :
    ∃ l ∈ x.loops.head?, ∃ t : Emitter, s'.lines = t.lines ++ [.jmp l.exit] := by
  obtain ⟨_, t, -, h⟩ := bind_eq_ok.mp h
  rw [if_pos hf] at h
  cases hl : x.loops with
  | nil =>
    rw [hl] at h
    cases h
  | cons l _ =>
    rw [hl] at h
    obtain ⟨_, u, -, h⟩ := bind_eq_ok.mp h
    exact ⟨l, rfl, lines_jump h⟩

theorem jumps_of_next (h : nextRound rec x n s = .ok a s') :
    ∃ l ∈ x.loops.head?, ∃ t : Emitter, s'.lines = t.lines ++ [.jmp l.next] := by
  cases hl : x.loops with
  | nil =>
    rw [nextRound, hl] at h
    cases h
  | cons l _ =>
    rw [nextRound, hl] at h
    obtain ⟨_, t, -, h⟩ := bind_eq_ok.mp h
    obtain ⟨_, u, -, h⟩ := bind_eq_ok.mp h
    exact ⟨l, rfl, lines_jump h⟩

/-- **Where a `break` or a `next` in the code of a protected region goes.** The region is opened at the place
`x`, and left from the place `y` inside it. Its code is written once on the way, with the loops of `y`, so
it goes to the innermost one there; this is the innermost one at `x` exactly if the code is written as at
`x`, and it is if the way out stops at a loop. -/
theorem ensure_loops_iff (hx : x.Nested) (h : (x.inRegion r).Around y) :
    (∀ rec depth, depth ≤ x.regions.length → leaveEach rec y depth y.regions = (do
      leaveEach rec y (x.regions.length + 1) y.regions
      if let some record := r.handler then unlinkHandler record
      if !r.ensure.isAbsent then rec { y with regions := x.regions } r.ensure
      leaveEach rec y depth x.regions)) ∧
    (y.loops.head? = x.loops.head? ↔ { y with regions := x.regions } = x) ∧
    (∀ l ∈ y.loops.head?, l.depth ≤ x.regions.length → { y with regions := x.regions } = x) ∧
    ∀ rec n s a s', ((n.child 1).isAbsent → breakOut rec { y with regions := x.regions } n s = .ok a s' →
        ∃ l ∈ y.loops.head?, ∃ t : Emitter, s'.lines = t.lines ++ [.jmp l.exit]) ∧
      (nextRound rec { y with regions := x.regions } n s = .ok a s' →
        ∃ l ∈ y.loops.head?, ∃ t : Emitter, s'.lines = t.lines ++ [.jmp l.next]) := by
  have heq : { y with regions := x.regions } = x ↔ y.loops = x.loops :=
    ⟨fun heq => by rw [← heq], fun heq => by rw [heq]⟩
  refine ⟨fun _ _ hdepth => leaveEach_of_around h hdepth, ?_, fun l hl hdepth => ?_,
    fun _ _ _ _ _ => ⟨jumps_of_break, jumps_of_next⟩⟩
  · rw [heq, h.head?_loops_iff hx]
  · exact heq.mpr (h.loops_eq_of_depth_le hl hdepth)

/-- Out of a loop, with a handler to unlink, and without a loop in between. -/
theorem ensure_loops_iff_loop :
    let x := Exits.inLoop {} "next" "exit"
    let y := (x.inRegion { ensure := .int 1, handler := some (-24) }).inRegion { ensure := .absent }
    x.Nested ∧ y.loops.head? = x.loops.head? ∧ { y with regions := x.regions } = x := by
  intro x y
  have hx : x.Nested := fun l hl => by cases List.mem_singleton.mp hl; exact le_rfl
  have h := ensure_loops_iff hx (y := y) (.inRegion .refl _)
  exact ⟨hx, rfl, h.2.1.mp rfl⟩

/-- A loop around a protected body with a loop that is left by `return`, where the code to run in any case
is a `break`. -/
def breakingOff : Tree := .node .loop .zero 0 [.name "true", .node .protect .zero 1 [
    .node .loop .zero 2 [.name "true", .node .ret .zero 3 [.nil]], .absent, .absent, .node .leave .zero 4 [.nil]]]

def linesOf (body : Tree) : List Line := match expr {} body (.start { countUp with body } {}) with
  | .ok _ s => s.lines
  | .error .. => []

/-- On the way out the `break` goes to the end of the inner loop, and else to that of the loop around the
protected body. -/
theorem break_meets_inner_loop : (linesOf breakingOff).filter (fun l => l matches .ins "jmp" _) =
      [.jmp ".Lwbrk6", .jmp ".Lwhile4", .jmp ".Lwbrk3", .jmp ".Lwhile1"] := by
  cbv

end Emit

end Garnet
