import Garnet.Proofs.Closure.Break
import Garnet.Proofs.Program.Routines
import Garnet.Proofs.Storage.Apart
import Mathlib

/-!
# The places that `break` goes to

The numbers of these places are given unit by unit, so a number stands at one block of a unit at most
(`breakIds_apart`). Each unit counts from zero: the blocks of two units share their numbers
(`breakIds_shared`), and a program has all of them apart if only one of its units has such a block.
-/

namespace Garnet

open List UnitTree Routine

section

variable {units : List SourceUnit} {trees : List UnitTree} {folding : Bool} {labels labels' : LabelTable}
  {p : Program}

lemma flatMap_filter_isEmpty {α β : Type} (f : α → List β) (as : List α) :
    (as.filter fun a => !(f a).isEmpty).flatMap f = as.flatMap f := by
  induction as with
  | nil => rfl
  | cons a as ih =>
    rw [filter_cons, flatMap_cons]
    split
    · rw [flatMap_cons, ih]
    · rename_i hemp
      have hnil : f a = [] := by simpa using hemp
      rw [ih, hnil, nil_append]

lemma nodup_flatMap_of_length_le_one {α β : Type} {f : α → List β} {as : List α}
    (hf : ∀ a ∈ as, (f a).Nodup) (hone : (as.filter fun a => !(f a).isEmpty).length ≤ 1) :
    (as.flatMap f).Nodup := by
  rw [← flatMap_filter_isEmpty]
  cases hfil : as.filter fun a => !(f a).isEmpty with
  | nil => exact nodup_nil
  | cons a rest =>
    rw [hfil, length_cons] at hone
    obtain rfl : rest = [] := eq_nil_of_length_eq_zero (by omega)
    have ha : a ∈ as := mem_of_mem_filter (hfil ▸ mem_cons_self)
    rw [flatMap_singleton]
    exact hf a ha

/-- Within the routines of a unit no two nodes carry the number of one place, and within a program none
do if at most one of its units has such a place. -/
theorem breakIds_apart (hread : units.mapM SourceUnit.read = .ok trees)
    (h : transform trees folding labels = .ok p labels') :
    ∃ lowered resolved r groups, trees.mapM (lower · folding) = .ok lowered ∧
      resolveUnits lowered (.start labels) = .ok resolved r ∧ p.routines = groups.flatten ∧
      List.Forall₂ (fun q rs => liftRoutines (unitLabel q.1) q.2.tree q.2.nextId = .ok rs ∧
        (rs.flatMap breakIds).Nodup) (numbered resolved) groups ∧
      ((groups.filter fun rs => !(rs.flatMap breakIds).isEmpty).length ≤ 1 →
        (p.routines.flatMap breakIds).Nodup) := by
  obtain ⟨lowered, resolved, c, r, groups, h⟩ := transform_eq_ok hread h
  have hgroups := h.forall₂_lift.imp fun q rs hq => (⟨hq.2, Closure.nodup_breakIds (hq.1.mono fun _ hn => hn.unlifted)
      (hq.1.mono fun _ hn => hn.singleExit) hq.2⟩ :
      liftRoutines (unitLabel q.1) q.2.tree q.2.nextId = .ok rs ∧ (rs.flatMap breakIds).Nodup)
  have hroutines : p.routines = groups.flatten := by rw [h.program]
  refine ⟨lowered, resolved, r, groups, h.lower, h.units, hroutines, hgroups, fun hone => ?_⟩
  rw [hroutines, ← List.flatMap_id, List.flatMap_assoc]
  refine nodup_flatMap_of_length_le_one (fun rs hrs => ?_) hone
  obtain ⟨q, -, -, hnodup⟩ := exists_of_forall₂ hgroups hrs
  exact hnodup

end

def breakingSource (name : String) : SourceUnit := ⟨name, "m { break }"⟩

/-- The tree of this unit. It is lowered and its names are resolved as it is. -/
def breakingUnit : UnitTree := ⟨.node .seq (firstLine 0 11) 5 [.node .call (firstLine 0 1) 1 [.name "m",
    .node .args (firstLine 0 1) 0 [], .node .lambda (firstLine 2 11) 4 [.node .args (firstLine 4 9) 2 [],
      .node .leave (firstLine 4 9) 3 [.absent]]]], 6⟩

lemma read_breakingSource (name : String) : (breakingSource name).read = .ok breakingUnit := by cbv

lemma lower_breakingUnit : breakingUnit.lower true = .ok breakingUnit := by with_unfolding_all rfl

lemma resolveUnits_breakingUnit (r : Resolver) : ∃ r',
    resolveUnits [breakingUnit, breakingUnit] r = .ok [breakingUnit, breakingUnit] r' :=
  ⟨_, by with_unfolding_all rfl⟩

lemma liftRoutines_breakingUnit (unit : String) : ∃ rs,
    liftRoutines unit breakingUnit.tree breakingUnit.nextId = .ok rs ∧ rs.flatMap breakIds = [0] := by
  have hids : (liftRoutines unit breakingUnit.tree breakingUnit.nextId).toOption.map
      (flatMap breakIds) = some [0] := by cbv
  obtain ⟨rs, hrs, hz⟩ := Option.map_eq_some_iff.mp hids
  exact ⟨rs, except_toOption_eq_some.mp hrs, hz⟩

lemma mapM_read_breakingSource (names : List String) :
    (names.map breakingSource).mapM SourceUnit.read = .ok (names.map fun _ => breakingUnit) := by
  induction names with
  | nil => rfl
  | cons name names ih =>
    rw [map_cons, mapM_cons, read_breakingSource, ih]
    rfl

lemma transform_breakingUnits : ∃ p labels',
    transform [breakingUnit, breakingUnit] true {} = .ok p labels' ∧
      p.routines.flatMap breakIds = [0, 0] := by
  obtain ⟨r, hr⟩ := resolveUnits_breakingUnit (.start {})
  obtain ⟨rs, hl, hrs⟩ := liftRoutines_breakingUnit (unitLabel 0)
  obtain ⟨rs', hl', hrs'⟩ := liftRoutines_breakingUnit (unitLabel 1)
  have hlow : [breakingUnit, breakingUnit].mapM (lower · true) =
      .ok [breakingUnit, breakingUnit] := by
    simp only [mapM_cons, mapM_nil, lower_breakingUnit]
    rfl
  have hgroups : ((numbered [breakingUnit, breakingUnit]).mapM fun q =>
      liftRoutines (unitLabel q.1) q.2.tree q.2.nextId) = .ok [rs, rs'] := by
    simp only [numbered, mapIdx_cons, mapIdx_nil, mapM_cons, mapM_nil, hl, hl']
    rfl
  refine ⟨_, _, transform_of_eq_ok hlow hr hgroups, ?_⟩
  simp only [flatten_cons, flatten_nil, append_nil, flatMap_append, hrs, hrs']
  rfl

/-- Blocks of two units go to places with one number. -/
theorem breakIds_shared : ∃ trees p labels',
    (["a.rb", "b.rb"].map breakingSource).mapM SourceUnit.read = .ok trees ∧
      transform trees true {} = .ok p labels' ∧ ¬(p.routines.flatMap breakIds).Nodup := by
  obtain ⟨p, labels', hp, hids⟩ := transform_breakingUnits
  refine ⟨_, p, labels', mapM_read_breakingSource ["a.rb", "b.rb"], hp, ?_⟩
  rw [hids]
  decide

/-- In each of the two units the numbers are apart all the same. -/
theorem breakIds_apart_two_units : ∃ trees p labels',
    (["a.rb", "b.rb"].map breakingSource).mapM SourceUnit.read = .ok trees ∧
      transform trees true {} = .ok p labels' ∧
      ∃ lowered resolved r groups, trees.mapM (lower · true) = .ok lowered ∧
        resolveUnits lowered (.start {}) = .ok resolved r ∧ p.routines = groups.flatten ∧
        List.Forall₂ (fun q rs => liftRoutines (unitLabel q.1) q.2.tree q.2.nextId = .ok rs ∧
          (rs.flatMap breakIds).Nodup) (numbered resolved) groups ∧
        ((groups.filter fun rs => !(rs.flatMap breakIds).isEmpty).length ≤ 1 →
          (p.routines.flatMap breakIds).Nodup) := by
  obtain ⟨p, labels', hp, -⟩ := transform_breakingUnits
  have hread := mapM_read_breakingSource ["a.rb", "b.rb"]
  exact ⟨_, p, labels', hread, hp, breakIds_apart hread hp⟩

end Garnet
