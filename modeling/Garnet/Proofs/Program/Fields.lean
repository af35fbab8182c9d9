import Garnet.Proofs.Class.Layout
import Garnet.Proofs.Program.Breaks

/-!
# Instance variables have words

Every instance variable of an instance method has been seen when its unit was collected, so its class has
a word for it when names are resolved. The words of a class are those of its superclass and then its own,
so a method that a subclass inherits finds its variables where it expects them.
-/

namespace Garnet

section

variable {units : List SourceUnit} {trees lowered resolved : List UnitTree} {folding : Bool}
  {labels labels' : LabelTable} {p : Program} {c r : Resolver} {groups : List (List Routine)}

lemma Transformed.fields (h : Transformed units trees folding labels p lowered resolved c r groups) :
    List.Forall₂ (fun q v => v.tree.fields.map some =
      (q.2.tree.uses { c.laidOut with unit := q.1 } none).map c.laidOut.word?)
      (UnitTree.numbered lowered) resolved := by
  have hf := h.collected.filled
  refine (List.forall₂_and_left _ _ |>.mpr ⟨fun q hq => hq, h.made.2⟩).imp fun q v ⟨hq, hm⟩ => ?_
  rw [hm.fields, List.map_filterMap_some_eq_filter_map_isSome]
  refine List.filter_eq_self.mpr (List.forall_mem_map.mpr fun x hx => ?_)
  have hvar := hf q hq { c.laidOut with unit := q.1 } rfl rfl (ClassTable.extends_layout _)
    hm.stored x hx
  obtain ⟨k, hk⟩ := ClassTable.exists_variableOffset?_layout h.sound.apart.regular hvar
  exact Option.isSome_map.trans (Option.isSome_iff_exists.mpr ⟨k, hk⟩)

/-- Every instance variable that an instance method reads or writes becomes the word of `self` that the
layout of its class gives it, and this word is the same in all subclasses, below the size of their
instances and no other variable's. -/
theorem instance_variables_placed (hread : units.mapM SourceUnit.read = .ok trees)
    (h : transform trees folding labels = .ok p labels') :
    (∃ lowered resolved c r groups, Transformed units trees folding labels p lowered resolved c r groups ∧
      List.Forall₂ (fun q v => v.tree.fields.map some =
        (q.2.tree.uses { c.laidOut with unit := q.1 } none).map fun x =>
          (p.classes.variableOffset? x.1 x.2).map Int.ofNat)
        (UnitTree.numbered lowered) resolved) ∧
    ∀ id v k, p.classes.variableOffset? id v = some k →
      k < p.classes.instanceSize id ∧ (∀ w, p.classes.variableOffset? id w = some k → w = v) ∧
        ∀ sub, p.classes.Inherits sub id → p.classes.variableOffset? sub v = some k := by
  obtain ⟨lowered, resolved, c, r, groups, h⟩ := transform_eq_ok hread h
  obtain ⟨slots, -, hclasses⟩ := h.classes_eq_laidOut
  rw [hclasses]
  refine ⟨⟨lowered, resolved, c, r, groups, h, h.fields⟩, fun id v k hk => ⟨?_, fun w hw => ?_, ?_⟩⟩
  · exact ClassTable.variableOffset?_lt hk
  · exact ClassTable.variableOffset?_inj hw hk
  · exact fun sub hsub => ClassTable.variableOffset?_of_inherits h.sound.apart.regular hsub hk

end

/-! ### A class and a subclass -/

def fieldsSource : SourceUnit := ⟨"a.rb", "class A;def m;@x end end;class B<A;end"⟩

/-- Its tree with the variable in word `k` of an instance. -/
def fieldsPlaced (k site : Nat) : Tree := .node .seq (firstLine 0 38) 4 [.node .classBody (firstLine 0 24) 7
    [.name "A", .int site, .node .method (firstLine 8 20) 6 [.name "m", .name "__method_A_m", .name "static",
      .node .args (firstLine 12 14) 0 [], .node .index .zero 5 [.name "self", .int k]]],
  .node .classBody (firstLine 25 38) 8 [.name "B", .int (site + 1), .absent]]

open Resolver Storage in
lemma resolve_fieldsUnit {r : Resolver} {a k : Nat} (h : r.HasFields a)
    (hk : r.classes.variableOffset? a "@x" = some k) :
    ∃ r', resolve 0 5 fieldsUnit.tree r = .ok (fieldsPlaced k r.sites) r' ∧ r'.nextId = 9 := by
  have hx : VarName.isConstant "@x" = false ∧ VarName.isGlobal "@x" = false ∧
    VarName.isClassVariable "@x" = false ∧ VarName.startsWithAt "@x" = true := by decide
  obtain ⟨hA, hB, hm, hord, hnew, hlA, hlB⟩ := h
  rw [ClassTable.label, ClassTable.info] at hlA hlB
  rw [ClassTable.info] at hord hnew
  simp [resolve, fieldsUnit, fieldsPlaced, Tree.recurse_eq _ _ (.node _ _ _ _), Tree.recurse_eq _ _ (.name _),
    Tree.recurse_eq _ _ .absent, bind, EStateM.bind, get_apply, modify, modifyGet_apply, pure, EStateM.pure, Tree.size, Tree.sizeOfAll, Tree.name?,
    Node.child, topContext, bodyContext, methodContext, methodVariables, ClassTable.label, ClassTable.info, hx, hA,
    hB, hm, hord, hnew, hlA, hlB, hk, step, classBody, Storage.inner, methodAt, readName, instanceVariable,
    Node.mapChildren, Node.rebuild, Build.node, Fresh.fresh, Install.text]

lemma resolveUnits_fieldsUnit : ∃ a k c r,
    ((UnitTree.numbered [fieldsUnit]).forM fun (i, u) => collect i u.tree : Resolve Unit) (.start {}) = .ok () c ∧
    resolveUnits [fieldsUnit] (.start {}) = .ok [⟨fieldsPlaced k c.sites, 9⟩] r ∧
    c.classes.lookup? "A" = some a ∧ c.classes.lookup? "B" = some (a + 2) ∧
    (c.classes.info (a + 2)).superclass = some a ∧ c.classes.layout.variableOffset? a "@x" = some k := by
  obtain ⟨a, c, hone, hfields, hA, hB, hvar, hsuper⟩ := collect_fieldsUnit
  have hc : ((UnitTree.numbered [fieldsUnit]).forM fun (i, u) => collect i u.tree : Resolve Unit) (.start {}) =
    .ok () c := bind_eq_ok.mpr ⟨(), c, hone, rfl⟩
  have hstart := Resolver.sound_start {}
  have hsound := ((collectUnits_changes hstart hc).sound hstart).1
  obtain ⟨k, hk⟩ := ClassTable.exists_variableOffset?_layout hsound.apart.regular
    (hvar ▸ List.mem_singleton_self "@x")
  obtain ⟨r, hr, hnext⟩ := resolve_fieldsUnit (r := c.laidOut) hfields hk
  refine ⟨a, k, c, r, hc, ?_, hA, hB, hsuper, hk⟩
  refine bind_eq_ok.mpr ⟨(), c, hc, bind_eq_ok.mpr ⟨(), c.laidOut, rfl, ?_⟩⟩
  refine bind_eq_ok.mpr ⟨⟨_, _⟩, r, bind_eq_ok.mpr ⟨_, r, hr, rfl⟩, ?_⟩
  rw [← hnext]
  rfl

/-- A method of `A` finds its variable where an instance of the subclass `B` has it. -/
theorem instance_variables_placed_subclass : ∃ trees p labels' a b, ∃ k : Nat,
    [fieldsSource].mapM SourceUnit.read = .ok trees ∧ transform trees true {} = .ok p labels' ∧
    p.classes.lookup? "A" = some a ∧ p.classes.lookup? "B" = some b ∧ p.classes.Inherits b a ∧
    (∃ lowered resolved c r groups, Transformed [fieldsSource] trees true {} p lowered resolved c r groups ∧
      List.Forall₂ (fun q v => v.tree.fields.map some =
        (q.2.tree.uses { c.laidOut with unit := q.1 } none).map fun x =>
          (p.classes.variableOffset? x.1 x.2).map Int.ofNat)
        (UnitTree.numbered lowered) resolved ∧ resolved.map (·.tree.fields) = [[(k : Int)]]) ∧
    p.classes.variableOffset? a "@x" = some k ∧ p.classes.variableOffset? b "@x" = some k ∧
      k < p.classes.instanceSize b := by
  have hread : [fieldsSource].mapM SourceUnit.read = .ok [fieldsUnit] := by
    have hone : fieldsSource.read = .ok fieldsUnit := by cbv
    rw [List.mapM_cons, hone]
    rfl
  have hlower : [fieldsUnit].mapM (UnitTree.lower · true) = .ok [fieldsUnit] := by
    have hone : fieldsUnit.lower true = .ok fieldsUnit := by with_unfolding_all rfl
    rw [List.mapM_cons, hone]
    rfl
  obtain ⟨a, k, c, r, hc, hunits, hA, hB, hsuper, hk⟩ := resolveUnits_fieldsUnit
  obtain ⟨rs, hrs⟩ : ∃ rs, liftRoutines (unitLabel 0) (fieldsPlaced k c.sites) 9 = .ok rs :=
    ⟨_, by with_unfolding_all rfl⟩
  have hlift : ((UnitTree.numbered [⟨fieldsPlaced k c.sites, 9⟩]).mapM fun (i, u) =>
      liftRoutines (unitLabel i) u.tree u.nextId) = .ok [rs] := by
    simp only [UnitTree.numbered, List.mapIdx_cons, List.mapIdx_nil, List.mapM_cons, List.mapM_nil, hrs]
    rfl
  obtain ⟨p, labels', hp⟩ : ∃ p labels', transform [fieldsUnit] true {} = .ok p labels' :=
    ⟨_, _, transform_of_eq_ok hlower hunits hlift⟩
  obtain ⟨⟨lowered, resolved, c', r', groups, h, hfields⟩, hplaced⟩ := instance_variables_placed hread hp
  obtain rfl : [fieldsUnit] = lowered := Except.ok.inj (hlower.symm.trans h.lower)
  obtain ⟨rfl, rfl⟩ : [⟨fieldsPlaced k c.sites, 9⟩] = resolved ∧ r = r' := by simpa using hunits.symm.trans h.units
  obtain rfl : c = c' := by simpa using hc.symm.trans h.collect
  obtain ⟨slots, -, hclasses⟩ := h.classes_eq_laidOut
  refine ⟨_, p, labels', a, a + 2, k, hread, hp, ?_⟩
  rw [hclasses] at hfields hplaced ⊢
  have hsub : ClassTable.Inherits { c.classes.layout with slots } (a + 2) a := .single hsuper
  have hkb := (hplaced a "@x" k hk).2.2 _ hsub
  exact ⟨hA, hB, hsub, ⟨_, _, _, _, _, h, hfields, rfl⟩, hk, hkb, (hplaced _ _ _ hkb).1⟩

end Garnet
