import Garnet.Proofs.Code.Labels
import Garnet.Proofs.Program.Breaks

/-!
# No label of a program is defined twice

The labels of a text are those of its routines, of places in their code, of the entry point, and of the
data: the code that reports missing methods, class objects, static words, the words that tell whether a
class body has run, and literals. The role of a label tells them apart, and within each role they are
apart: routines by what opens their scopes, places by their numbers, classes and words by their names.
-/

namespace Garnet

variable {made : List (String × Int)}

open List Garnet.Tree UnitTree Label Line ClassTable Shared

/-! ### The labels of data -/

namespace Data

variable {α : Type}

lemma labels_each {as : List α} {f : α → List Line} (label : α → String)
    (hf : ∀ a ∈ as, Line.labels (f a) = [label a]) : Line.labels (as.flatMap f) = as.map label := by
  rw [Line.labels, filterMap_flatMap, map_eq_flatMap]
  exact flatMap_congr hf

lemma map_snd_numbered {β : Type} (items : List α) (f : α → β) :
    (numbered items).map (fun p => f p.2) = items.map f :=
  ext_getElem (by simp [numbered]) (by simp [numbered])

lemma labels_numbered {items : List α} {f : String × α → List Line} (stem : String)
    (hf : ∀ p, Line.labels (f p) = [stem ++ p.1]) :
    Line.labels ((numbered items).flatMap f) = labels stem items.length := by
  rw [labels_each _ fun p _ => hf p, Data.labels]
  exact ext_getElem (by simp [numbered]) (by simp [numbered])

lemma labels_thunks (names : List String) : Line.labels (thunks names) = names.map Label.missingMethod := by
  rw [thunks, labels_each (fun p => Label.missingMethod p.2) fun _ _ => rfl]
  exact map_snd_numbered names Label.missingMethod

lemma labels_words (ls : List String) (value : String) : Line.labels (words ls value) = ls := by
  induction ls with
  | nil => rfl
  | cons l ls ih => exact congrArg (l :: ·) ih

lemma labels_offsets (names : List String) : Line.labels (offsets names) = [] := by
  refine Line.labels_flatten fun lines hlines => ?_
  obtain ⟨i, hi, rfl⟩ := mem_mapIdx.mp hlines
  rfl

lemma labels_classObject (t : ClassTable) (missing : List String) (i : String) (id : ClassId) :
    Line.labels (classObject t missing i id) = [t.label id] := by
  have ht : Line.labels ((t.vtable id).zipWith (fun entry thunk => long [entry.getD thunk]) missing) =
      [] := by
    refine filterMap_eq_nil_iff.mpr fun line hl => ?_
    obtain ⟨k, hk, rfl⟩ := mem_iff_getElem.mp hl
    rw [getElem_zipWith]
    rfl
  rw [classObject]
  exact congrArg (t.label id :: ·) ht

lemma labels_lines (p : Program) (l : Literals) : Line.labels (lines p l) =
    p.classes.slots.names.toList.map Label.missingMethod ++
      (range p.classes.classes.size).map p.classes.label ++ p.statics.keys ++
      labels "__once_" p.classSites ++ labels ".Lsymc_" l.symbols.size ++ labels ".Lint" l.integers.size ++
      labels ".Lcname_" p.classes.classes.size ++ labels ".Lmname_" p.classes.slots.names.size ++
      labels ".Lstr" l.strings.size ++ labels ".Lsym_" l.symbols.size := by
  have ht stem items :
      Line.labels (texts stem items) = labels stem items.length := labels_numbered stem fun _ => rfl
  have hc : Line.labels ((numbered (range p.classes.classes.size)).flatMap fun q =>
      classObject p.classes (p.classes.slots.names.toList.map Label.missingMethod) q.1 q.2) =
      (range p.classes.classes.size).map p.classes.label :=
    (labels_each (fun q : String × ClassId => p.classes.label q.2)
      fun q _ => labels_classObject _ _ _ _).trans (map_snd_numbered _ _)
  have hint : Line.labels ((numbered l.integers.toList).flatMap fun q => integer q.1 q.2) =
      labels ".Lint" l.integers.size := labels_numbered _ fun _ => rfl
  have hd a b : Line.labels [.directive a, .directive b] = [] := rfl
  have hdir a : Line.labels [.directive a] = [] := rfl
  simp only [lines, Line.labels_append, labels_offsets, labels_thunks, hd, hc, labels_words,
    hint, hdir, ht, length_map, Array.length_toList, nil_append, append_nil]

end Data

/-! ### Numbered labels -/

/-- The first `n` numbers with a stem. -/
def innerKeys (stem : String) (n : Nat) : List (String × Int) :=
  (range n).map fun i : Nat => (stem, (i : Int))

lemma labels_eq_map_innerKeys (stem : String) (n : Nat) :
    Data.labels (".L" ++ stem) n = (innerKeys stem n).map fun key => inner key.1 key.2 := by
  rw [Data.labels, innerKeys, map_map]
  rfl

lemma nodup_innerKeys (stem : String) (n : Nat) : (innerKeys stem n).Nodup := by
  refine List.Nodup.map (fun i j h => ?_) nodup_range
  exact Int.ofNat.inj (Prod.mk.inj h).2

/-- Labels made for places in code, and the labels of counted literals with other stems. -/
lemma nodup_inner (hnodup : made.Nodup) (hm : ∀ key ∈ made, key.1 ∈ breakStem :: stems)
    {counts : List (String × Nat)} (hste : (breakStem :: stems ++ counts.map Prod.fst).Nodup)
    (hc : ∀ count ∈ counts, isStem count.1) :
    ((made ++ counts.flatMap fun count => innerKeys count.1 count.2).map
      fun key => inner key.1 key.2).Nodup := by
  have hk : (made ++ counts.flatMap fun count => innerKeys count.1 count.2).Nodup := by
    have hp := nodup_of_kinds Prod.fst ((breakStem :: stems, made) ::
        counts.map fun count => ([count.1], innerKeys count.1 count.2))
    simp only [flatMap_cons, flatMap_map, forall_mem_cons, forall_mem_map] at hp
    refine hp ?_ ⟨⟨hnodup, hm⟩, fun count _ => ⟨nodup_innerKeys _ _, fun key hkey => ?_⟩⟩
    · rwa [← map_eq_flatMap]
    · obtain ⟨i, -, rfl⟩ := mem_map.mp hkey
      exact mem_singleton.mpr rfl
  have hs : ∀ key ∈ made ++ counts.flatMap (fun count => innerKeys count.1 count.2),
      isStem key.1 := by
    refine forall_mem_append.mpr ⟨fun key hkey => ?_, fun key hkey => ?_⟩
    · have hall : (breakStem :: stems).all isStem = true := by decide
      exact all_eq_true.mp hall _ (hm key hkey)
    · obtain ⟨count, hcou, hkey⟩ := mem_flatMap.mp hkey
      obtain ⟨i, -, rfl⟩ := mem_map.mp hkey
      exact hc count hcou
  refine List.Nodup.map_on (fun key hkey key' hkey' h => ?_) hk
  obtain ⟨hfst, hsnd⟩ := inner_injective (hs key hkey) (hs key' hkey') h
  exact Prod.ext hfst hsnd

/-! ### The roles of labels -/

namespace Resolver

variable {c : Resolver}

lemma role_labelOf (c : Resolver) {i : Item} (hi : i.storage?.isSome) :
    role (c.labelOf i) = .word := by
  have hs {start} (hlen : 6 ≤ start.toList.length) (hr : role start = .word)
      (rest : String) : role (start ++ rest) = .word := by
    rw [role_append hlen, hr]
  cases i with
  | constant ns name =>
    cases ns <;> simp only [labelOf, constantLabel, String.append_assoc] <;>
      exact hs (by decide) (by decide) _
  | global name =>
    exact hs (by decide) (by decide) _
  | classVariable owner name =>
    simp only [labelOf, String.append_assoc]
    exact hs (by decide) (by decide) _
  | instanceVariable owner name =>
    cases owner <;> simp only [labelOf, Option.elim_none, Option.elim_some, classVariableStem,
      String.append_assoc] <;> exact hs (by decide) (by decide) _
  | cls name => cases hi
  | method site => cases hi

lemma Capital.role_label (hc : c.Capital) (ha : c.ClassesApart) {id : ClassId}
    (hid : id < c.classes.classes.size) : role (c.classes.label id) ∈ [.cls, .metaclass] := by
  obtain ⟨name, hn | ⟨owner, -, hm⟩⟩ := ha.regular.cover id hid
  · have hl := hn.toList_label
    have hu := hc hn.lookup
    rw [VarName.isConstant, Option.any_eq_true] at hu
    obtain ⟨ch, hh, hch⟩ := hu
    have hf : (c.classes.label id).toList.head? = some ch := by
      rw [hl]
      exact head?_pathChars hh (by simp [Char.isAlphanum, Char.isAlpha, hch])
    rw [role_of_isUpper hf hch]
    decide
  · have hl : c.classes.label id = "__meta_" ++ ofPath name := hm.label_eq
    rw [hl, role_append (by decide)]
    decide

end Resolver

/-! ### The text -/

section

variable {units : List SourceUnit} {trees lowered resolved : List UnitTree} {folding : Bool}
  {labels labels' : LabelTable} {p : Program} {c r : Resolver} {groups : List (List Routine)}

namespace Transformed

variable (h : Transformed units trees folding labels p lowered resolved c r groups)
include h

lemma statics_eq : p.statics = c.statics := by
  rw [h.program, h.resolver_eq.2]

lemma isRegular_slots : p.classes.slots.IsRegular := by
  have hc : initial.slots.Grows c.classes.slots := h.collected.slots
  obtain ⟨slots, hs, hp⟩ := h.classes_eq_laidOut
  rw [hp]
  exact SlotTable.isRegular_initial.of_grows ((grows_slots_initial.trans hc).trans hs)

lemma label_eq (id : ClassId) : p.classes.label id = c.classes.label id := by
  rw [ClassTable.label, ClassTable.info, h.classes_eq, ClassTable.label, ClassTable.info]

lemma role_routines :
    ∀ label ∈ p.routines.map Routine.label, role label ∈ [.unit, .method, .body] := by
  rw [h.map_label_routines, forall_mem_map]
  intro o ho
  obtain ⟨ρ, hs⟩ := exists_shape_of_mem (h.isResolved) ho
  rw [role_of_shape (h.isResolved) (h.role_methods) ho hs]
  cases hs <;> decide

end Transformed

lemma labels_entryPoint (us : List String) : Line.labels (entryPoint us) = ["main"] := by
  have hr : Line.labels (us.flatMap runUnit) = [] := by
    rw [Line.labels, filterMap_flatMap]
    exact flatMap_eq_nil_iff.mpr fun _ _ => rfl
  rw [entryPoint, Line.labels_append, Line.labels_append, hr]
  rfl

lemma role_once (rest : String) : role ("__once_" ++ rest) = .once := by
  rw [role_append (by decide)]
  decide

lemma nodup_once (n : Nat) : (Data.labels "__once_" n).Nodup := by
  refine List.Nodup.map (fun i j h => ?_) nodup_range
  exact eq_of_append_number (show "__once" ++ "_" ++ _ = "__once" ++ "_" ++ _ from h)

lemma role_missingMethod (name : String) : role (missingMethod name) = .missing := by
  rw [missingMethod, role_append (by decide)]
  decide

def literalStems : List String := ["symc_", "int", "cname_", "mname_", "str", "sym_"]

/-- How many literals a program has with each stem. -/
def literalCounts (p : Program) (l : Literals) : List (String × Nat) :=
  literalStems.zip [l.symbols.size, l.integers.size, p.classes.classes.size, p.classes.slots.names.size,
    l.strings.size, l.symbols.size]

lemma map_fst_literalCounts (p : Program) (l : Literals) :
    (literalCounts p l).map Prod.fst = literalStems := rfl

lemma map_inner_literalCounts (p : Program) (l : Literals) :
    ((literalCounts p l).flatMap fun count => innerKeys count.1 count.2).map
      (fun key => inner key.1 key.2) =
      Data.labels ".Lsymc_" l.symbols.size ++ Data.labels ".Lint" l.integers.size ++
        Data.labels ".Lcname_" p.classes.classes.size ++
        Data.labels ".Lmname_" p.classes.slots.names.size ++ Data.labels ".Lstr" l.strings.size ++
        Data.labels ".Lsym_" l.symbols.size := by
  simp only [literalCounts, literalStems, zip_cons_cons, zip_nil_right, flatMap_cons,
    flatMap_nil, map_append, append_nil, ← labels_eq_map_innerKeys, append_assoc]
  rfl

namespace Transformed

variable (h : Transformed units trees folding labels p lowered resolved c r groups)
include h

lemma nodup_by_role (hnodup : made.Nodup)
    (hm : ∀ key ∈ made, key.1 ∈ breakStem :: stems) (l : Literals) :
    (p.routines.map Routine.label ++ ["main"] ++ p.classes.slots.names.toList.map missingMethod ++
      (range p.classes.classes.size).map p.classes.label ++ p.statics.keys ++
      Data.labels "__once_" p.classSites ++
      (made ++ (literalCounts p l).flatMap fun count => innerKeys count.1 count.2).map
        fun key => inner key.1 key.2).Nodup := by
  have hr : ([.unit, .method, .body, .other, .missing, .cls, .metaclass, .word, .once, .inner] :
      List Label.Role).Nodup := by decide
  have hp := nodup_of_kinds role
    [([.unit, .method, .body], p.routines.map Routine.label), ([.other], ["main"]),
      ([.missing], p.classes.slots.names.toList.map missingMethod),
      ([.cls, .metaclass], (range p.classes.classes.size).map p.classes.label),
      ([.word], p.statics.keys), ([.once], Data.labels "__once_" p.classSites),
      ([.inner], (made ++ (literalCounts p l).flatMap fun count => innerKeys count.1 count.2).map
        fun key => inner key.1 key.2)]
    hr
  simp only [flatMap_cons, flatMap_nil, append_nil, forall_mem_cons, not_mem_nil,
    IsEmpty.forall_iff, implies_true, and_true] at hp
  simp only [append_assoc]
  refine hp ⟨⟨h.nodup_labels, h.role_routines⟩, ⟨nodup_singleton _, by decide⟩,
    ⟨?_, ?_⟩, ⟨?_, ?_⟩, ⟨Std.TreeMap.nodup_keys, ?_⟩, ⟨nodup_once _, ?_⟩, ⟨?_, ?_⟩⟩
  · exact h.isRegular_slots.nodup.map (append_mangle_injective _)
  · rw [forall_mem_map]
    exact fun name _ => mem_singleton.mpr (role_missingMethod name)
  · refine List.Nodup.map_on (fun id hid id' hid' heq => ?_) nodup_range
    rw [h.classes_eq, mem_range] at hid hid'
    rw [h.label_eq, h.label_eq] at heq
    exact h.sound.apart.label_injective hid hid' heq
  · rw [forall_mem_map]
    intro id hid
    rw [h.classes_eq, mem_range] at hid
    rw [h.label_eq]
    have hc : c.Capital := h.collected.capital
    exact hc.role_label h.sound.apart hid
  · intro label hl
    rw [Std.TreeMap.mem_keys, h.statics_eq] at hl
    obtain ⟨i, hk, rfl, -⟩ := h.sound.statics (Std.TreeMap.getElem?_eq_some_getElem hl)
    exact mem_singleton.mpr (Resolver.role_labelOf c (hk ▸ rfl))
  · intro label hl
    obtain ⟨i, -, rfl⟩ := mem_map.mp hl
    exact mem_singleton.mpr (role_once _)
  · refine nodup_inner hnodup hm ?_ fun count hcou => ?_
    · rw [map_fst_literalCounts]
      decide
    · have hmem : count.1 ∈ literalStems := map_fst_literalCounts p l ▸ mem_map_of_mem hcou
      have hall : literalStems.all isStem = true := by decide
      exact all_eq_true.mp hall _ hmem
  · rw [forall_mem_map]
    exact fun key _ => mem_singleton.mpr (role_inner _ _)

end Transformed

lemma Transformed.nodup_assembleLines
    (h : Transformed units trees folding labels p lowered resolved c r groups) {lines : List Line}
    (hlines : assembleLines p = .ok lines) : (Line.labels lines).Nodup := by
  obtain ⟨⟨code, t⟩, hcode, hlines⟩ := except_bind_eq_ok.mp hlines
  cases hlines
  obtain ⟨made, hp, hnodup, hm⟩ := (emitRoutines_labels hcode).exact
  have hste : ∀ key ∈ made, key.1 ∈ breakStem :: stems := by
    intro key hkey
    rcases hm key hkey with ⟨hs, -⟩ | ⟨hs, -⟩
    · exact mem_cons_of_mem _ hs
    · exact mem_cons.mpr (.inl hs)
  have hl : Line.labels (.directive ".text" :: code ++ entryPoint p.units ++ Data.lines p t.literals) =
      Line.labels code ++ ["main"] ++ Line.labels (Data.lines p t.literals) := by
    rw [Line.labels_append, Line.labels_append, labels_entryPoint]
    rfl
  rw [hl, Data.labels_lines]
  refine List.Perm.nodup ?_ (h.nodup_by_role hnodup hste t.literals)
  rw [map_append, map_inner_literalCounts]
  refine perm_iff_count.mpr fun label => ?_
  have hc := perm_iff_count.mp hp label
  simp only [count_append] at hc ⊢
  omega

/-- The routines are those of the scopes of resolved units, unit by unit: one of each top level, and one of
the body of each node that opens a scope. -/
def RoutinesOf (us : List UnitTree) (rs : List Routine) : Prop :=
  ∃ groups : List (List Routine), rs = groups.flatten ∧
    List.Forall₂ (fun q group => List.Forall₂ (fun o r => r.label = o.label ∧
        ∃ b, o.body? q.2.tree = some b ∧ Closure.RoutineOf (Closure.analyse (unitLabel q.1) q.2.tree)
          (fun j s => group[j]? = some s) o.scope b r) (q.2.tree.origins q.1) group)
      (numbered us) groups ∧
    ((origins us).filterMap RoutineOrigin.node?).Perm ((us.map tree).flatMap definers)

/-- The routines of a program have labels of their own, there is one for each definition, block and class
body, and no label is defined twice in the text. -/
theorem labels_distinct (hread : units.mapM SourceUnit.read = .ok trees)
    (h : transform trees folding labels = .ok p labels') :
    (p.routines.map Routine.label).Nodup ∧
      (∃ lowered resolved r, trees.mapM (UnitTree.lower · folding) = .ok lowered ∧
        resolveUnits lowered (.start labels) = .ok resolved r ∧ RoutinesOf resolved p.routines) ∧
      ∀ text, assemble p = .ok text → ∃ lines, assembleLines p = .ok lines ∧
        text = assemblyText lines ∧ (Line.labels lines).Nodup := by
  obtain ⟨lowered, resolved, c, r, groups, h⟩ := transform_eq_ok hread h
  have hroutines : p.routines = groups.flatten := by rw [h.program]
  refine ⟨h.nodup_labels, ⟨lowered, resolved, r, h.lower, h.units, groups, hroutines,
    h.forall₂_groups, perm_definers (h.isResolved)⟩, fun text htext => ?_⟩
  rw [assemble] at htext
  cases hlines : assembleLines p with
  | error e =>
    rw [hlines] at htext
    cases htext
  | ok lines =>
    rw [hlines] at htext
    exact ⟨lines, rfl, (Except.ok.inj htext).symm, h.nodup_assembleLines hlines⟩

end

def steadySource : SourceUnit := ⟨"b.rb", "m { 1 }"⟩

def steadyUnit : UnitTree :=
  ⟨.node .seq (firstLine 0 7) 4 [.node .call (firstLine 0 1) 1 [.name "m", .node .args (firstLine 0 1) 0 [],
    .node .lambda (firstLine 2 7) 3 [.node .args (firstLine 4 5) 2 [], .int 1]]], 5⟩

lemma read_steadySource : steadySource.read = .ok steadyUnit := by cbv

lemma lower_steadyUnit : steadyUnit.lower true = .ok steadyUnit := by with_unfolding_all rfl

lemma resolveUnits_steadyUnit (r : Resolver) : ∃ r',
    resolveUnits [breakingUnit, steadyUnit] r = .ok [breakingUnit, steadyUnit] r' :=
  ⟨_, by with_unfolding_all rfl⟩

lemma emitRoutines_steadyUnit : ∃ (groups : List (List Routine)) (code : List Line × Shared),
    ((numbered [breakingUnit, steadyUnit]).mapM fun q : Nat × UnitTree =>
      liftRoutines (unitLabel q.1) q.2.tree q.2.nextId) = .ok groups ∧
      emitRoutines groups.flatten {} = .ok code := by
  have hcode : ((numbered [breakingUnit, steadyUnit]).mapM (fun q : Nat × UnitTree =>
      liftRoutines (unitLabel q.1) q.2.tree q.2.nextId)).toOption.map
        (fun groups => (emitRoutines groups.flatten {}).toOption.isSome) = some true := by cbv
  obtain ⟨groups, hgroups, hs⟩ := Option.map_eq_some_iff.mp hcode
  obtain ⟨code, hcode⟩ := Option.isSome_iff_exists.mp hs
  exact ⟨groups, code, except_toOption_eq_some.mp hgroups, except_toOption_eq_some.mp hcode⟩

/-- Two units, each with a block, one of which breaks. -/
theorem labels_distinct_two_units : ∃ trees p labels' text,
    [breakingSource "a.rb", steadySource].mapM SourceUnit.read = .ok trees ∧
      transform trees true {} = .ok p labels' ∧ assemble p = .ok text ∧
      (p.routines.map Routine.label).Nodup ∧
      (∃ lowered resolved r, trees.mapM (lower · true) = .ok lowered ∧
        resolveUnits lowered (.start {}) = .ok resolved r ∧ RoutinesOf resolved p.routines) ∧
      ∃ lines, assembleLines p = .ok lines ∧ text = assemblyText lines ∧ (labels lines).Nodup := by
  obtain ⟨r, hresolve⟩ := resolveUnits_steadyUnit (.start {})
  obtain ⟨groups, ⟨code, t⟩, hgroups, hcode⟩ := emitRoutines_steadyUnit
  have hread : [breakingSource "a.rb", steadySource].mapM SourceUnit.read =
      .ok [breakingUnit, steadyUnit] := by
    simp only [List.mapM_cons, List.mapM_nil, read_breakingSource, read_steadySource]
    rfl
  have hlower : [breakingUnit, steadyUnit].mapM (lower · true) = .ok [breakingUnit, steadyUnit] := by
    simp only [List.mapM_cons, List.mapM_nil, lower_breakingUnit, lower_steadyUnit]
    rfl
  obtain ⟨p, hp, hroutines⟩ : ∃ p, transform [breakingUnit, steadyUnit] true {} = .ok p r.labels ∧
      p.routines = groups.flatten := ⟨_, transform_of_eq_ok hlower hresolve hgroups, rfl⟩
  obtain ⟨text, htext⟩ : ∃ text, assemble p = .ok text := by
    rw [assemble, assembleLines, hroutines, hcode]
    exact ⟨_, rfl⟩
  obtain ⟨hnodup, hone, hlines⟩ := labels_distinct hread hp
  exact ⟨_, p, _, text, hread, hp, htext, hnodup, hone, hlines text htext⟩

end Garnet
