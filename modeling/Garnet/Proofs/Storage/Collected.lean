import Garnet.Program.Transform
import Garnet.Proofs.Class.Slots
import Garnet.Proofs.Storage.Change
import Garnet.Proofs.Storage.Fields

/-!
# Collecting takes steps

Collecting a program is a sequence of the steps of `Resolver.Change`, whatever its units are: this is
`collectUnits_changes`. So what the steps keep, which is `Resolver.Sound`, holds of the outcome.
-/

namespace Garnet

variable {place : Collect.Place} {owner ns : Option ClassId} {kind : ClassKind}

open List Resolver Collect ClassTable

/-! ### Places -/

/-- The context of the body of an object's class. -/
def Resolver.objectContext (r : Resolver) (ctx : Context) (object : Tree) : Context :=
  match r.openedSingleton? ctx object with
  | some id => r.singletonContext ctx id
  | none => dynamicContext ctx

/-- The classes around a place are there, and so are those that get its methods and variables. -/
structure Context.Within (ctx : Context) (t : ClassTable) : Prop where
  lexical : ∀ id ∈ ctx.lexical, ∃ name, t.IsNamed id name
  definee : ∀ id ∈ ctx.definee, id < t.classes.size
  word : ∀ {stem}, ctx.instanceVars = .word stem →
    stem = "__ivar__main" ∨ ∃ id < t.classes.size, stem = "__civar__" ++ t.label id

/-- A name stands for a word of static storage at a place. -/
def Context.UsesWord (ctx : Context) (name : String) : Prop :=
  VarName.isGlobal name = true ∨ VarName.isClassVariable name = true ∨
    VarName.startsWithAt name = true ∧ ∃ stem, ctx.instanceVars = .word stem

namespace Context.Within

variable {id : ClassId} {ctx : Context} {t t' : ClassTable} {r : Resolver}

lemma mono (h : t.Extends t') (hctx : ctx.Within t) : ctx.Within t' where
  lexical id hid := by
    obtain ⟨name, hn⟩ := hctx.lexical id hid
    exact ⟨name, hn.mono h⟩
  definee id hid := Nat.lt_of_lt_of_le (hctx.definee id hid) h.size_le
  word hw := by
    refine (hctx.word hw).imp_right ?_
    rintro ⟨id, hid, rfl⟩
    exact ⟨id, Nat.lt_of_lt_of_le hid h.size_le, by rw [h.label_eq hid]⟩

lemma top (hs : r.Sound) : r.topContext.Within r.classes where
  lexical id hid := by cases hid
  definee id hid := by
    obtain ⟨obj, hobj⟩ := hs.object
    obtain rfl : r.object = id := Option.some.inj hid
    rw [object, hobj]
    exact (hs.apart.regular.named hobj).lt_size
  word hw := .inl (by cases hw; rfl)

lemma body (hctx : ctx.Within r.classes) {name : String} (hid : r.classes.IsNamed id name) :
    (r.bodyContext ctx id).Within r.classes where
  lexical := forall_mem_cons.mpr ⟨⟨name, hid⟩, hctx.lexical⟩
  definee id' hid' := by
    obtain rfl := Option.some.inj hid'
    exact hid.lt_size
  word hw := .inr ⟨id, hid.lt_size, by cases hw; rfl⟩

lemma singleton (hctx : ctx.Within r.classes) (hid : id < r.classes.classes.size) :
    (r.singletonContext ctx id).Within r.classes where
  lexical := hctx.lexical
  definee id' hid' := by
    obtain rfl := Option.some.inj hid'
    exact hid
  word hw := .inr ⟨id, hid, by cases hw; rfl⟩

lemma dynamic (hctx : ctx.Within r.classes) : (dynamicContext ctx).Within r.classes where
  lexical := hctx.lexical
  definee id' hid' := by cases hid'
  word hw := by cases hw

lemma method (hs : r.Sound) (hctx : ctx.Within r.classes)
    (hown : ∀ id ∈ owner, id < r.classes.classes.size) (name : String) (params : Tree) :
    (r.methodContext ctx name owner params).Within r.classes where
  lexical := hctx.lexical
  definee := hown
  word {stem} hw := by
    have hw : r.methodVariables owner = .word stem := hw
    cases owner with
    | none => cases hw
    | some id =>
      unfold methodVariables at hw
      dsimp only at hw
      obtain ⟨cls, hn | ⟨o, ho, hm⟩⟩ := hs.apart.regular.cover id (hown id rfl)
      · split at hw
        · exact absurd (by assumption) hn.kind_ne
        · split at hw <;> cases hw
        · cases hw
      · rw [hm.kind_eq, hm.owner_eq] at hw
        exact .inr ⟨o, ho.lt_size, by cases hw; rfl⟩

end Context.Within

/-! ### What constants lead to -/

section

variable {ctx : Context} {receiver path : Tree} {around : Span} {r : Resolver} {name : String} {id : ClassId}

lemma constantIn?_cls (h : r.constantIn? name ns = some (.cls id)) :
    ∃ name, r.classes.lookup? name = some id := by
  rw [constantIn?] at h
  split at h
  · rename_i id' hlookup
    obtain rfl : id' = id := by simpa using h
    exact ⟨_, hlookup⟩
  · split at h <;> simp at h

lemma constant?_cls {lexical : List ClassId} (h : r.constant? lexical name = some (.cls id)) :
    ∃ name, r.classes.lookup? name = some id := by
  rw [constant?, Option.or_eq_some_iff] at h
  rcases h with h | ⟨-, h⟩
  · obtain ⟨_, _, h⟩ := exists_of_findSome?_eq_some h
    exact constantIn?_cls h
  · exact constantIn?_cls h

lemma found_eq_ok {cause : TransformCause} {span : Span} {found? : Option ConstRef} {c : ConstRef}
    (h : constantPath.found cause span found? = .ok c) : found? = some c := by
  cases found? with
  | none => cases h
  | some d => rw [Except.ok.inj h]

lemma constantPath_cls (h : r.constantPath ctx around path = .ok (.cls id)) :
    ∃ name, r.classes.lookup? name = some id := by
  unfold constantPath at h
  split at h
  · exact constant?_cls (found_eq_ok h)
  · exact constantIn?_cls (found_eq_ok h)
  · obtain ⟨c, -, h⟩ := except_bind_eq_ok.mp h
    obtain ⟨d, -, h⟩ := except_bind_eq_ok.mp h
    obtain ⟨_, _, h⟩ := exists_of_findSome?_eq_some (found_eq_ok h)
    exact constantIn?_cls h
  · cases h
  · cases h

lemma classPath_spec (h : r.classPath ctx around path = .ok id) :
    ∃ name, r.classes.lookup? name = some id := by
  obtain ⟨c, hc, h⟩ := except_bind_eq_ok.mp h
  cases c with
  | cls id' =>
    cases h
    exact constantPath_cls hc
  | value label => cases h

variable (hs : r.Sound) (hctx : ctx.Within r.classes)
include hs hctx

lemma singletonTarget?_lt (h : r.singletonTarget? ctx receiver = some id) :
    id < r.classes.classes.size := by
  -- the metaclass of a class with a name stands behind it
  have hme : ∀ {c : ClassId}, (∃ name, r.classes.lookup? name = some c) →
      (r.classes.info c).metaclass = some id → id < r.classes.classes.size := by
    rintro c ⟨name, hlookup⟩ hm
    rw [(hs.apart.regular.named hlookup).metaclass_eq] at hm
    cases hm
    exact (hs.apart.regular.metaclass hlookup).lt_size
  unfold singletonTarget? at h
  split at h
  · split at h
    · split at h
      · rename_i c hc
        obtain ⟨name, hn⟩ := hctx.lexical c (mem_of_head? hc)
        exact hme ⟨name, hn.lookup⟩ h
      · obtain ⟨obj, hobj⟩ := hs.object
        cases h
        rw [object, hobj]
        exact (hs.apart.regular.named hobj).lt_size
    · split at h
      · split at h
        · rename_i hc
          exact hme (constant?_cls hc) h
        · cases h
      · cases h
  · cases h

lemma openedSingleton?_lt (h : r.openedSingleton? ctx receiver = some id) :
    id < r.classes.classes.size := by
  rw [openedSingleton?] at h
  split at h
  · obtain ⟨c, hc, hm⟩ := Option.bind_eq_some_iff.mp h
    obtain ⟨name, hn⟩ := hctx.lexical c (mem_of_head? hc)
    rw [hn.metaclass_eq] at hm
    cases hm
    exact (hs.apart.regular.metaclass hn.lookup).lt_size
  · cases h

lemma Context.Within.object (object : Tree) : (r.objectContext ctx object).Within r.classes := by
  rw [objectContext]
  split
  · exact hctx.singleton (openedSingleton?_lt hs hctx ‹_›)
  · exact hctx.dynamic

lemma staticWord_item (hw : ctx.UsesWord name) :
    ∃ i, i.storage? = some (r.staticWord ctx name).kind ∧ r.Admits i ∧
      r.entityOf? i = some ⟨(r.staticWord ctx name).what, name⟩ ∧
      r.labelOf i = (r.staticWord ctx name).label := by
  unfold staticWord
  dsimp only
  split
  · exact ⟨.global name, rfl, trivial, rfl, rfl⟩
  · rename_i hg
    split
    · -- the class around the place has a name, so it is no metaclass
      obtain ⟨cls, hcls⟩ : ∃ cls, r.classes.IsNamed (ctx.lexical.head?.getD r.object) cls := by
        cases hh : ctx.lexical.head? with
        | none =>
          obtain ⟨obj, hobj⟩ := hs.object
          rw [object, hobj]
          exact ⟨_, hs.apart.regular.named hobj⟩
        | some c => exact hctx.lexical c (mem_of_head? hh)
      rw [hcls.owner_eq]
      exact ⟨.classVariable _ name, rfl, ⟨cls, hcls⟩, rfl, rfl⟩
    · rename_i hc
      obtain ⟨-, stem, hst⟩ := (hw.resolve_left hg).resolve_left hc
      rw [hst]
      rcases hctx.word hst with rfl | ⟨id, hid, rfl⟩
      · exact ⟨.instanceVariable none name, rfl, fun _ h => (by cases h), rfl, rfl⟩
      · refine ⟨.instanceVariable (some id) name, rfl, fun id' h => ?_, rfl, rfl⟩
        cases h
        exact hid

end

/-! ### What is entered at a place -/

/-- A computation at a place takes steps that enter neither a class nor a method. Names of methods may
get places. -/
structure Enters (ctx : Context) (r r' : Resolver) : Prop where
  changes : r.Sound → ctx.Within r.classes → r.Changes r'
  names : r'.classes.byName = r.classes.byName
  slots : r.classes.slots.Grows r'.classes.slots
  classSites : r'.classSites = r.classSites
  methodSites : r'.methodSites = r.methodSites
  unit : r'.unit = r.unit

section

variable {name : String} {cls : ClassId} {r r' : Resolver} {ctx : Context} {span : Span}

lemma Resolver.Changes.within (h : r.Changes r') (hs : r.Sound) (hctx : ctx.Within r.classes) :
    r'.Sound ∧ ctx.Within r'.classes := by
  obtain ⟨hs', hg⟩ := h.sound hs
  exact ⟨hs', hctx.mono hg.classes⟩

lemma Enters.refl : Enters ctx r r := ⟨fun _ _ => .refl, rfl, .refl _, rfl, rfl, rfl⟩

lemma Enters.trans {r'' : Resolver} (h : Enters ctx r r') (h' : Enters ctx r' r'') : Enters ctx r r'' where
  changes hs hctx := by
    have hste := h.changes hs hctx
    obtain ⟨hs', hctx'⟩ := hste.within hs hctx
    exact hste.trans (h'.changes hs' hctx')
  names := h'.names.trans h.names
  slots := h.slots.trans h'.slots
  classSites := h'.classSites.trans h.classSites
  methodSites := h'.methodSites.trans h.methodSites
  unit := h'.unit.trans h.unit

lemma register_eq_ok {label kind : String} (h : register label kind name span r = .ok () r') :
    ∃ labels, r.labels.insert label ⟨kind, name⟩ = .ok labels ∧ r' = { r with labels } := by
  rw [register, get_bind_eq] at h
  cases hl : r.labels.insert label ⟨kind, name⟩ with
  | ok labels =>
    rw [hl] at h
    cases h
    exact ⟨labels, rfl, rfl⟩
  | error clash =>
    rw [hl] at h
    cases h

lemma addStatic_eq_ok {label what : String} {kind : StaticKind}
    (h : addStatic label kind what name span r = .ok () r') :
    ∃ labels, r.labels.insert label ⟨what, name⟩ = .ok labels ∧
      r' = { r with labels, statics := r.statics.insert label kind } := by
  obtain ⟨_, t, hreg, h⟩ := bind_eq_ok.mp h
  obtain ⟨labels, hl, rfl⟩ := register_eq_ok hreg
  cases h
  exact ⟨labels, hl, rfl⟩

lemma variableName_cases (h : variableName name ctx span r = .ok () r') :
    (addStatic (r.staticWord ctx name).label (r.staticWord ctx name).kind
        (r.staticWord ctx name).what name span r = .ok () r' ∧ ctx.UsesWord name) ∨
      ¬ ctx.UsesWord name ∧ (r' = r ∨ ∃ id, r' = { r with classes := r.classes.addVariable id name }) := by
  unfold variableName at h
  split at h
  · rename_i hn
    exact .inl ⟨h, (Bool.or_eq_true _ _).mp hn |>.imp_right .inl⟩
  · rename_i hn
    rw [Bool.or_eq_true] at hn
    split at h
    · rename_i hat
      cases hh : ctx.instanceVars with
      | word stem =>
        rw [hh] at h
        exact .inl ⟨h, .inr (.inr ⟨hat, stem, hh⟩)⟩
      | field id =>
        rw [hh] at h
        cases h
        exact .inr ⟨by simp [Context.UsesWord, hn, hh], .inr ⟨id, rfl⟩⟩
      | dynamic =>
        rw [hh] at h
        cases h
        exact .inr ⟨by simp [Context.UsesWord, hn, hh], .inl rfl⟩
    · rename_i hat
      cases h
      exact .inr ⟨by simp [Context.UsesWord, hn, hat], .inl rfl⟩

lemma variableName_changes (hs : r.Sound) (hctx : ctx.Within r.classes)
    (h : Collect.variableName name ctx span r = .ok () r') : r.Changes r' := by
  rcases variableName_cases h with ⟨hadd, hw⟩ | ⟨-, rfl | ⟨id, rfl⟩⟩
  · obtain ⟨labels, hl, rfl⟩ := addStatic_eq_ok hadd
    obtain ⟨i, hk, ha, hent, hlab⟩ := staticWord_item hs hctx hw
    rw [← hlab] at hl ⊢
    exact .single (.word hk ha hent hl)
  · exact .refl
  · exact .single (.classes _ (ClassTable.extends_addVariable _ _ _)
      (by simp [ClassTable.addVariable, ClassTable.modify]) rfl)

lemma enters_variableName (h : variableName name ctx span r = .ok () r') : Enters ctx r r' := by
  have hste := fun hs (hctx : ctx.Within _) => variableName_changes hs hctx h
  rcases variableName_cases h with ⟨hadd, -⟩ | ⟨-, rfl | ⟨id, rfl⟩⟩
  · obtain ⟨labels, -, rfl⟩ := addStatic_eq_ok hadd
    exact ⟨hste, rfl, .refl _, rfl, rfl, rfl⟩
  · exact .refl
  · exact ⟨hste, rfl, .refl _, rfl, rfl, rfl⟩

lemma enters_constant (hns : r.Sound → ctx.Within r.classes → r.Admits (.constant ns name))
    (h : constant ns name span r = .ok () r') :
    Enters ctx r r' ∧ (r.Sound → ctx.Within r.classes → r'.Entered (.constant ns name)) := by
  rw [constant, get_bind_eq] at h
  obtain ⟨_, t, hadd, h⟩ := bind_eq_ok.mp h
  obtain ⟨labels, hl, rfl⟩ := addStatic_eq_ok hadd
  cases h
  have hent (hs : r.Sound) (hctx : ctx.Within r.classes) : Entered { r with labels } (.constant ns name) := by
    have hns := hns hs hctx
    have hg := ((Change.word rfl hns rfl hl).sound hs).2
    exact ⟨hg.admits hns, _, hg.entityOf? hns, (LabelTable.get?_insert hl _).trans (if_pos rfl)⟩
  refine ⟨⟨fun hs hctx => ?_, rfl, .refl _, rfl, rfl, rfl⟩, hent⟩
  exact .tail (.single (.word rfl (hns hs hctx) rfl hl)) (.constant (hent hs hctx))

lemma ofExcept_bind_eq_ok {α β : Type} {x : Except Fault α} {f : α → Resolve β} {b : β} :
    (Resolve.ofExcept x >>= f) r = .ok b r' ↔ ∃ a, x = .ok a ∧ f a r = .ok b r' := by
  cases x with
  | ok a => exact ⟨fun h => ⟨a, rfl, h⟩, fun ⟨_, ha, h⟩ => Except.ok.inj ha ▸ h⟩
  | error e => exact ⟨nofun, nofun⟩

lemma enters_includePaths {paths : List Tree} (h : Collect.includePaths cls paths ctx span r = .ok () r') :
    Enters ctx r r' := by
  induction paths generalizing r with
  | nil =>
    cases h
    exact .refl
  | cons path paths ih =>
    obtain ⟨_, t, hone, hr⟩ := bind_eq_ok.mp h
    dsimp only at hone
    obtain ⟨mixin, -, hone⟩ := ofExcept_bind_eq_ok.mp hone
    cases hone
    have hs : r.Change { r with classes := r.classes.includeModule cls mixin } :=
      .classes _ (ClassTable.extends_includeModule _ _ _)
        (by simp [ClassTable.includeModule, ClassTable.modify]) rfl
    exact .trans ⟨fun _ _ => .single hs, rfl, .refl _, rfl, rfl, rfl⟩ (ih hr)

lemma enters_secondName {new old : String}
    (h : Collect.secondName ctx new old span r = .ok () r') : Enters ctx r r' := by
  unfold Collect.secondName at h
  split at h
  · cases h
    exact .refl
  · obtain ⟨cls, t, ht, h⟩ := bind_eq_ok.mp h
    obtain rfl : r = t := by cases ht; rfl
    rw [get_bind_eq, ClassTable.aliasMethod] at h
    cases hf : r.classes.findMethod? cls old with
    | some label =>
      rw [hf] at h
      cases h
      refine ⟨fun _ _ => ?_, rfl, SlotTable.grows_insert _ _, rfl, rfl, rfl⟩
      exact .single (.classes _ (ClassTable.extends_defineMethod _ _ _ _)
        (by simp [ClassTable.defineMethod, ClassTable.modify]) rfl)
    | none =>
      rw [hf] at h
      cases h

lemma enters_directive {d : Directive} (h : directive d ctx span r = .ok () r') :
    Enters ctx r r' := by
  cases d with
  | mixin paths extend => exact enters_includePaths h
  | secondName new old => exact enters_secondName h

lemma method_eq_ok {n : Node} {install : Install} (h : method n name owner install r = .ok () r') :
    ∃ labels, r.labels.insert (r.nextLabel owner name) (r.methodEntity owner name) = .ok labels ∧
      r' = r.addMethod labels n.id name owner install := by
  obtain ⟨base, t, hb, hr⟩ := bind_eq_ok.mp h
  rw [get_bind_eq] at hr
  rw [modify_bind_eq] at hr
  rw [get_bind_eq] at hr
  obtain ⟨_, u, hreg, hl⟩ := bind_eq_ok.mp hr
  obtain ⟨labels, hlab, rfl⟩ := register_eq_ok hreg
  cases hl
  cases owner with
  | none | some id =>
    cases hb
    exact ⟨labels, hlab, rfl⟩

lemma namespaceOf_admits {clsName : String} (h : r.classes.IsNamed cls clsName) :
    r.Admits (.constant (r.namespaceOf cls) name) := by
  intro id hid
  rw [namespaceOf] at hid
  split at hid
  · cases hid
  · cases hid
    exact ⟨clsName, h⟩

lemma definingNamespace_admits (hctx : ctx.Within r.classes) :
    r.Admits (.constant (r.definingNamespace ctx) name) := by
  rw [definingNamespace]
  cases hh : ctx.lexical.head? with
  | none => exact fun id hid => by cases hid
  | some c =>
    obtain ⟨clsName, hcls⟩ := hctx.lexical c (mem_of_head? hh)
    exact namespaceOf_admits hcls

end

/-! ### The walk -/

/-- The program with one more class body, whose class is defined and entered. -/
def Resolver.addClass (r : Resolver) (t : ClassTable) (labels : LabelTable) (node : Nat) (id : ClassId) : Resolver :=
  { r with classes := t, labels, classSites := r.classSites.insert ⟨r.unit, node⟩ id }

/-- The last name of a path of constants. -/
def Tree.lastName (e : Tree) : String := match e with
  | .name v => v
  | .node .path span id es => ((Node.mk .path span id es).name? 1).getD ""
  | .node .topPath span id es => ((Node.mk .topPath span id es).name? 0).getD ""
  | _ => ""

/-- What the walk does at trees with the same surroundings, one after another. -/
inductive Visits : Context → List Tree → Resolver → Resolver → Prop
  | nil {ctx r} : Visits ctx [] r r
  | cons {ctx e es r s r'} (first : Visits ctx [e] r s)
      (rest : Visits ctx es s r') : Visits ctx (e :: es) r r'
  | leaf {ctx} {e : Tree} {r} (node : e.node? = none) (name : e.name? = none) :
      Visits ctx [e] r r
  | name {ctx v span r r'} (enter : variableName v ctx span r = .ok () r') : Visits ctx [.name v] r r'
  | node {ctx} {n : Node} {r s r'} (tag : n.tag.isDefinition = false)
      (enters : Enters ctx r s) (shown : Visits ctx n.shown s r')
      (binds : n.tag = .assign → (n.child 0).isConstantPath → r.Sound → ctx.Within r.classes →
        ∃ ns, s.Entered (.constant ns (n.child 0).lastName)) : Visits ctx [n.tree] r r'
  | cls {ctx} {n : Node} {kind : ClassKind} {name} {superclass : Option ClassId}
      {id t labels} {r r' : Resolver} (tag : n.tag.isClass)
      (ordinary : kind ≠ .metaclass) (named : r.definedName ctx n.span (n.child 0) = .ok name)
      (known : ∀ s ∈ superclass, ∃ other, r.classes.lookup? other = some s)
      (define : r.classes.define name kind superclass = .ok (id, t))
      (enter : r.labels.insert (t.label id) ⟨"class", name⟩ = .ok labels)
      (body : Visits ((r.addClass t labels n.id id).bodyContext ctx id) n.shown
        (r.addClass t labels n.id id) r') : Visits ctx [n.tree] r r'
  | singletonClass {ctx} {n : Node} {r s r'} (tag : n.tag = .singletonClass)
      (object : Visits ctx [n.child 0] r s)
      (body : Visits (s.objectContext ctx (n.child 0)) [n.child 1] s r') : Visits ctx [n.tree] r r'
  /-- The name of a method, its parameters and its body stand from place `i` on, behind the objects. -/
  | method {ctx} {n : Node} {i : Nat} {objects : List Tree} {name}
      {owner : Option ClassId} {install labels r} {s : Resolver} {r'}
      (tag : n.tag = .method ∧ i = 0 ∧ objects = [] ∨
        n.tag = .singletonMethod ∧ i = 1 ∧ objects = [n.child 0])
      (before : Visits ctx objects r s)
      (plain : ∀ e ∈ objects, e.node? = none ∨ install = .onObject)
      (valid : s.Sound → ctx.Within s.classes → ∀ id ∈ owner, id < s.classes.classes.size)
      (enter : s.labels.insert (s.nextLabel owner name) (s.methodEntity owner name) = .ok labels)
      (body : Visits ((s.addMethod labels n.id name owner install).methodContext ctx name owner
          (n.child (i + 1))) [n.child (i + 2)] (s.addMethod labels n.id name owner install) r') :
      Visits ctx [n.tree] r r'

section

variable {r r' : Resolver} {ctx : Context} {es : List Tree}

lemma changes_addClass {name : String} {superclass : Option ClassId} {id : ClassId} {t : ClassTable}
    {labels : LabelTable} (hk : kind ≠ .metaclass)
    (hs : ∀ s ∈ superclass, ∃ other, r.classes.lookup? other = some s)
    (hd : r.classes.define name kind superclass = .ok (id, t))
    (hl : r.labels.insert (t.label id) ⟨"class", name⟩ = .ok labels) (node : Nat) :
    r.Changes (r.addClass t labels node id) :=
  .head (.cls hk hs hd hl) (.single (.classSite node id))

lemma Visits.changes (h : Visits ctx es r r') (hs : r.Sound) (hctx : ctx.Within r.classes) :
    r.Changes r' := by
  induction h with
  | nil => exact .refl
  | leaf => exact .refl
  | name h => exact variableName_changes hs hctx h
  | cons _ _ ih ih' =>
    have hste := ih hs hctx
    obtain ⟨hs', hctx'⟩ := hste.within hs hctx
    exact hste.trans (ih' hs' hctx')
  | node _ henters _ _ ih =>
    have hste := henters.changes hs hctx
    obtain ⟨hs', hctx'⟩ := hste.within hs hctx
    exact hste.trans (ih hs' hctx')
  | @cls _ n _ _ _ _ _ _ _ _ _ hk _ hsup hd hl _ ih =>
    have hste := changes_addClass hk hsup hd hl n.id
    obtain ⟨hs', hctx'⟩ := hste.within hs hctx
    exact hste.trans (ih hs' (hctx'.body
      (define_spec hs.apart.regular hk hsup hd).2.2))
  | singletonClass _ _ _ ih ih' =>
    have hste := ih hs hctx
    obtain ⟨hs', hctx'⟩ := hste.within hs hctx
    exact hste.trans (ih' hs' (hctx'.object hs' _))
  | @method _ n _ _ name owner install labels _ s _ _ _ _ hv hl _ ih ih' =>
    have hste := ih hs hctx
    obtain ⟨hs', hctx'⟩ := hste.within hs hctx
    have hm : s.Change (s.addMethod labels n.id name owner install) :=
      .method _ (hv hs' hctx') hl
    refine hste.trans (.head hm ?_)
    obtain ⟨hs'', hg⟩ := hm.sound hs'
    exact ih' hs'' ((hctx'.mono hg.classes).method hs''
      (fun id hid => Nat.lt_of_lt_of_le (hv hs' hctx' id hid) hg.classes.size_le) _ _)

lemma Visits.unit_eq (h : Visits ctx es r r') : r'.unit = r.unit := by
  induction h with
  | nil => rfl
  | leaf => rfl
  | name h => exact (enters_variableName h).unit
  | cons _ _ ih ih' => exact ih'.trans ih
  | node _ henters _ _ ih => exact ih.trans henters.unit
  | cls _ _ _ _ _ _ _ ih => exact ih
  | singletonClass _ _ _ ih ih' => exact ih'.trans ih
  | method _ _ _ _ _ _ ih ih' => exact ih'.trans ih

end

/-! ### The walk makes visits -/

section

variable {rec : Collect.Place → Tree → Resolve Unit} {n : Node} {ctx : Context} {span : Span}
  {r r' : Resolver}

lemma superclass_eq_ok {c : Prop} [Decidable c] {path : Resolver → Except Fault ClassId}
    {f : Option ClassId → Resolve Unit}
    (h : (if c then do
        let s ← get
        let superclass ← some <$> Resolve.ofExcept (path s)
        f superclass
      else do
        let superclass ← pure none
        f superclass : Resolve Unit) r = .ok () r') :
    ∃ superclass, (∀ s ∈ superclass, path r = .ok s) ∧ f superclass r = .ok () r' := by
  split at h
  · rw [get_bind_eq] at h
    obtain ⟨superclass, t, hp, hr⟩ := bind_eq_ok.mp h
    cases hx : path r with
    | ok id =>
      rw [hx] at hp
      cases hp
      exact ⟨_, fun s hs => Option.some.inj hs ▸ rfl, hr⟩
    | error e =>
      rw [hx] at hp
      cases hp
  · exact ⟨none, nofun, h⟩

variable (hrec : ∀ place c, c.size < n.tree.size → ∀ {s s'}, rec place c s = .ok () s' →
  Visits place.1 [c] s s')
include hrec

lemma visits_inner {k : Nat} (h : inner rec ctx (n.child k) r = .ok () r') :
    Visits ctx [n.child k] r r' :=
  hrec (ctx, .zero) _ (n.size_child_lt k) h

lemma visits_forM (place : Collect.Place) {es : List Tree} (hes : ∀ e ∈ es, e ∈ n.children)
    (h : es.forM (rec place) r = .ok () r') :
    Visits place.1 es r r' := by
  induction es generalizing r with
  | nil =>
    cases h
    exact .nil
  | cons e es ih =>
    rw [forall_mem_cons] at hes
    obtain ⟨_, s, hone, hr⟩ := bind_eq_ok.mp h
    exact .cons (hrec place e (Node.size_lt_of_mem hes.1) hone) (ih hes.2 hr)

lemma visits_classBody (htag : n.tag.isClass) (hk : kind ≠ .metaclass)
    (hsho : n.shown = [n.child (if kind = .ordinary then 2 else 1)])
    (h : classBody rec ctx n kind r = .ok () r') : Visits ctx [n.tree] r r' := by
  rw [classBody] at h
  obtain ⟨name, hn, h⟩ := ofExcept_bind_eq_ok.mp h
  obtain ⟨superclass, hsup, h⟩ := superclass_eq_ok h
  rw [get_bind_eq] at h
  cases hd : r.classes.define name kind superclass with
  | ok p =>
    rw [hd] at h
    dsimp only at h
    rw [modify_bind_eq, pure_bind, get_bind_eq] at h
    obtain ⟨_, u, hreg, hr⟩ := bind_eq_ok.mp h
    obtain ⟨labels, hl, rfl⟩ := register_eq_ok hreg
    exact .cls htag hk hn (fun s hs => classPath_spec (hsup s hs)) hd hl
      (hsho ▸ visits_inner hrec hr)
  | error e =>
    rw [hd] at h
    cases h

lemma visits_singletonClass (htag : n.tag = .singletonClass)
    (h : singletonClass rec ctx n r = .ok () r') : Visits ctx [n.tree] r r' := by
  obtain ⟨_, s, ho, h⟩ := bind_eq_ok.mp h
  refine .singletonClass htag (visits_inner hrec ho) ?_
  rw [get_bind_eq] at h
  rw [objectContext]
  cases hope : s.openedSingleton? ctx (n.child 0) with
  | some id | none =>
    rw [hope] at h
    exact visits_inner hrec h

lemma visits_assignment (htag : n.tag = .assign) (h : assignment rec ctx n r = .ok () r') :
    Visits ctx [n.tree] r r' := by
  have hdef : n.tag.isDefinition = false := htag ▸ rfl
  have hc {s ns} (hp : (n.child 0).isConstantPath)
      (hcon : Enters ctx r s ∧ (r.Sound → ctx.Within r.classes →
        s.Entered (.constant ns (n.child 0).lastName)))
      (hv : inner rec ctx (n.child 1) s = .ok () r') : Visits ctx [n.tree] r r' :=
    .node hdef hcon.1 (by simpa [Node.shown, htag, hp] using visits_inner hrec hv)
      fun _ _ hs hctx => ⟨ns, hcon.2 hs hctx⟩
  have hinn {s} (hp : (n.child 0).isConstantPath = false) (ht : Visits ctx [n.child 0] r s)
      (hv : inner rec ctx (n.child 1) s = .ok () r') : Visits ctx [n.tree] r r' :=
    .node hdef .refl (by simpa [Node.shown, htag, hp] using .cons ht (visits_inner hrec hv))
      fun _ hpath => absurd hpath (by simp [hp])
  have ho (hp : (n.child 0).isConstantPath = false)
      (h : (do inner rec ctx (n.child 0); inner rec ctx (n.child 1) : Resolve Unit) r =
        .ok () r') : Visits ctx [n.tree] r r' := by
    obtain ⟨_, s, ht, hv⟩ := bind_eq_ok.mp h
    exact hinn hp (visits_inner hrec ht) hv
  unfold assignment at h
  cases hchi : n.child 0 with
  | name name =>
    rw [hchi] at h hinn hc
    dsimp only at h
    split at h
    · rename_i hn
      rw [get_bind_eq] at h
      obtain ⟨_, s, hf, hv⟩ := bind_eq_ok.mp h
      exact hc hn (enters_constant (fun _ hctx => definingNamespace_admits hctx) hf) hv
    · rename_i hn
      obtain ⟨_, s, hf, hv⟩ := bind_eq_ok.mp h
      exact hinn (Bool.not_eq_true _ ▸ hn) (.name hf) hv
  | node tag s id children =>
    rw [hchi] at h ho hc
    cases tag with
    | path =>
      dsimp only at h
      obtain ⟨cls, hcls, h⟩ := ofExcept_bind_eq_ok.mp h
      rw [get_bind_eq] at h
      obtain ⟨_, s, hf, hv⟩ := bind_eq_ok.mp h
      obtain ⟨clsName, hlookup⟩ := classPath_spec hcls
      exact hc rfl (enters_constant
        (fun hs _ => namespaceOf_admits (hs.apart.regular.named hlookup)) hf) hv
    | topPath =>
      obtain ⟨_, s, hf, hv⟩ := bind_eq_ok.mp h
      exact hc rfl (enters_constant (fun _ _ _ hid => by cases hid) hf) hv
    | _ => exact ho rfl h
  | _ =>
    rw [hchi] at h ho
    exact ho rfl h

lemma visits_step (h : step rec place n.tree r = .ok () r') : Visits place.1 [n.tree] r r' := by
  obtain ⟨ctx, around⟩ := place
  obtain ⟨tag, span, id, children⟩ := n
  have hq (hdef : tag.isDefinition = false) (ha : tag ≠ .assign)
      (hsho : (Node.mk tag span id children).shown = []) (h : Enters ctx r r') : Visits ctx [(Node.mk tag span id children).tree] r r' :=
    .node hdef h (hsho ▸ .nil) fun htag => absurd htag ha
  cases tag with
  | classBody | moduleBody => exact visits_classBody hrec rfl (by decide) rfl h
  | singletonClass => exact visits_singletonClass hrec rfl h
  | method =>
    obtain ⟨_, t, hmet, hb⟩ := bind_eq_ok.mp h
    obtain ⟨labels, hl, rfl⟩ := method_eq_ok hmet
    exact .method (.inl ⟨rfl, rfl, rfl⟩) .nil (by simp) (fun _ hctx => hctx.definee) hl
      (visits_inner hrec hb)
  | singletonMethod =>
    obtain ⟨_, s, ho, h⟩ := bind_eq_ok.mp h
    rw [get_bind_eq] at h
    obtain ⟨_, t, hmet, hb⟩ := bind_eq_ok.mp h
    obtain ⟨labels, hl, rfl⟩ := method_eq_ok hmet
    refine .method (.inr ⟨rfl, rfl, rfl⟩) (visits_inner hrec ho)
      (forall_mem_singleton.mpr ?_) (fun hs hctx id hid => singletonTarget?_lt hs hctx hid) hl
      (visits_inner hrec hb)
    cases hc : (Node.mk .singletonMethod span id children).child 0 with
    | node tag s i es => exact .inr rfl
    | _ => exact .inl rfl
  | inclusion => exact hq rfl (by decide) rfl (enters_includePaths h)
  | aliasing =>
    refine hq rfl (by decide) rfl ?_
    generalize hm : step rec _ _ = m at h
    unfold step Node.tree at hm
    dsimp only at hm
    split at hm <;> subst hm
    · exact enters_secondName h
    · cases h
      exact .refl
  | call =>
    generalize hm : step rec _ _ = m at h
    unfold step Node.tree at hm
    dsimp only at hm
    split at hm <;> subst hm
    · rename_i d hd
      exact hq rfl (by decide) (by simp [Node.shown, hd]) (enters_directive h)
    · rename_i hd
      refine .node rfl .refl ?_ fun htag => by cases htag
      simpa [Node.shown, hd] using visits_forM hrec _ (fun _ => mem_of_mem_tail) h
  | assign => exact visits_assignment hrec rfl h
  | defined =>
    cases h
    exact hq rfl (by decide) rfl .refl
  | _ => exact .node rfl .refl (visits_forM hrec (ctx, span) (fun _ he => he) h) fun htag => by cases htag

end

section

variable {e : Tree} {r r' : Resolver}

lemma visits_recurse (h : Tree.recurse step place e r = .ok () r') : Visits place.1 [e] r r' := by
  induction hs : e.size using Nat.strongRecOn generalizing place e r r' with
  | ind k ih =>
    rw [Tree.recurse_eq] at h
    cases e with
    | node tag span id children =>
      refine visits_step (n := ⟨tag, span, id, children⟩) (fun place c hc s s' h => ?_) h
      rw [if_pos (by exact hc)] at h
      exact ih _ (hs ▸ hc) h rfl
    | name v => exact .name h
    | _ =>
      cases h
      exact .leaf rfl rfl

lemma collect_changes {unit : Nat} (hs : r.Sound) (h : collect unit e r = .ok () r') : r.Changes r' := by
  rw [collect, modify_bind_eq] at h
  have hu := Change.unit (r := r) unit
  have hs' := (hu.sound hs).1
  exact .head hu ((visits_recurse h).changes hs' (.top hs'))

theorem collectUnits_changes {units : List (Nat × UnitTree)} (hs : r.Sound)
    (h : (units.forM fun (i, u) => collect i u.tree : Resolve Unit) r = .ok () r') : r.Changes r' := by
  induction units generalizing r with
  | nil =>
    cases h
    exact .refl
  | cons u units ih =>
    obtain ⟨_, t, hone, hr⟩ := bind_eq_ok.mp h
    have hste := collect_changes hs hone
    exact hste.trans (ih (hste.sound hs).1 hr)

end

/-! ### The start -/

lemma alphanum_of_initial {name : String} {id : ClassId}
    (h : initial.lookup? name = some id) : ∀ c ∈ name.toList, c.isAlphanum = true := by
  have hn := (holds_initial.mem name).mp (h ▸ rfl)
  have hall : (Builtin.classes.reverse.map BuiltinClass.name).all
      (fun n => n.toList.all Char.isAlphanum) = true := by decide
  exact all_eq_true.mp (all_eq_true.mp hall name hn)

lemma Resolver.classes_start (labels : LabelTable) : (start labels).classes = .initial := by rw [start]

lemma Resolver.sound_start (labels : LabelTable) : (start labels).Sound where
  apart := by
    constructor
    · rw [classes_start]
      exact holds_initial.regular
    · intro name id hlookup
      rw [classes_start] at hlookup
      exact .inl (alphanum_of_initial hlookup)
  object := by
    rw [classes_start]
    exact Option.isSome_iff_exists.mp ((holds_initial.mem "Object").mpr (by decide))
  constants hc := by simp [start] at hc
  statics hs := by simp [start] at hs
  methods hm := by simp [start] at hm
  methodsApart hm := by simp [start] at hm

end Garnet
