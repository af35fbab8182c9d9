import Garnet.Class.Builtin
import Mathlib.Data.List.Infix

/-!
# The identity of classes

A class keeps its name, its label and its place among the classes from its definition on, whatever
methods, modules and variables it gets later. A table is regular when its names lead to the classes
that have them, every class that has no name is the metaclass of the class before it, and superclasses
are older than their subclasses and have names.
-/

namespace Garnet

open List

/-- An earlier and a later state of one class. -/
structure ClassInfo.Alike (a b : ClassInfo) : Prop where
  name : b.name = a.name
  label : b.label = a.label
  kind : b.kind = a.kind
  superclass : b.superclass = a.superclass
  metaclass : b.metaclass = a.metaclass
  owner : b.owner = a.owner
  builtin : b.builtin = a.builtin
  vars : a.instanceVars ⊆ b.instanceVars

lemma ClassInfo.Alike.refl (a : ClassInfo) : a.Alike a :=
  ⟨rfl, rfl, rfl, rfl, rfl, rfl, rfl, List.Subset.refl _⟩

lemma ClassInfo.Alike.trans {a b c : ClassInfo} (h : a.Alike b) (h' : b.Alike c) : a.Alike c :=
  ⟨h'.name.trans h.name, h'.label.trans h.label, h'.kind.trans h.kind,
    h'.superclass.trans h.superclass, h'.metaclass.trans h.metaclass, h'.owner.trans h.owner,
    h'.builtin.trans h.builtin, List.Subset.trans h.vars h'.vars⟩

/-- The class has a name that none of the classes `cs` has, and its superclass is one of them. -/
def BuiltinClass.Follows (c : BuiltinClass) (cs : List BuiltinClass) : Prop :=
  c.name ∉ cs.map name ∧ c.kind ≠ .metaclass ∧ ∀ s ∈ c.superclass, c.kind = .ordinary ∧ s ∈ cs.map name

instance (c : BuiltinClass) (cs : List BuiltinClass) : Decidable (c.Follows cs) :=
  inferInstanceAs (Decidable (_ ∧ _ ∧ _))

namespace ClassTable

variable {id : ClassId} {cs : List BuiltinClass}

/-- A later table: it has the classes of the earlier one, under the same names. -/
structure Extends (t t' : ClassTable) : Prop where
  size_le : t.classes.size ≤ t'.classes.size
  info : ∀ id < t.classes.size, (t.info id).Alike (t'.info id)
  lookup : ∀ {name id}, t.lookup? name = some id → t'.lookup? name = some id

/-- The class that a name leads to. -/
structure IsNamed (t : ClassTable) (id : ClassId) (name : String) : Prop where
  lookup : t.lookup? name = some id
  lt_size : id < t.classes.size
  name_eq : (t.info id).name = name
  label_eq : (t.info id).label = Label.ofPath name
  kind_ne : (t.info id).kind ≠ .metaclass
  metaclass_eq : (t.info id).metaclass = some (id + 1)
  owner_eq : (t.info id).owner = none

/-- The metaclass of a class that has a name. -/
structure IsMetaclass (t : ClassTable) (id owner : ClassId) (name : String) : Prop where
  lt_size : id < t.classes.size
  eq_succ : id = owner + 1
  name_eq : (t.info id).name = "#<Class:" ++ name ++ ">"
  label_eq : (t.info id).label = "__meta_" ++ Label.ofPath name
  kind_eq : (t.info id).kind = .metaclass
  metaclass_eq : (t.info id).metaclass = none
  owner_eq : (t.info id).owner = some owner

/-- Names lead to the classes that have them, and all other classes are metaclasses. -/
structure Regular (t : ClassTable) : Prop where
  named : ∀ {name id}, t.lookup? name = some id → t.IsNamed id name
  metaclass : ∀ {name id}, t.lookup? name = some id → t.IsMetaclass (id + 1) id name
  cover : ∀ id < t.classes.size, ∃ name, t.IsNamed id name ∨ ∃ owner, t.IsNamed owner name ∧
    t.IsMetaclass id owner name
  older : ∀ id < t.classes.size, ∀ s ∈ (t.info id).superclass,
    s < id ∧ (t.info id).kind = .ordinary ∧ (t.info s).kind ≠ .metaclass

variable {t t' : ClassTable} {name : String} {superclass : Option ClassId} {kind : ClassKind}

/-! ### Later tables -/

lemma Extends.refl (t : ClassTable) : t.Extends t :=
  ⟨le_rfl, fun id _ => .refl (t.info id), fun h => h⟩

lemma Extends.trans {t'' : ClassTable} (h : t.Extends t') (h' : t'.Extends t'') : t.Extends t'' :=
  ⟨Nat.le_trans h.size_le h'.size_le,
    fun id hid => (h.info id hid).trans (h'.info id (Nat.lt_of_lt_of_le hid h.size_le)),
    fun hlookup => h'.lookup (h.lookup hlookup)⟩

lemma Extends.label_eq (h : t.Extends t') (hid : id < t.classes.size) : t'.label id = t.label id :=
  (h.info id hid).label

lemma IsNamed.mono (h : t.Extends t') (hn : t.IsNamed id name) : t'.IsNamed id name := by
  have hin := h.info id hn.lt_size
  exact ⟨h.lookup hn.lookup, Nat.lt_of_lt_of_le hn.lt_size h.size_le, hin.name.trans hn.name_eq,
    hin.label.trans hn.label_eq, hin.kind ▸ hn.kind_ne, hin.metaclass.trans hn.metaclass_eq,
    hin.owner.trans hn.owner_eq⟩

lemma IsMetaclass.mono {owner : ClassId} (h : t.Extends t')
    (hm : t.IsMetaclass id owner name) : t'.IsMetaclass id owner name := by
  have hin := h.info id hm.lt_size
  exact ⟨Nat.lt_of_lt_of_le hm.lt_size h.size_le, hm.eq_succ, hin.name.trans hm.name_eq,
    hin.label.trans hm.label_eq, hin.kind.trans hm.kind_eq,
    hin.metaclass.trans hm.metaclass_eq, hin.owner.trans hm.owner_eq⟩

/-! ### Changes to one class -/

lemma info_modify (t : ClassTable) (id : ClassId) (f : ClassInfo → ClassInfo) (i : ClassId) :
    (t.modify id f).info i = if i = id ∧ i < t.classes.size then f (t.info i) else t.info i := by
  rw [info, modify, Array.getElem?_modify, info]
  by_cases hi : i < t.classes.size
  · by_cases h : id = i
    · simp [h, hi]
    · simp [h, Ne.symm h]
  · simp [hi]

lemma extends_modify (t : ClassTable) (id : ClassId) {f : ClassInfo → ClassInfo}
    (hf : ∀ c : ClassInfo, c.Alike (f c)) : t.Extends (t.modify id f) where
  size_le := by simp [modify]
  info i _ := by
    rw [info_modify]
    split
    · exact hf _
    · exact .refl _
  lookup h := h

lemma Regular.of_extends (h : t.Regular) (hext : t.Extends t')
    (hsi : t'.classes.size = t.classes.size) (hnam : t'.byName = t.byName) : t'.Regular where
  named {name id} hlookup := by
    rw [lookup?, hnam] at hlookup
    exact (h.named hlookup).mono hext
  metaclass {name id} hlookup := by
    rw [lookup?, hnam] at hlookup
    exact (h.metaclass hlookup).mono hext
  cover id hid := by
    obtain ⟨name, hn | ⟨owner, hn, hm⟩⟩ := h.cover id (hsi ▸ hid)
    · exact ⟨name, .inl (hn.mono hext)⟩
    · exact ⟨name, .inr ⟨owner, hn.mono hext, hm.mono hext⟩⟩
  older id hid s hs := by
    have hin := hext.info id (hsi ▸ hid)
    rw [hin.superclass] at hs
    have hold := h.older id (hsi ▸ hid) s hs
    rwa [hin.kind, (hext.info s (Nat.lt_trans hold.1 (hsi ▸ hid))).kind]

lemma extends_defineMethod (t : ClassTable) (id : ClassId) (name label : String) :
    t.Extends (t.defineMethod id name label) := by
  have h := extends_modify t id (f := fun c => { c with methods := c.methods.insert name label })
    fun _ => ⟨rfl, rfl, rfl, rfl, rfl, rfl, rfl, List.Subset.refl _⟩
  exact ⟨h.size_le, h.info, h.lookup⟩

lemma extends_includeModule (t : ClassTable) (id mixin : ClassId) : t.Extends (t.includeModule id mixin) :=
  extends_modify t id fun _ => ⟨rfl, rfl, rfl, rfl, rfl, rfl, rfl, List.Subset.refl _⟩

lemma extends_addVariable (t : ClassTable) (id : ClassId) (name : String) :
    t.Extends (t.addVariable id name) := by
  refine extends_modify t id fun c => ?_
  split
  · exact .refl c
  · exact ⟨rfl, rfl, rfl, rfl, rfl, rfl, rfl, subset_append_left _ _⟩

lemma Regular.defineMethod (h : t.Regular) (id : ClassId) (name label : String) :
    (t.defineMethod id name label).Regular :=
  h.of_extends (extends_defineMethod t id name label)
    (by simp [ClassTable.defineMethod, ClassTable.modify]) rfl

lemma Regular.includeModule (h : t.Regular) (id mixin : ClassId) : (t.includeModule id mixin).Regular :=
  h.of_extends (extends_includeModule t id mixin) (by simp [ClassTable.includeModule, ClassTable.modify]) rfl

/-! ### New classes -/

section

variable (t) (name : String) (kind : ClassKind) (superclass : Option ClassId) (builtin : Bool)

lemma info_insert_of_lt {i : ClassId} (h : i < t.classes.size) :
    (t.insert name kind superclass builtin).2.info i = t.info i := by
  simp [info, insert, Array.getElem?_push, Nat.ne_of_lt h, Nat.ne_of_lt (Nat.lt_succ_of_lt h)]

lemma info_insert_own : (t.insert name kind superclass builtin).2.info t.classes.size =
    { name, label := Label.ofPath name, kind, superclass, metaclass := some (t.classes.size + 1),
      builtin } := by
  rw [info, insert]
  rw [Array.getElem?_push, if_neg (by simp), Array.getElem?_push, if_pos rfl, Option.getD_some]

lemma info_insert_metaclass : (t.insert name kind superclass builtin).2.info (t.classes.size + 1) =
      { name := "#<Class:" ++ name ++ ">", label := "__meta_" ++ Label.ofPath name,
        kind := .metaclass, owner := some t.classes.size, builtin } := by
  rw [info, insert]
  rw [Array.getElem?_push, if_pos (by simp)]
  rfl

lemma lookup?_insert (other : String) : (t.insert name kind superclass builtin).2.lookup? other =
      if name = other then some t.classes.size else t.lookup? other := by
  simp [lookup?, insert, Std.HashMap.getElem?_insert]

lemma size_insert : (t.insert name kind superclass builtin).2.classes.size = t.classes.size + 2 := by
  simp [insert]

lemma extends_insert (h : t.lookup? name = none) : t.Extends (t.insert name kind superclass builtin).2 where
  size_le := by rw [size_insert]; omega
  info i hi := by
    rw [info_insert_of_lt t name kind superclass builtin hi]
    exact .refl _
  lookup {other id} hlookup := by
    rw [lookup?_insert, if_neg, hlookup]
    rintro rfl
    simp [h] at hlookup

lemma isNamed_insert (hk : kind ≠ .metaclass) :
    (t.insert name kind superclass builtin).2.IsNamed t.classes.size name where
  lookup := by rw [lookup?_insert, if_pos rfl]
  lt_size := by
    rw [size_insert]
    exact Nat.lt_add_of_pos_right (by decide)
  name_eq := by rw [info_insert_own]
  label_eq := by rw [info_insert_own]
  kind_ne := by rwa [info_insert_own]
  metaclass_eq := by rw [info_insert_own]
  owner_eq := by rw [info_insert_own]

lemma isMetaclass_insert :
    (t.insert name kind superclass builtin).2.IsMetaclass (t.classes.size + 1) t.classes.size name where
  lt_size := by
    rw [size_insert]
    exact Nat.lt_succ_self (t.classes.size + 1)
  eq_succ := rfl
  name_eq := by rw [info_insert_metaclass]
  label_eq := by rw [info_insert_metaclass]
  kind_eq := by rw [info_insert_metaclass]
  metaclass_eq := by rw [info_insert_metaclass]
  owner_eq := by rw [info_insert_metaclass]

end

lemma Regular.insert (h : t.Regular) (hn : t.lookup? name = none) (hk : kind ≠ .metaclass)
    (hsup : ∀ s ∈ superclass, kind = .ordinary ∧ ∃ other, t.lookup? other = some s) (builtin : Bool) :
    (t.insert name kind superclass builtin).2.Regular := by
  have hext := extends_insert t name kind superclass builtin hn
  have hnew := isNamed_insert t name kind superclass builtin hk
  have hme := isMetaclass_insert t name kind superclass builtin
  have hf {other id} (hlookup : (t.insert name kind superclass builtin).2.lookup? other = some id) :
      name = other ∧ t.classes.size = id ∨ t.lookup? other = some id := by
    grind [lookup?_insert]
  refine ⟨fun {other id} hlookup => ?_, fun {other id} hlookup => ?_, fun id hid => ?_, fun id hid s hs => ?_⟩
  · rcases hf hlookup with ⟨rfl, rfl⟩ | hlookup
    · exact hnew
    · exact (h.named hlookup).mono hext
  · rcases hf hlookup with ⟨rfl, rfl⟩ | hlookup
    · exact hme
    · exact (h.metaclass hlookup).mono hext
  · rw [size_insert] at hid
    by_cases hold : id < t.classes.size
    · obtain ⟨other, ho | ⟨owner, ho, hm⟩⟩ := h.cover id hold
      · exact ⟨other, .inl (ho.mono hext)⟩
      · exact ⟨other, .inr ⟨owner, ho.mono hext, hm.mono hext⟩⟩
    · by_cases hl : id = t.classes.size
      · exact ⟨name, .inl (hl ▸ hnew)⟩
      · obtain rfl : id = t.classes.size + 1 := by omega
        exact ⟨name, .inr ⟨_, hnew, hme⟩⟩
  · rw [size_insert] at hid
    by_cases hold : id < t.classes.size
    · rw [info_insert_of_lt t name kind superclass builtin hold] at hs ⊢
      have hage := h.older id hold s hs
      rwa [info_insert_of_lt t name kind superclass builtin (Nat.lt_trans hage.1 hold)]
    · by_cases hl : id = t.classes.size
      · subst hl
        rw [info_insert_own] at hs ⊢
        obtain ⟨hord, other, ho⟩ := hsup s hs
        have hs := h.named ho
        rw [info_insert_of_lt t name kind superclass builtin hs.lt_size]
        exact ⟨hs.lt_size, hord, hs.kind_ne⟩
      · obtain rfl : id = t.classes.size + 1 := by omega
        rw [info_insert_metaclass] at hs
        cases hs

lemma define_cases (h : t.define name kind superclass = .ok (id, t')) : t.lookup? name = some id ∧ t' = t ∨
      ∃ parent, t.lookup? name = none ∧ id = t.classes.size ∧ t' = (t.insert name kind parent false).2 ∧
        (∀ s ∈ parent, kind = .ordinary ∧ (s ∈ superclass ∨ t.lookup? "Object" = some s)) ∧
        (kind = .ordinary → parent = none → t.lookup? "Object" = none) := by
  rw [define] at h
  split at h
  · rename_i id' hlookup
    dsimp only at h
    split at h
    · cases h
    · split at h
      · cases h
      · cases h
        exact .inl ⟨hlookup, rfl⟩
  · rename_i hlookup
    cases h
    refine .inr ⟨_, hlookup, rfl, rfl, fun s hs => ?_, fun hk hn => ?_⟩
    · split at hs
      · exact ⟨‹_›, (Option.or_eq_some_iff.mp hs).imp_right And.right⟩
      · cases hs
    · rw [if_pos hk, Option.or_eq_none_iff] at hn
      exact hn.2

lemma define_spec (hreg : t.Regular)
    (hk : kind ≠ .metaclass) (hsup : ∀ s ∈ superclass, ∃ other, t.lookup? other = some s)
    (h : t.define name kind superclass = .ok (id, t')) :
    t'.Regular ∧ t.Extends t' ∧ t'.IsNamed id name := by
  rcases define_cases h with ⟨hlookup, rfl⟩ | ⟨parent, hlookup, rfl, rfl, hp, -⟩
  · exact ⟨hreg, .refl _, hreg.named hlookup⟩
  · have hn s (hs : s ∈ parent) : kind = .ordinary ∧ ∃ other, t.lookup? other = some s :=
      (hp s hs).imp_right fun h => h.elim (hsup s) fun ho => ⟨_, ho⟩
    exact ⟨hreg.insert hlookup hk hn false, extends_insert t name kind parent false hlookup,
      isNamed_insert t name kind parent false hk⟩

/-! ### The classes of the run-time library -/

lemma regular_empty : empty.Regular where
  named h := by simp [lookup?, empty] at h
  metaclass h := by simp [lookup?, empty] at h
  cover id hid := by simp [empty] at hid
  older id hid := by simp [empty] at hid

/-- A table of exactly the classes `cs` of the library, each under its superclass. They include no modules. -/
structure Holds (t : ClassTable) (cs : List BuiltinClass) : Prop where
  regular : t.Regular
  mem : ∀ name, (t.lookup? name).isSome = true ↔ name ∈ cs.map BuiltinClass.name
  fresh : ∀ id < t.classes.size, (t.info id).builtin ∧ (t.info id).includes = []
  each : ∀ c ∈ cs, ∃ id, t.lookup? c.name = some id ∧ (t.info id).kind = c.kind ∧
    (t.info id).superclass = c.superclass.bind t.lookup? ∧ ∀ s ∈ c.superclass, (t.lookup? s).isSome

lemma Holds.includes_eq_nil (h : t.Holds cs) (id : ClassId) : (t.info id).includes = [] := by
  by_cases hid : id < t.classes.size
  · exact (h.fresh id hid).2
  · rw [info, Array.getElem?_eq_none (Nat.le_of_not_lt hid)]
    rfl

lemma Holds.each_of_extends (h : t.Holds cs) (hext : t.Extends t') : ∀ c ∈ cs, ∃ id,
    t'.lookup? c.name = some id ∧ (t'.info id).kind = c.kind ∧
      (t'.info id).superclass = c.superclass.bind t'.lookup? ∧ ∀ s ∈ c.superclass, (t'.lookup? s).isSome := by
  intro c hc
  obtain ⟨id, hlookup, hk, hsup, hkno⟩ := h.each c hc
  have hin := hext.info id (h.regular.named hlookup).lt_size
  refine ⟨id, hext.lookup hlookup, hin.kind.trans hk, hin.superclass.trans (hsup.trans ?_), ?_⟩
  all_goals
    cases hs : c.superclass with
    | none => simp
    | some s =>
      obtain ⟨p, hp⟩ := Option.isSome_iff_exists.mp (hkno s hs)
      simp [hp, hext.lookup hp]

lemma Holds.of_extends (h : t.Holds cs) (hext : t.Extends t')
    (hs : t'.classes.size = t.classes.size) (hn : t'.byName = t.byName)
    (hinc : ∀ id, (t'.info id).includes = (t.info id).includes) : t'.Holds cs where
  regular := h.regular.of_extends hext hs hn
  mem name := by rw [lookup?, hn]; exact h.mem name
  fresh id hid := by
    rw [hs] at hid
    rw [(hext.info id hid).builtin, hinc]
    exact h.fresh id hid
  each := h.each_of_extends hext

lemma Holds.addClass (h : t.Holds cs) {c : BuiltinClass} (hc : c.Follows cs) :
    (Builtin.addClass t c).Holds (c :: cs) := by
  have hn : t.lookup? c.name = none := by
    rw [← Option.not_isSome_iff_eq_none, h.mem]
    exact hc.1
  have hext := extends_insert t c.name c.kind (c.superclass.bind t.lookup?) true hn
  have hins : (t.insert c.name c.kind (c.superclass.bind t.lookup?) true).2.Holds (c :: cs) := by
    have hnam s (hs : s ∈ c.superclass.bind t.lookup?) :
        c.kind = .ordinary ∧ ∃ other, t.lookup? other = some s := by
      obtain ⟨parent, hpar, hlookup⟩ := Option.bind_eq_some_iff.mp hs
      exact ⟨(hc.2.2 parent hpar).1, parent, hlookup⟩
    refine ⟨h.regular.insert hn hc.2.1 hnam true, fun name => ?_, fun id hid => ?_,
      forall_mem_cons.mpr ⟨⟨t.classes.size, ?_, ?_⟩, h.each_of_extends hext⟩⟩
    · rw [lookup?_insert, map_cons, mem_cons, ← h.mem]
      by_cases heq : c.name = name
      · simp [heq]
      · simp [heq, Ne.symm heq]
    · rw [size_insert] at hid
      rcases (by omega : id < t.classes.size ∨ id = t.classes.size ∨ id = t.classes.size + 1) with
        hold | rfl | rfl
      · rw [info_insert_of_lt _ _ _ _ _ hold]
        exact h.fresh id hold
      · rw [info_insert_own]
        exact ⟨rfl, rfl⟩
      · rw [info_insert_metaclass]
        exact ⟨rfl, rfl⟩
    · rw [lookup?_insert, if_pos rfl]
    · rw [info_insert_own]
      refine ⟨rfl, ?_⟩
      cases hs : c.superclass with
      | none => simp
      | some s =>
        obtain ⟨p, hp⟩ := Option.isSome_iff_exists.mp ((h.mem s).mpr (hc.2.2 s hs).2)
        rw [hs, Option.bind_some, hp] at hext
        simp [hext.lookup hp, hp]
  refine foldlRecOn (motive := (Holds · (c :: cs))) c.instanceVars _ hins fun t ht v _ => ?_
  refine ht.of_extends (extends_addVariable t _ v) (by simp [addVariable, modify]) rfl fun id => ?_
  rw [addVariable, info_modify]
  split
  · split <;> rfl
  · rfl

lemma Holds.addMethodsOf (h : t.Holds cs) (pick : ClassTable → ClassId → Option ClassId)
    (entry : String × List String) :
    (Builtin.addMethodsOf pick t entry).Holds cs := by
  rw [Builtin.addMethodsOf]
  split
  · refine foldlRecOn (motive := (Holds · cs)) entry.2 _ h fun t ht name _ => ?_
    refine ht.of_extends (extends_defineMethod t _ name _) (by simp [defineMethod, modify]) rfl fun id => ?_
    refine congrArg ClassInfo.includes (info_modify t _ _ id) |>.trans ?_
    split <;> rfl
  · exact h

lemma holds_initial : initial.Holds Builtin.classes.reverse := by
  have hf : ∀ l ∈ Builtin.classes.reverse.tails, ∀ c ∈ l.head?, c.Follows l.tail := by decide
  have hc cs (hs : cs <:+ Builtin.classes.reverse) :
      (cs.foldr (fun c t => Builtin.addClass t c) .empty).Holds cs := by
    induction cs with
    | nil =>
      exact ⟨regular_empty, fun name => by simp [lookup?, empty], fun id hid => by simp [empty] at hid, by simp⟩
    | cons c cs ih =>
      exact (ih ((suffix_cons c cs).trans hs)).addClass (hf _ ((mem_tails _ _).mpr hs) c rfl)
  have hm {t cs} pick es (h : t.Holds cs) : (foldl (Builtin.addMethodsOf pick) t es).Holds cs :=
    foldlRecOn (motive := (Holds · cs)) es _ h fun t ht e _ => ht.addMethodsOf pick e
  have hall := hc _ (suffix_refl _)
  rw [foldr_reverse] at hall
  exact hm _ _ (hm _ _ hall)

end ClassTable

end Garnet
