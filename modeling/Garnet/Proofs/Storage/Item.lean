import Garnet.Proofs.Class.Identity
import Garnet.Proofs.Label.Path
import Garnet.Storage.Context

/-!
# Things with labels

The things of a program that have labels of their own, the label that each has, and the text under
which it is entered. Neither the label nor the text tells a thing by itself: the labels of `A::B` and
`A_B` are the same, and the text of a class variable leaves out its class. Together they do, and
`Resolver.item_unique` is the statement of this.
-/

namespace Garnet

variable {name : String} {id : ClassId}

/-- A thing of a program that has a label. -/
inductive Item where
  /-- A class or module, by its full name. -/
  | cls (name : String)
  /-- A constant of a class, or of the top level. -/
  | constant (ns : Option ClassId) (name : String)
  | global (name : String)
  | classVariable (owner : ClassId) (name : String)
  /-- An instance variable of a class object, or of the main object. -/
  | instanceVariable (owner : Option ClassId) (name : String)
  /-- A method, by the place of its definition. -/
  | method (site : SiteKey)
deriving DecidableEq, Repr

/-- What the word of an item holds, if it has one. -/
def Item.storage? : Item → Option StaticKind
  | .constant _ _ => some .constant
  | .global _ => some .global
  | .classVariable _ _ => some .classVariable
  | .instanceVariable _ _ => some .classInstanceVariable
  | .cls _ | .method _ => none

/-! ### Labels of classes -/

namespace ClassTable

open Label

variable {t : ClassTable}

lemma IsNamed.toList_label (h : t.IsNamed id name) : (t.label id).toList = pathChars name.toList := by
  rw [label, h.label_eq, toList_ofPath]

lemma IsMetaclass.toList_label {owner : ClassId} (h : t.IsMetaclass id owner name) :
    (t.label id).toList = "__meta_".toList ++ pathChars name.toList := by
  rw [label, h.label_eq, String.toList_append, toList_ofPath]

lemma IsNamed.count_label (h : t.IsNamed id name) : (t.label id).toList.count '_' % 2 = 0 := by
  rw [h.toList_label, count_pathChars]

lemma IsMetaclass.count_label {owner : ClassId} (h : t.IsMetaclass id owner name) :
    (t.label id).toList.count '_' % 2 = 1 := by
  have hp := count_pathChars name.toList
  have hm : "__meta_".toList.count '_' = 3 := by decide
  rw [h.toList_label, List.count_append]
  omega

end ClassTable

namespace Resolver

variable {cs : List Char}

open Label

def labelOf (r : Resolver) : Item → String
  | .cls name => (r.classes.lookup? name).elim (ofPath name) r.classes.label
  | .constant ns name => r.constantLabel ns name
  | .global name => "__global__" ++ mangle (String.ofList (name.toList.drop 1))
  | .classVariable owner name =>
    "__cvar__" ++ r.classes.label owner ++ "__" ++ mangle (String.ofList (name.toList.drop 2))
  | .instanceVariable owner name =>
    owner.elim "__ivar__main" r.classVariableStem ++ "__"
      ++ mangle (String.ofList (name.toList.dropWhile (· == '@')))
  | .method site => r.methodSites[site]?.elim "" MethodSite.label

/-- The text under which an item is entered. That of a method depends on more than its place. -/
def entityOf? (r : Resolver) : Item → Option Entity
  | .cls name => some ⟨"class", name⟩
  | .constant ns name => some ⟨"constant", r.constantName ns name⟩
  | .global name => some ⟨"global", name⟩
  | .classVariable _ name => some ⟨"class variable", name⟩
  | .instanceVariable _ name => some ⟨"instance variable", name⟩
  | .method _ => none

def Admits (r : Resolver) : Item → Prop
  | .constant ns _ => ∀ id ∈ ns, ∃ name, r.classes.IsNamed id name
  | .classVariable owner _ => ∃ name, r.classes.IsNamed owner name
  | .instanceVariable owner _ => ∀ id ∈ owner, id < r.classes.classes.size
  | .cls _ | .global _ | .method _ => True

/-- The classes of a program have labels of their own. A name of letters and digits only is its own
label, and needs no entry. -/
structure ClassesApart (r : Resolver) : Prop where
  regular : r.classes.Regular
  entered : ∀ {name id}, r.classes.lookup? name = some id →
    (∀ c ∈ name.toList, c.isAlphanum = true) ∨ r.labels.get? (r.classes.label id) = some ⟨"class", name⟩

variable {r : Resolver} {id' : ClassId} {name' : String}

/-! ### Classes -/

lemma pathChars_of_alphanum (h : ∀ c ∈ cs, c.isAlphanum = true) : pathChars cs = cs := by
  fun_induction pathChars cs with
  | case1 => rfl
  | case2 rest ih => exact absurd (h ':' List.mem_cons_self) (by decide)
  | case3 c rest hc ih =>
    rw [mangleChar, if_pos (h c List.mem_cons_self), ih fun d hd => h d (List.mem_cons_of_mem c hd)]
    rfl

lemma alphanum_of_pathChars (h : ∀ c ∈ pathChars cs, c.isAlphanum = true) :
    ∀ c ∈ cs, c.isAlphanum = true := by
  fun_induction pathChars cs with
  | case1 => simp
  | case2 rest ih => exact absurd (h '_' List.mem_cons_self) (by decide)
  | case3 c rest hc ih =>
    rw [List.forall_mem_cons]
    refine ⟨?_, ih fun d hd => h d (List.mem_append_right _ hd)⟩
    have hw := fun d hd => h d (List.mem_append_left (pathChars rest) hd)
    rw [mangleChar] at hw
    split at hw
    · assumption
    · split at hw
      all_goals exact absurd (hw '_' List.mem_cons_self) (by decide)

lemma ClassesApart.name_eq (h : r.ClassesApart)
    (hn : r.classes.IsNamed id name) (hn' : r.classes.IsNamed id' name')
    (hl : r.classes.label id = r.classes.label id') : name = name' := by
  have hc : pathChars name.toList = pathChars name'.toList := by
    rw [← hn.toList_label, ← hn'.toList_label, hl]
  -- a name that is its own label leaves the other one no choice
  have haln : ∀ {a b : String}, pathChars a.toList = pathChars b.toList →
      (∀ c ∈ a.toList, c.isAlphanum = true) → a = b := by
    intro a b hab ha
    have hb : ∀ c ∈ b.toList, c.isAlphanum = true :=
      alphanum_of_pathChars (by rw [← hab, pathChars_of_alphanum ha]; exact ha)
    rw [pathChars_of_alphanum ha, pathChars_of_alphanum hb] at hab
    exact String.toList_inj.mp hab
  rcases h.entered hn.lookup with ha | hent
  · exact haln hc ha
  · rcases h.entered hn'.lookup with ha' | he'
    · exact (haln hc.symm ha').symm
    · rw [hl, he'] at hent
      simpa using hent.symm

lemma ClassesApart.label_injective (h : r.ClassesApart) (hid : id < r.classes.classes.size)
    (hid' : id' < r.classes.classes.size) (hl : r.classes.label id = r.classes.label id') :
    id = id' := by
  obtain ⟨name, hn | ⟨owner, ho, hm⟩⟩ := h.regular.cover id hid
  · obtain ⟨name', hn' | ⟨owner', ho', hm'⟩⟩ := h.regular.cover id' hid'
    · cases h.name_eq hn hn' hl
      exact Option.some.inj (hn.lookup.symm.trans hn'.lookup)
    · have hev := hn.count_label
      have hodd := hm'.count_label
      rw [hl] at hev
      omega
  · obtain ⟨name', hn' | ⟨owner', ho', hm'⟩⟩ := h.regular.cover id' hid'
    · have hodd := hm.count_label
      have hev := hn'.count_label
      rw [hl] at hodd
      omega
    · -- two metaclasses: their owners have the same label
      have hown : r.classes.label owner = r.classes.label owner' := by
        have hc := congrArg String.toList hl
        rw [hm.toList_label, hm'.toList_label] at hc
        rw [← String.toList_inj, ho.toList_label, ho'.toList_label]
        exact List.append_cancel_left hc
      cases h.name_eq ho ho' hown
      cases ho.lookup.symm.trans ho'.lookup
      exact hm.eq_succ.trans hm'.eq_succ.symm

/-! ### Constants and variables -/

lemma ClassesApart.owner_eq (h : r.ClassesApart) (hid : id < r.classes.classes.size)
    (hid' : id' < r.classes.classes.size) {before mid after : String}
    (hl : before ++ r.classes.label id ++ mid ++ after = before ++ r.classes.label id' ++ mid ++ after) :
    id = id' := by
  refine h.label_injective hid hid' ?_
  have hc := congrArg String.toList hl
  simp only [String.toList_append, List.append_assoc] at hc
  exact String.toList_inj.mp (List.append_cancel_right (List.append_cancel_left hc))

/-- The label of the definition number `count` of a method. -/
def numbered (base : String) (count : Nat) : String :=
  if count == 1 then base else base ++ "_" ++ Numeral.decimal count ++ "_"

lemma numbered_eq_append (base : String) (count : Nat) : ∃ rest, numbered base count = base ++ rest := by
  rw [numbered]
  split
  · exact ⟨"", by simp⟩
  · exact ⟨"_" ++ Numeral.decimal count ++ "_", by simp [String.append_assoc]⟩

lemma numbered_eq {base base' : String} {count count' : Nat}
    (h : numbered base count = numbered base' count') :
    base = base' ∧ count = count' ∨ base' = base ++ "_" ++ Numeral.decimal count ++ "_" ∨
      base = base' ++ "_" ++ Numeral.decimal count' ++ "_" := by
  rw [numbered, numbered] at h
  split at h
  · split at h
    · exact .inl ⟨h, by simp_all⟩
    · exact .inr (.inr h)
  · split at h
    · exact .inr (.inl h.symm)
    · have hnot := Numeral.underscore_notMem_decimal
      have hc := congrArg String.toList h
      simp only [String.toList_append] at hc
      have hcut := List.append_cancel_right hc
      simp only [List.append_assoc] at hcut
      obtain ⟨hb, hcou⟩ := eq_of_append_cons_eq (hnot count) (hnot count') hcut
      exact .inl ⟨String.toList_inj.mp hb, Numeral.decimal_injective (String.toList_inj.mp hcou)⟩

lemma toList_method (cls name : String) : (Label.method cls name).toList =
      "__method_".toList ++ (cls.toList ++ '_' :: name.toList.flatMap mangleChar) := by
  rw [Label.method, String.toList_append, toList_mangle]
  simp

def methodName (r : Resolver) (id : ClassId) (name : String) : String :=
  (r.classes.info id).name ++ "#" ++ name

lemma method_ne_numbered (h : r.classes.Regular) (hid : id < r.classes.classes.size)
    (hid' : id' < r.classes.classes.size)
    (hn : r.methodName id name = r.methodName id' name') (count : Nat) :
    Label.method (r.classes.label id) name ≠
      Label.method (r.classes.label id') name' ++ "_" ++ Numeral.decimal count ++ "_" := by
  intro heq
  have hc := congrArg String.toList heq
  simp only [String.toList_append, toList_method] at hc
  have hn := congrArg String.toList hn
  simp only [methodName, String.toList_append] at hn
  have hk := Numeral.toList_decimal_ne_nil count
  have hd := fun c => Numeral.isDigit_of_mem_decimal (n := count) (c := c)
  -- a number adds two underscores, and those of a label tell a class from a metaclass
  have hp : (r.classes.label id).toList.count '_' % 2 = (r.classes.label id').toList.count '_' % 2 := by
    have hcou := congrArg (List.count '_') hc
    have hm := count_mangle name.toList
    have hm' := count_mangle name'.toList
    have hno : (Numeral.decimal count).toList.count '_' = 0 :=
      List.count_eq_zero.mpr (Numeral.underscore_notMem_decimal count)
    simp only [List.count_append, List.count_cons_self] at hcou
    omega
  obtain ⟨cls, hcls | ⟨owner, ho, hme⟩⟩ := h.cover id hid
  · obtain ⟨cls', hcls' | ⟨owner', ho', hme'⟩⟩ := h.cover id' hid'
    · rw [hcls.toList_label, hcls'.toList_label] at hc
      rw [hcls.name_eq, hcls'.name_eq] at hn
      exact numbered_method_ne hk hd hn (by simpa using hc)
    · rw [hcls.count_label, hme'.count_label] at hp
      cases hp
  · obtain ⟨cls', hcls' | ⟨owner', ho', hme'⟩⟩ := h.cover id' hid'
    · rw [hme.count_label, hcls'.count_label] at hp
      cases hp
    · rw [hme.toList_label, hme'.toList_label] at hc
      rw [hme.name_eq, hme'.name_eq] at hn
      simp only [String.toList_append, List.append_assoc] at hn hc
      have hnam : cls.toList ++ (">".toList ++ "#".toList) ++ name.toList =
          cls'.toList ++ (">".toList ++ "#".toList) ++ name'.toList := by
        simpa using List.append_cancel_left hn
      exact numbered_method_ne hk hd hnam (by simpa using List.append_cancel_left hc)

end Resolver

end Garnet
