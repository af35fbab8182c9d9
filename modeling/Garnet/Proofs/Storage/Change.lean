import Garnet.Proofs.Storage.Item
import Garnet.Proofs.Outcome
import Garnet.Storage.Collect
import Mathlib.Logic.Relation

/-!
# What collecting does to a program

`Resolver.Change` says once what collecting can do in one step: change what a class holds, add a class,
a constant, a variable or a method. What is known of a program stays true in every step: things keep
their labels, and a label that is given out belongs to one thing.
-/

namespace Garnet

open ClassTable Resolver LabelTable

namespace LabelTable

variable {old e : Entity} {t t' : LabelTable} {label : String}

variable (h : t.insert label e = .ok t')
include h

lemma get?_insert (other : String) : t'.get? other = if label = other then some e else t.get? other := by
  rw [insert] at h
  split at h
  · rename_i old hold
    split at h
    · rename_i heq
      cases h
      split
      · rename_i hl
        rw [← hl, hold, heq]
      · rfl
    · cases h
  · cases h
    simp [get?, Std.HashMap.getElem?_insert]

lemma eq_of_insert (hold : t.get? label = some old) : old = e := by
  rw [insert, hold] at h
  dsimp only at h
  split at h
  · assumption
  · cases h

lemma get?_mono {other : String} (hold : t.get? other = some old) : t'.get? other = some old := by
  rw [get?_insert h]
  split
  · rename_i heq
    cases heq
    rw [eq_of_insert h hold]
  · exact hold

end LabelTable

namespace Resolver

variable {owner : Option ClassId} {labels : LabelTable} {name : String} {i : Item} {kind : StaticKind}
  {site : MethodSite} {install : Install} {id : ClassId}

/-! ### Steps -/

/-- The label of a method without its number. A method of an object has a number of its own. -/
def methodBase (r : Resolver) (owner : Option ClassId) (number : Nat) (name : String) : String :=
  match owner with
  | some id => Label.method (r.classes.label id) name
  | none => "__sdef_" ++ Numeral.decimal number ++ "_" ++ Label.mangle name

def methodEntity (r : Resolver) (owner : Option ClassId) (name : String) : Entity :=
  ⟨"method", match owner with
    | some id => r.methodName id name
    | none => "singleton #" ++ name⟩

/-- The label that the next definition of a method gets. -/
def nextLabel (r : Resolver) (owner : Option ClassId) (name : String) : String :=
  let base := r.methodBase owner (r.singletons + 1) name
  numbered base (r.definitions[base]?.getD 0 + 1)

def addMethod (r : Resolver) (labels : LabelTable) (node : Nat) (name : String)
    (owner : Option ClassId) (install : Install) : Resolver :=
  let base := r.methodBase owner (r.singletons + 1) name
  { r with
    labels
    singletons := if owner.isNone then r.singletons + 1 else r.singletons
    definitions := r.definitions.insert base (r.definitions[base]?.getD 0 + 1)
    classes := match owner with
      | some id => r.classes.defineMethod id name (r.nextLabel owner name)
      | none => { r.classes with slots := r.classes.slots.insert name }
    methodSites := r.methodSites.insert ⟨r.unit, node⟩ ⟨r.nextLabel owner name, install, owner⟩ }

/-- A variable or a constant that is entered under its label. -/
def Entered (r : Resolver) (i : Item) : Prop :=
  r.Admits i ∧ ∃ e, r.entityOf? i = some e ∧ r.labels.get? (r.labelOf i) = some e

/-- One step of collecting. -/
inductive Change (r : Resolver) : Resolver → Prop
  /-- What classes hold changes, and not which classes there are. -/
  | classes (t : ClassTable) (extends_ : r.classes.Extends t)
      (size : t.classes.size = r.classes.classes.size) (names : t.byName = r.classes.byName) :
      Change r { r with classes := t }
  | cls {name : _} {kind : ClassKind} {superclass : Option ClassId} {id t labels : _}
      (ordinary : kind ≠ .metaclass)
      (known : ∀ s ∈ superclass, ∃ other, r.classes.lookup? other = some s)
      (define : r.classes.define name kind superclass = .ok (id, t))
      (enter : r.labels.insert (t.label id) ⟨"class", name⟩ = .ok labels) :
      Change r { r with classes := t, labels }
  | word {i : Item} {kind e labels : _} (storage : i.storage? = some kind) (admits : r.Admits i) (entity : r.entityOf? i = some e)
      (enter : r.labels.insert (r.labelOf i) e = .ok labels) :
      Change r { r with labels, statics := r.statics.insert (r.labelOf i) kind }
  /-- A constant has a value. -/
  | constant {ns name : _} (entered : r.Entered (.constant ns name)) :
      Change r { r with constants := r.constants.insert (ns, name) }
  | method {name : _} {owner : Option ClassId} {install labels : _} (node : Nat) (valid : ∀ id ∈ owner, id < r.classes.classes.size)
      (enter : r.labels.insert (r.nextLabel owner name) (r.methodEntity owner name) = .ok labels) :
      Change r (r.addMethod labels node name owner install)
  | classSite (node : Nat) (id : ClassId) :
      Change r { r with classSites := r.classSites.insert ⟨r.unit, node⟩ id }
  | unit (unit : Nat) : Change r { r with unit }

abbrev Changes : Resolver → Resolver → Prop := Relation.ReflTransGen Change

/-! ### What steps keep -/

/-- A later state: the classes and the labels are still there. -/
structure Grows (r r' : Resolver) : Prop where
  classes : r.classes.Extends r'.classes
  labels : ∀ {label e}, r.labels.get? label = some e → r'.labels.get? label = some e

variable {r r' : Resolver}

lemma Grows.refl (r : Resolver) : r.Grows r := ⟨.refl _, fun h => h⟩

section

variable (h : r.Grows r')
include h

lemma Grows.trans {r'' : Resolver} (h' : r'.Grows r'') : r.Grows r'' :=
  ⟨h.classes.trans h'.classes, fun hl => h'.labels (h.labels hl)⟩

lemma Grows.admits (hi : r.Admits i) : r'.Admits i := by
  cases i with
  | constant ns name =>
    intro id hid
    obtain ⟨cls, hcls⟩ := hi id hid
    exact ⟨cls, hcls.mono h.classes⟩
  | classVariable owner name =>
    obtain ⟨cls, hcls⟩ := hi
    exact ⟨cls, hcls.mono h.classes⟩
  | instanceVariable owner name => exact fun id hid => Nat.lt_of_lt_of_le (hi id hid) h.classes.size_le
  | cls name | global name | method site => trivial

lemma Grows.entityOf? (hi : r.Admits i) : r'.entityOf? i = r.entityOf? i := by
  cases i with
  | constant ns name =>
    cases ns with
    | none => rfl
    | some id =>
      obtain ⟨cls, hcls⟩ := hi id rfl
      rw [entityOf?, entityOf?, constantName, constantName,
        (h.classes.info id hcls.lt_size).name]
  | classVariable owner name | instanceVariable owner name | cls name | global name | method site => rfl

lemma Grows.labelOf (hk : i.storage? = some kind) (hi : r.Admits i) : r'.labelOf i = r.labelOf i := by
  cases i with
  | constant ns name =>
    cases ns with
    | none => rfl
    | some id =>
      obtain ⟨cls, hcls⟩ := hi id rfl
      rw [labelOf, labelOf, constantLabel, constantLabel, h.classes.label_eq hcls.lt_size]
  | classVariable owner name =>
    obtain ⟨cls, hcls⟩ := hi
    rw [labelOf, labelOf, h.classes.label_eq hcls.lt_size]
  | instanceVariable owner name =>
    cases owner with
    | none => rfl
    | some id =>
      rw [labelOf, labelOf, Option.elim_some, Option.elim_some,
        classVariableStem, classVariableStem, h.classes.label_eq (hi id rfl)]
  | global name => rfl
  | cls name => cases hk
  | method site => cases hk

/-- The label of a method definition, as it was entered: number `count` of the definitions that share
a label, and number `number` of the methods of objects. -/
structure MethodEntry (r : Resolver) (site : MethodSite) (name : String) (number count : Nat) :
    Prop where
  owner : ∀ id ∈ site.owner, id < r.classes.classes.size
  number_le : site.owner = none → number ≤ r.singletons
  label_eq : site.label = numbered (r.methodBase site.owner number name) count
  count_le : count ≤ r.definitions[r.methodBase site.owner number name]?.getD 0
  entered : r.labels.get? site.label = some (r.methodEntity site.owner name)

/-- What is true of a program at any time while it is collected. -/
structure Sound (r : Resolver) : Prop where
  apart : r.ClassesApart
  object : ∃ id, r.classes.lookup? "Object" = some id
  constants : ∀ {ns name}, r.constants.contains (ns, name) = true → r.Entered (.constant ns name)
  statics : ∀ {label kind}, r.statics[label]? = some kind →
    ∃ i, i.storage? = some kind ∧ r.labelOf i = label ∧ r.Entered i
  methods : ∀ {key : SiteKey} {site : MethodSite}, r.methodSites[key]? = some site →
    ∃ name number count, r.MethodEntry site name number count
  methodsApart : ∀ {key key' : SiteKey} {site site' : MethodSite}, r.methodSites[key]? = some site →
    r.methodSites[key']? = some site' → site.label = site'.label → key = key'

lemma Grows.entered (hk : i.storage? = some kind) (hi : r.Entered i) : r'.Entered i := by
  obtain ⟨ha, e, he, hl⟩ := hi
  refine ⟨h.admits ha, e, (h.entityOf? ha).trans he, ?_⟩
  rw [h.labelOf hk ha]
  exact h.labels hl

lemma Grows.methodBase (hv : ∀ id ∈ owner, id < r.classes.classes.size) (number : Nat) (name : String) :
    r'.methodBase owner number name = r.methodBase owner number name := by
  cases owner with
  | none => rfl
  | some id => rw [methodBase, methodBase, h.classes.label_eq (hv id rfl)]

lemma Grows.methodEntity (hv : ∀ id ∈ owner, id < r.classes.classes.size) (name : String) :
    r'.methodEntity owner name = r.methodEntity owner name := by
  cases owner with
  | none => rfl
  | some id =>
    rw [methodEntity, methodEntity, methodName, methodName,
      (h.classes.info id (hv id rfl)).name]

lemma Grows.methodEntry (hs : r.singletons ≤ r'.singletons)
    (hdef : ∀ base : String, r.definitions[base]?.getD 0 ≤ r'.definitions[base]?.getD 0) {number count : Nat}
    (he : r.MethodEntry site name number count) : r'.MethodEntry site name number count where
  owner id hid := Nat.lt_of_lt_of_le (he.owner id hid) h.classes.size_le
  number_le hn := Nat.le_trans (he.number_le hn) hs
  label_eq := by rw [h.methodBase he.owner]; exact he.label_eq
  count_le := by
    rw [h.methodBase he.owner]
    exact Nat.le_trans he.count_le (hdef _)
  entered := by
    rw [h.methodEntity he.owner]
    exact h.labels he.entered

end

lemma ClassesApart.of_grows (h : r.ClassesApart) (hg : r.Grows r') (hreg : r'.classes.Regular)
    (hn : r'.classes.byName = r.classes.byName) : r'.ClassesApart where
  regular := hreg
  entered {name id} hlookup := by
    have hlookup : r.classes.lookup? name = some id := by rwa [lookup?, hn] at hlookup
    rw [hg.classes.label_eq (h.regular.named hlookup).lt_size]
    exact (h.entered hlookup).imp_right hg.labels

lemma Sound.of_grows (h : r.Sound) (hg : r.Grows r') (ha : r'.ClassesApart)
    (hcon : r'.constants = r.constants) (hsta : r'.statics = r.statics)
    (hsit : r'.methodSites = r.methodSites) (hd : r'.definitions = r.definitions)
    (hsi : r'.singletons = r.singletons) : r'.Sound where
  apart := ha
  object := by
    obtain ⟨id, hid⟩ := h.object
    exact ⟨id, hg.classes.lookup hid⟩
  constants hc := hg.entered rfl (h.constants (hcon ▸ hc))
  statics hs := by
    obtain ⟨i, hk, hl, hi⟩ := h.statics (hsta ▸ hs)
    exact ⟨i, hk, (hg.labelOf hk hi.1).trans hl, hg.entered hk hi⟩
  methods hm := by
    obtain ⟨name, number, count, he⟩ := h.methods (hsit ▸ hm)
    exact ⟨name, number, count, hg.methodEntry (Nat.le_of_eq hsi.symm)
      (fun base => Nat.le_of_eq (by rw [hd])) he⟩
  methodsApart hm hm' := h.methodsApart (hsit ▸ hm) (hsit ▸ hm')

lemma Sound.addWord (h : r.Sound) {e : Entity} (hk : i.storage? = some kind) (hi : r.Admits i)
    (he : r.entityOf? i = some e) (hl : r.labels.insert (r.labelOf i) e = .ok labels) :
    Resolver.Sound { r with labels, statics := r.statics.insert (r.labelOf i) kind } ∧
      r.Grows { r with labels, statics := r.statics.insert (r.labelOf i) kind } := by
  have hg : r.Grows { r with labels, statics := r.statics.insert (r.labelOf i) kind } :=
    ⟨.refl _, get?_mono hl⟩
  have hent : Entered { r with labels, statics := r.statics.insert (r.labelOf i) kind } i := by
    refine ⟨hg.admits hi, e, (hg.entityOf? hi).trans he, ?_⟩
    exact (get?_insert hl _).trans (if_pos rfl)
  refine ⟨⟨h.apart.of_grows hg h.apart.regular rfl, h.object, fun hc => hg.entered rfl (h.constants hc),
    fun {label kind'} hs => ?_, fun hm => ?_, h.methodsApart⟩, hg⟩
  · rw [Std.TreeMap.getElem?_insert] at hs
    split at hs
    · rename_i heq
      cases hs
      exact ⟨i, hk, (hg.labelOf hk hi).trans (Std.LawfulEqCmp.eq_of_compare heq), hent⟩
    · obtain ⟨j, hk', hlab, hj⟩ := h.statics hs
      exact ⟨j, hk', (hg.labelOf hk' hj.1).trans hlab, hg.entered hk' hj⟩
  · obtain ⟨name, number, count, hen⟩ := h.methods hm
    exact ⟨name, number, count, hg.methodEntry le_rfl (fun _ => le_rfl) hen⟩

/-! ### Methods -/

lemma singleton_number_eq {number number' count count' : Nat} {name' : String}
    (h : numbered (r.methodBase none number name) count = numbered (r.methodBase none number' name') count') :
    number = number' := by
  obtain ⟨rest, hr⟩ := numbered_eq_append (r.methodBase none number name) count
  obtain ⟨rest', hr'⟩ := numbered_eq_append (r.methodBase none number' name') count'
  have hc := congrArg String.toList (hr.symm.trans (h.trans hr'))
  simp only [methodBase, String.toList_append, List.append_assoc] at hc
  have hc := List.append_cancel_left hc
  rw [show "_".toList = ['_'] from rfl] at hc
  exact Numeral.decimal_injective (String.toList_inj.mp (Label.eq_of_append_cons_eq_left
    (Numeral.underscore_notMem_decimal number) (Numeral.underscore_notMem_decimal number') hc))

lemma methodBase_some_ne {number number' count count' : Nat} {name' : String} :
    numbered (r.methodBase (some id) number name) count ≠
      numbered (r.methodBase none number' name') count' := by
  intro h
  obtain ⟨rest, hr⟩ := numbered_eq_append (r.methodBase (some id) number name) count
  obtain ⟨rest', hr'⟩ := numbered_eq_append (r.methodBase none number' name') count'
  have hc := congrArg String.toList (hr.symm.trans (h.trans hr'))
  simp [methodBase, Label.method] at hc

lemma Sound.nextLabel_ne (h : r.Sound) (hv : ∀ id ∈ owner, id < r.classes.classes.size)
    (hlab : r.labels.insert (r.nextLabel owner name) (r.methodEntity owner name) = .ok labels)
    {key : SiteKey} (hsi : r.methodSites[key]? = some site) :
    site.label ≠ r.nextLabel owner name := by
  intro heq
  obtain ⟨name', number, count, hent⟩ := h.methods hsi
  -- the label would have to be entered twice, so both definitions have the same full name
  have hen : r.methodEntity site.owner name' = r.methodEntity owner name :=
    eq_of_insert hlab (heq ▸ hent.entered)
  have hl := hent.label_eq.symm.trans heq
  have hc := hent.count_le
  cases hs : site.owner with
  | none =>
    rw [hs] at hl
    cases owner with
    | none =>
      have hnum := singleton_number_eq hl
      have hle := hent.number_le hs
      omega
    | some id => exact methodBase_some_ne hl.symm
  | some id' =>
    rw [hs] at hl hen hc
    cases owner with
    | none => exact methodBase_some_ne hl
    | some id =>
      have hna : r.methodName id' name' = r.methodName id name := congrArg Entity.name hen
      have hid' := hent.owner id' hs
      rcases numbered_eq hl with ⟨hb, hsa⟩ | hn | hn
      · rw [hb] at hc
        omega
      · exact method_ne_numbered h.apart.regular (hv id rfl) hid' hna.symm _ hn
      · exact method_ne_numbered h.apart.regular hid' (hv id rfl) hna _ hn

lemma grows_addMethod {node : Nat}
    (hl : r.labels.insert (r.nextLabel owner name) (r.methodEntity owner name) = .ok labels) :
    r.Grows (r.addMethod labels node name owner install) where
  classes := by
    cases owner with
    | none => exact ⟨le_rfl, fun id _ => .refl (r.classes.info id), fun h => h⟩
    | some id => exact extends_defineMethod r.classes id name _
  labels := get?_mono hl

lemma Sound.addMethod (h : r.Sound) (node : Nat) (hv : ∀ id ∈ owner, id < r.classes.classes.size)
    (hlab : r.labels.insert (r.nextLabel owner name) (r.methodEntity owner name) = .ok labels) :
    (r.addMethod labels node name owner install).Sound := by
  have hg : r.Grows (r.addMethod labels node name owner install) := grows_addMethod hlab
  have hn : (r.addMethod labels node name owner install).classes.byName = r.classes.byName := by
    cases owner <;> rfl
  have hsi : (r.addMethod labels node name owner install).classes.classes.size =
      r.classes.classes.size := by
    cases owner with
    | none => rfl
    | some id => simp [Resolver.addMethod, ClassTable.defineMethod, ClassTable.modify]
  have hd : ∀ base : String, r.definitions[base]?.getD 0 ≤
      (r.addMethod labels node name owner install).definitions[base]?.getD 0 := by
    intro base
    simp only [Resolver.addMethod, Std.HashMap.getElem?_insert]
    split
    · rename_i heq
      rw [← beq_iff_eq.mp heq]
      exact Nat.le_succ _
    · exact le_rfl
  have hsing : r.singletons ≤ (r.addMethod labels node name owner install).singletons := by
    simp only [Resolver.addMethod]
    split <;> omega
  have hnew : (r.addMethod labels node name owner install).MethodEntry
      ⟨r.nextLabel owner name, install, owner⟩ name (r.singletons + 1)
      (r.definitions[r.methodBase owner (r.singletons + 1) name]?.getD 0 + 1) := by
    refine ⟨fun id hid => hsi ▸ hv id hid, ?_, ?_, ?_, ?_⟩
    · rintro rfl
      exact le_rfl
    · rw [hg.methodBase hv]
      rfl
    · rw [hg.methodBase hv]
      simp [Resolver.addMethod]
    · rw [hg.methodEntity hv]
      exact (get?_insert hlab _).trans (if_pos rfl)
  have hsit : ∀ key : SiteKey, (r.addMethod labels node name owner install).methodSites[key]? =
      if (⟨r.unit, node⟩ : SiteKey) = key then some ⟨r.nextLabel owner name, install, owner⟩
      else r.methodSites[key]? := by
    simp [Resolver.addMethod, Std.HashMap.getElem?_insert]
  refine ⟨h.apart.of_grows hg (h.apart.regular.of_extends hg.classes hsi hn) hn, ?_,
    fun hc => hg.entered rfl (h.constants hc), fun hs => ?_, fun {key site} hm => ?_,
    fun {key key' site site'} hm hm' hl => ?_⟩
  · obtain ⟨id, hid⟩ := h.object
    exact ⟨id, hg.classes.lookup hid⟩
  · obtain ⟨i, hk, hl, hi⟩ := h.statics hs
    exact ⟨i, hk, (hg.labelOf hk hi.1).trans hl, hg.entered hk hi⟩
  · rw [hsit] at hm
    split at hm
    · cases hm
      exact ⟨_, _, _, hnew⟩
    · obtain ⟨name', number, count, hent⟩ := h.methods hm
      exact ⟨name', number, count, hg.methodEntry hsing hd hent⟩
  · rw [hsit] at hm hm'
    split at hm
    · rename_i hkey
      cases hm
      split at hm'
      · rename_i hkey'
        rw [← hkey, ← hkey']
      · exact absurd hl.symm (h.nextLabel_ne hv hlab hm')
    · split at hm'
      · cases hm'
        exact absurd hl (h.nextLabel_ne hv hlab hm)
      · exact h.methodsApart hm hm' hl

/-! ### All steps -/

lemma Sound.cls (h : r.Sound) {kind : ClassKind} {superclass : Option ClassId} {t : ClassTable}
    (hk : kind ≠ .metaclass) (hs : ∀ s ∈ superclass, ∃ other, r.classes.lookup? other = some s)
    (hd : r.classes.define name kind superclass = .ok (id, t))
    (hl : r.labels.insert (t.label id) ⟨"class", name⟩ = .ok labels) :
    Resolver.Sound { r with classes := t, labels } ∧ r.Grows { r with classes := t, labels } := by
  obtain ⟨hreg, hext, hn⟩ := define_spec h.apart.regular hk hs hd
  have hg : r.Grows { r with classes := t, labels } := ⟨hext, get?_mono hl⟩
  refine ⟨h.of_grows hg ⟨hreg, fun {other id'} hlookup => ?_⟩ rfl rfl rfl rfl rfl, hg⟩
  by_cases ho : other = name
  · cases ho
    cases hlookup.symm.trans hn.lookup
    exact .inr ((get?_insert hl _).trans (if_pos rfl))
  · -- any other name was there before
    have hold : r.classes.lookup? other = some id' := by
      rcases define_cases hd with ⟨-, rfl⟩ | ⟨parent, -, -, rfl, -⟩
      · exact hlookup
      · rwa [lookup?_insert, if_neg (Ne.symm ho)] at hlookup
    have hlab : t.label id' = r.classes.label id' := hext.label_eq (h.apart.regular.named hold).lt_size
    exact (h.apart.entered hold).imp_right fun hent => hlab ▸ hg.labels hent

lemma Change.sound (h : r.Change r') (hs : r.Sound) : r'.Sound ∧ r.Grows r' := by
  cases h with
  | classes t hext hsi hn =>
    have hg : r.Grows { r with classes := t } := ⟨hext, fun h => h⟩
    exact ⟨hs.of_grows hg (hs.apart.of_grows hg (hs.apart.regular.of_extends hext hsi hn) hn)
      rfl rfl rfl rfl rfl, hg⟩
  | cls hk hsup hd hl => exact hs.cls hk hsup hd hl
  | @constant ns name hent =>
    have hg : r.Grows { r with constants := r.constants.insert (ns, name) } := ⟨.refl _, fun h => h⟩
    refine ⟨⟨⟨hs.apart.regular, hs.apart.entered⟩, hs.object, fun {ns' name'} hc => ?_,
      fun hsta => ?_, fun hm => ?_, hs.methodsApart⟩, hg⟩
    · rw [Std.HashSet.contains_insert, Bool.or_eq_true, beq_iff_eq] at hc
      rcases hc with heq | hc
      · cases heq
        exact hg.entered rfl hent
      · exact hg.entered rfl (hs.constants hc)
    · obtain ⟨i, hk, hlab, hi⟩ := hs.statics hsta
      exact ⟨i, hk, (hg.labelOf hk hi.1).trans hlab, hg.entered hk hi⟩
    · obtain ⟨name', number, count, hen⟩ := hs.methods hm
      exact ⟨name', number, count, hg.methodEntry le_rfl (fun _ => le_rfl) hen⟩
  | word hk ha hentity hl => exact hs.addWord hk ha hentity hl
  | method node hv hl => exact ⟨hs.addMethod node hv hl, grows_addMethod hl⟩
  | classSite node id =>
    have hg : r.Grows { r with classSites := r.classSites.insert ⟨r.unit, node⟩ id } := ⟨.refl _, fun h => h⟩
    exact ⟨hs.of_grows hg ⟨hs.apart.regular, hs.apart.entered⟩ rfl rfl rfl rfl rfl, hg⟩
  | unit unit =>
    have hg : r.Grows { r with unit } := ⟨.refl _, fun h => h⟩
    exact ⟨hs.of_grows hg ⟨hs.apart.regular, hs.apart.entered⟩ rfl rfl rfl rfl rfl, hg⟩

lemma Changes.sound (h : r.Changes r') (hs : r.Sound) : r'.Sound ∧ r.Grows r' := by
  induction h with
  | refl => exact ⟨hs, .refl r⟩
  | tail _ hst ih =>
    obtain ⟨hsou, hg⟩ := hst.sound ih.1
    exact ⟨hsou, ih.2.trans hg⟩

end Resolver

end Garnet
