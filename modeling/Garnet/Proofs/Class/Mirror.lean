import Garnet.Proofs.Class.Layout
import Garnet.Proofs.Class.Line

/-!
# Metaclasses mirror classes

Every class but `Object` has a superclass, which is a class too, so the line of superclasses of a class ends
at `Object`. The line of its metaclass goes through the metaclasses of these and on through `Class`. No line
comes back to a class that it has passed, so none is cut short (`metaclasses_mirror`).
-/

namespace Garnet

open List

namespace ClassTable

variable {t t' : ClassTable} {c d p : ClassId} {l : List ClassId}

/-- A table that comes from the first one by definitions of classes under classes, of modules, and of methods.
A definition that fails changes nothing. -/
inductive Defined : ClassTable → Prop where
  | initial : Defined initial
  | define {t t' : ClassTable} {id : ClassId} (name : String) (kind : ClassKind) (superclass : Option ClassId)
    (h : Defined t) (hkind : kind ≠ .metaclass)
    (hsuper : ∀ s ∈ superclass, s < t.classes.size ∧ (t.info s).kind = .ordinary)
    (hdefine : t.define name kind superclass = .ok (id, t')) : Defined t'
  | method {t : ClassTable} (id : ClassId) (name label : String) (h : Defined t) :
    Defined (t.defineMethod id name label)

/-- The classes that one comes to, going on from each to the next one until there is none. -/
inductive Follows (next : ClassId → Option ClassId) : ClassId → List ClassId → Prop where
  | stop {c : ClassId} (h : next c = none) : Follows next c [c]
  | step {c d : ClassId} {l : List ClassId} (h : next c = some d) (hl : Follows next d l) : Follows next c (c :: l)

def superclass? (t : ClassTable) (c : ClassId) : Option ClassId :=
  if (t.info c).kind = .metaclass then none else (t.info c).superclass

/-- A class and its superclasses, as far as they go. -/
def superclasses (t : ClassTable) (c : ClassId) : List ClassId :=
  t.superclassesFrom (t.classes.size + 1) (some c) []

/-- All classes come from `Object`, and none includes a module. -/
structure Rooted (t : ClassTable) : Prop where
  regular : t.Regular
  includes : ∀ id, (t.info id).includes = []
  root : ∀ id < t.classes.size, (t.info id).kind = .ordinary → (t.info id).superclass = none →
    t.lookup? "Object" = some id
  super : ∀ id, ∀ s ∈ (t.info id).superclass, (t.info s).kind = .ordinary
  line : ∃ o m k, t.lookup? "Object" = some o ∧ t.lookup? "Module" = some m ∧ t.lookup? "Class" = some k ∧
    (t.info o).superclass = none ∧ (t.info m).superclass = some o ∧ (t.info k).superclass = some m

/-! ### Definitions -/

lemma lt_size_of_superclass (h : (t.info c).superclass = some p) : c < t.classes.size := by
  by_contra hnot
  rw [info, Array.getElem?_eq_none (Nat.le_of_not_lt hnot)] at h
  cases h

lemma Holds.exists_of_kind {cs : List BuiltinClass} (h : t.Holds cs) (hc : c < t.classes.size)
    (hkind : (t.info c).kind ≠ .metaclass) : ∃ b ∈ cs, t.lookup? b.name = some c ∧ (t.info c).kind = b.kind ∧
      (t.info c).superclass = b.superclass.bind t.lookup? ∧ ∀ s ∈ b.superclass, (t.lookup? s).isSome := by
  obtain ⟨name, hn | ⟨_, _, hm⟩⟩ := h.regular.cover c hc
  · obtain ⟨b, hb, rfl⟩ := mem_map.mp ((h.mem name).mp (by rw [hn.lookup]; rfl))
    obtain ⟨id, hlookup, hr⟩ := h.each b hb
    cases hn.lookup.symm.trans hlookup
    exact ⟨b, hb, hlookup, hr⟩
  · exact absurd hm.kind_eq hkind

lemma rooted_initial : initial.Rooted where
  regular := holds_initial.regular
  includes := holds_initial.includes_eq_nil
  root id hid hkind hnone := by
    obtain ⟨b, hb, hlookup, hk', hsuper, hkno⟩ := holds_initial.exists_of_kind hid (by simp [hkind])
    have hno : b.superclass = none := by
      by_contra hso
      obtain ⟨s, hs⟩ := Option.ne_none_iff_exists'.mp hso
      rw [hnone, hs, Option.bind_some] at hsuper
      cases hsuper ▸ hkno s hs
    have hall : ∀ b ∈ Builtin.classes.reverse, b.kind = .ordinary → b.superclass = none → b.name = "Object" := by
      decide
    exact hall b hb (hk'.symm.trans hkind) hno ▸ hlookup
  super id s hs := by
    have hid := lt_size_of_superclass hs
    obtain ⟨hlt, hkind, hp⟩ := holds_initial.regular.older id hid s hs
    obtain ⟨b, hb, -, -, hsuper, -⟩ := holds_initial.exists_of_kind hid (by simp [hkind])
    obtain ⟨b', hb', hlookup, hk', -⟩ := holds_initial.exists_of_kind (Nat.lt_trans hlt hid) hp
    obtain ⟨n, hn, hs⟩ := Option.bind_eq_some_iff.mp (hsuper.symm.trans hs)
    have hna : b'.name = n := (holds_initial.regular.named hlookup).name_eq.symm.trans
      (holds_initial.regular.named hs).name_eq
    have hall : ∀ b ∈ Builtin.classes.reverse, ∀ b' ∈ Builtin.classes.reverse, b'.name ∈ b.superclass →
      b'.kind = .ordinary := by decide
    exact hk'.trans (hall b hb b' hb' (hna ▸ hn))
  line := by
    have hmem i : ∀ b ∈ Builtin.classes[i]?, b ∈ Builtin.classes.reverse :=
      fun b hb => mem_reverse.mpr (mem_of_getElem? hb)
    obtain ⟨o, ho, -, hsuper, -⟩ := holds_initial.each _ (hmem 0 _ rfl)
    obtain ⟨m, hm, -, hs', -⟩ := holds_initial.each _ (hmem 1 _ rfl)
    obtain ⟨k, hk, -, hs'', -⟩ := holds_initial.each _ (hmem 2 _ rfl)
    exact ⟨o, m, k, ho, hm, hk, hsuper, hs'.trans ho, hs''.trans hm⟩

lemma Rooted.insert (h : t.Rooted) {name : String} {kind : ClassKind} {parent : Option ClassId}
    (hn : t.lookup? name = none) (hkind : kind ≠ .metaclass)
    (hp : ∀ s ∈ parent, kind = .ordinary ∧ s < t.classes.size ∧ (t.info s).kind = .ordinary)
    (hso : kind = .ordinary → parent ≠ none) : (t.insert name kind parent false).2.Rooted := by
  have hext := extends_insert t name kind parent false hn
  have hnam s (hs : s ∈ parent) : kind = .ordinary ∧ ∃ other, t.lookup? other = some s := by
    obtain ⟨hord, hlt, hkin⟩ := hp s hs
    obtain ⟨other, hoth | ⟨_, _, hme⟩⟩ := h.regular.cover s hlt
    · exact ⟨hord, other, hoth.lookup⟩
    · cases hme.kind_eq.symm.trans hkin
  have hreg := h.regular.insert hn hkind hnam false
  -- a class of the new table is an old one, the new one or its metaclass
  have hc {id} (hid : id < (t.insert name kind parent false).2.classes.size) :
      id < t.classes.size ∨ id = t.classes.size ∨ id = t.classes.size + 1 := by
    rw [size_insert] at hid
    omega
  refine ⟨hreg, fun id => (includes_insert t name kind parent false id).trans (h.includes id), ?_, ?_, ?_⟩
  · intro id hid hord hnone
    rcases hc hid with hold | rfl | rfl
    · rw [info_insert_of_lt _ _ _ _ _ hold] at hord hnone
      exact hext.lookup (h.root id hold hord hnone)
    · rw [info_insert_own] at hord hnone
      exact absurd hnone (hso hord)
    · rw [info_insert_metaclass] at hord
      cases hord
  · intro id s hs
    rcases hc (lt_size_of_superclass hs) with hold | rfl | rfl
    · rw [info_insert_of_lt _ _ _ _ _ hold] at hs
      rw [info_insert_of_lt _ _ _ _ _ (Nat.lt_trans (h.regular.older id hold s hs).1 hold)]
      exact h.super id s hs
    · rw [info_insert_own] at hs
      rw [info_insert_of_lt _ _ _ _ _ (hp s hs).2.1]
      exact (hp s hs).2.2
    · rw [info_insert_metaclass] at hs
      cases hs
  · obtain ⟨o, m, k, ho, hm, hk, hr⟩ := h.line
    refine ⟨o, m, k, hext.lookup ho, hext.lookup hm, hext.lookup hk, ?_⟩
    rwa [(hext.info o (h.regular.named ho).lt_size).superclass, (hext.info m (h.regular.named hm).lt_size).superclass,
      (hext.info k (h.regular.named hk).lt_size).superclass]

lemma Rooted.defineMethod (h : t.Rooted) (id : ClassId) (name label : String) :
    (t.defineMethod id name label).Rooted := by
  have hin i : ∃ methods, (t.defineMethod id name label).info i = { t.info i with methods } := by
    change ∃ methods, (t.modify id _).info i = _
    rw [info_modify]
    split <;> exact ⟨_, rfl⟩
  choose methods hin using hin
  refine ⟨h.regular.defineMethod id name label, ?_, ?_, ?_, ?_⟩ <;> simp only [hin]
  · exact h.includes
  · exact fun i hi => h.root i (by simpa [ClassTable.defineMethod, modify] using hi)
  · exact h.super
  · exact h.line

lemma Defined.rooted (h : t.Defined) : t.Rooted := by
  induction h with
  | initial => exact rooted_initial
  | method id name label _ ih => exact ih.defineMethod id name label
  | define _ _ _ _ hkind hsuper hdefine ih =>
    rcases define_cases hdefine with ⟨-, rfl⟩ | ⟨parent, hn, -, rfl, hp, hnone⟩
    · exact ih
    · obtain ⟨o, m, -, ho, hm, -, -, hmo, -⟩ := ih.line
      refine ih.insert hn hkind (fun s hs => ⟨(hp s hs).1, ?_⟩) fun hord hno => ?_
      · rcases (hp s hs).2 with hs | hs
        · exact hsuper s hs
        · cases ho.symm.trans hs
          exact ⟨(ih.regular.named ho).lt_size, ih.super m o hmo⟩
      · cases ho.symm.trans (hnone hord hno)

/-! ### Lines -/

namespace Rooted

variable (h : t.Rooted)
include h

lemma lined : t.Lined := ⟨h.regular, fun id => by simp [h.includes id]⟩

lemma ancestors_of_parent? (hp : t.parent? c = some p) : t.ancestors c = c :: t.ancestors p := by
  have heq := h.lined.ancestors_eq hp (by simp [h.includes c])
  rwa [h.includes c] at heq

lemma ancestors_of_none (hp : t.parent? c = none) : t.ancestors c = [c] := by
  simp [ancestors, ancestorsFrom, hp, h.includes c]

/-- The line of a class goes on until there is no next class. -/
lemma follows_ancestors (c : ClassId) : Follows t.parent? c (t.ancestors c) := by
  induction hr : t.rank c using Nat.strongRecOn generalizing c with
  | ind r ih =>
    cases hp : t.parent? c with
    | none =>
      rw [h.ancestors_of_none hp]
      exact .stop hp
    | some p =>
      rw [h.ancestors_of_parent? hp]
      exact .step hp (ih _ (hr ▸ (h.regular.rank_parent? hp).2.2.1) p rfl)

lemma superclasses_eq (hc : c < t.classes.size) :
    t.superclasses c = c :: (t.superclass? c).elim [] t.superclasses := by
  rw [superclasses, superclassesFrom]
  simp only [contains_nil, Bool.false_eq_true, if_false, nil_append]
  change t.superclassesFrom _ (t.superclass? c) [c] = _
  cases hs : t.superclass? c with
  | none => rw [superclassesFrom]; rfl
  | some s =>
    have hlt : s < c := by
      rw [superclass?] at hs
      split at hs
      · cases hs
      · exact (h.regular.older c hc s hs).1
    have hsi := Nat.lt_trans hlt hc
    rw [Option.elim_some, superclasses, superclassesFrom_eq h.regular hsi hsi (by simpa using hlt),
      superclassesFrom_eq h.regular hsi (Nat.lt_succ_of_lt hsi) (by simp)]
    rfl

/-- The superclasses of a class go on until there is none. -/
lemma follows_superclasses (hc : c < t.classes.size) : Follows t.superclass? c (t.superclasses c) := by
  induction c using Nat.strongRecOn with
  | ind c ih =>
    rw [h.superclasses_eq hc]
    cases hs : t.superclass? c with
    | none => exact .stop hs
    | some s =>
      rw [superclass?] at hs
      split at hs
      · cases hs
      · have hlt := (h.regular.older c hc s hs).1
        exact .step (by rw [superclass?, if_neg ‹_›, hs]) (ih s hlt (Nat.lt_trans hlt hc))

/-- A class or module and its metaclass. -/
lemma metaclass_spec (hc : c < t.classes.size) (hkind : (t.info c).kind ≠ .metaclass) :
    (t.info c).metaclass = some (c + 1) ∧ t.superclass? c = (t.info c).superclass ∧
    t.parent? (c + 1) = match (t.info c).superclass with
      | some s => (t.info s).metaclass
      | none => t.lookup? (if (t.info c).kind = .mixin then "Module" else "Class") := by
  obtain ⟨name, hn | ⟨_, _, hme⟩⟩ := h.regular.cover c hc
  · have hm := h.regular.metaclass hn.lookup
    refine ⟨hn.metaclass_eq, if_neg hkind, ?_⟩
    rw [parent?, hm.kind_eq, hm.owner_eq]
    rfl
  · exact absurd hme.kind_eq hkind

lemma ancestors_named {o m k : ClassId} (ho : (t.info o).superclass = none ∧ (t.info o).kind = .ordinary)
    (hm : (t.info m).superclass = some o) (hk : (t.info k).superclass = some m) :
    t.ancestors m = [m, o] ∧ t.ancestors k = [k, m, o] := by
  have hp {a b} (hab : (t.info a).superclass = some b) : t.parent? a = some b := by
    rw [parent?, (h.regular.older a (lt_size_of_superclass hab) b hab).2.1]
    exact hab
  have hs : t.parent? o = none := by
    rw [parent?, ho.2]
    exact ho.1
  rw [h.ancestors_of_parent? (hp hk), h.ancestors_of_parent? (hp hm), h.ancestors_of_none hs]
  exact ⟨rfl, rfl⟩

/-- The line of a class's metaclass. -/
lemma ancestors_metaclass (hc : c < t.classes.size) (hkind : (t.info c).kind = .ordinary) :
    (t.superclasses c).getLast? = t.lookup? "Object" ∧ (t.ancestors (c + 1)).map some =
      (t.superclasses c).map (fun a => (t.info a).metaclass) ++
        [t.lookup? "Class", t.lookup? "Module", t.lookup? "Object"] := by
  obtain ⟨o, m, k, ho, hm, hk, hsuper, hmo, hkm⟩ := h.line
  -- a superclass is older, and only `Object` has none
  induction c using Nat.strongRecOn with
  | ind c ih =>
    obtain ⟨hme, hsc, hp⟩ := h.metaclass_spec hc (by simp [hkind])
    rw [h.superclasses_eq hc, hsc, map_cons, hme]
    cases hs : (t.info c).superclass with
    | none =>
      obtain rfl : o = c := Option.some.inj (ho.symm.trans (h.root c hc hkind hs))
      rw [hs, hkind, if_neg (by simp), hk] at hp
      rw [h.ancestors_of_parent? hp, (h.ancestors_named ⟨hsuper, hkind⟩ hmo hkm).2, ho, hm, hk]
      exact ⟨rfl, rfl⟩
    | some s =>
      have hlt := (h.regular.older c hc s hs).1
      have hsi := Nat.lt_trans hlt hc
      have hord := h.super c s hs
      obtain ⟨hlast, hline⟩ := ih s hlt hsi hord
      rw [hs] at hp
      have hp' := hp.trans (h.metaclass_spec hsi (by simp [hord])).1
      rw [h.ancestors_of_parent? hp', map_cons, hline, Option.elim_some]
      refine ⟨?_, rfl⟩
      rw [getLast?_cons, hlast, ho]
      rfl

lemma ancestors_metaclass_of_mixin (hkind : (t.info c).kind = .mixin) :
    (t.info c).metaclass = some (c + 1) ∧
      (t.ancestors (c + 1)).map some = [some (c + 1), t.lookup? "Module", t.lookup? "Object"] := by
  obtain ⟨o, m, k, ho, hm, -, hsuper, hmo, hkm⟩ := h.line
  have hc := lt_size_of_mixin hkind
  obtain ⟨hme, -, hp⟩ := h.metaclass_spec hc (by simp [hkind])
  have hnone : (t.info c).superclass = none := by
    by_contra hso
    obtain ⟨s, hs⟩ := Option.ne_none_iff_exists'.mp hso
    cases hkind.symm.trans (h.regular.older c hc s hs).2.1
  rw [hnone, hkind, if_pos rfl, hm] at hp
  rw [h.ancestors_of_parent? hp, (h.ancestors_named ⟨hsuper, h.super m o hmo⟩ hmo hkm).1, ho, hm]
  exact ⟨hme, rfl⟩

end Rooted

lemma isSome_findMethod? {name : String} (hd : d ∈ t.ancestors c) (hn : name ∈ (t.info d).methods) :
    (t.findMethod? c name).isSome := by
  rw [findMethod?, methodAmong?, findSome?_isSome_iff]
  exact ⟨d, hd, by simpa using hn⟩

/-- Whatever classes, modules and methods are defined, all lines go on to their ends. Those of metaclasses go
through the metaclasses of all superclasses and then through `Class`, and through `Module` for a module; so the
methods of all these are found. -/
theorem metaclasses_mirror (h : t.Defined) :
    (∀ c < t.classes.size, Follows t.parent? c (t.ancestors c) ∧ Follows t.superclass? c (t.superclasses c) ∧
      t.computeLayout c = (t.superclasses c).reverse.foldl (fun vars a => addVars vars (t.ownVars a)) [] ∧
      ∀ d ∈ t.ancestors c, ∀ name ∈ (t.info d).methods, (t.findMethod? c name).isSome) ∧
    (∀ c < t.classes.size, (t.info c).kind = .ordinary → (t.superclasses c).getLast? = t.lookup? "Object" ∧
      ∃ d, (t.info c).metaclass = some d ∧ (t.ancestors d).map some =
        (t.superclasses c).map (fun a => (t.info a).metaclass) ++
          [t.lookup? "Class", t.lookup? "Module", t.lookup? "Object"]) ∧
    ∀ c < t.classes.size, (t.info c).kind = .mixin → ∃ d, (t.info c).metaclass = some d ∧
      (t.ancestors d).map some = [some d, t.lookup? "Module", t.lookup? "Object"] := by
  have hr := h.rooted
  refine ⟨fun c hc => ⟨hr.follows_ancestors c, hr.follows_superclasses hc, rfl,
    fun d hd _ => isSome_findMethod? hd⟩, fun c hc hkind => ?_,
    fun c _ hkind => ⟨c + 1, hr.ancestors_metaclass_of_mixin hkind⟩⟩
  obtain ⟨hlast, hline⟩ := hr.ancestors_metaclass hc hkind
  exact ⟨hlast, c + 1, (hr.metaclass_spec hc (by simp [hkind])).1, hline⟩

theorem metaclasses_mirror_point : ∃ (t : ClassTable) (c d : ClassId), t.Defined ∧
    t.lookup? "Point" = some c ∧ t.superclass? c ≠ none ∧
    (t.superclasses c).getLast? = t.lookup? "Object" ∧ (t.info c).metaclass = some d ∧
    (t.ancestors d).map some = (t.superclasses c).map (fun a => (t.info a).metaclass) ++
      [t.lookup? "Class", t.lookup? "Module", t.lookup? "Object"] := by
  have hnone : initial.lookup? "Point" = none := by
    rw [← Option.not_isSome_iff_eq_none, holds_initial.mem]
    decide
  have hdefined : (initial.insert "Point" .ordinary (initial.lookup? "Object") false).2.Defined :=
    .define "Point" .ordinary none .initial (by simp) (by simp) (by rw [define, hnone]; rfl)
  obtain ⟨hlast, d, hd⟩ := (metaclasses_mirror hdefined).2.1 initial.classes.size
    (by rw [size_insert]; omega) (by rw [info_insert_own])
  refine ⟨_, initial.classes.size, d, hdefined, by rw [lookup?_insert, if_pos rfl], ?_, hlast, hd⟩
  obtain ⟨o, _, _, ho, -⟩ := rooted_initial.line
  rw [superclass?, info_insert_own, ho]
  exact Option.some_ne_none o

end ClassTable

end Garnet
