import Garnet.Proofs.Closure.Labels
import Garnet.Proofs.Reading.Source
import Garnet.Proofs.Storage.Filled
import Garnet.Session

/-!
# What a program is made of

`transform_eq_ok` takes the making of a program apart: its units are lowered, then all are collected,
then the names of each are resolved, and then each is cut into routines. Resolving gives the units one
after another, so what it makes of one of them is new among what it made before: the labels of methods
and the numbers of class bodies stand in all trees together once each.
-/

namespace Garnet

open List Garnet.Tree UnitTree

/-! ### Units -/

lemma except_mapM_forall₂ {ε α β : Type} {f : α → Except ε β} {as : List α} {bs : List β}
    (h : as.mapM f = .ok bs) : List.Forall₂ (fun a b => f a = .ok b) as bs := by
  induction as generalizing bs with
  | nil =>
    cases h
    exact .nil
  | cons a as ih =>
    rw [mapM_cons] at h
    obtain ⟨b, hb, h⟩ := except_bind_eq_ok.mp h
    obtain ⟨bs', hbs, h⟩ := except_bind_eq_ok.mp h
    cases h
    exact .cons hb (ih hbs)

lemma except_toOption_eq_some {ε α : Type} {x : Except ε α} {a : α} : x.toOption = some a ↔ x = .ok a := by
  cases x <;> simp [Except.toOption]

lemma exists_of_forall₂ {α β : Type} {R : α → β → Prop} {as : List α} {bs : List β}
    (h : List.Forall₂ R as bs) {b : β} (hb : b ∈ bs) : ∃ a ∈ as, R a b := by
  induction h with
  | nil => cases hb
  | @cons a b' as bs hab _ ih =>
    rcases mem_cons.mp hb with rfl | hb
    · exact ⟨a, mem_cons_self, hab⟩
    · obtain ⟨a', ha', h⟩ := ih hb
      exact ⟨a', mem_cons_of_mem a ha', h⟩

lemma isDistinct_of_lower {units : List SourceUnit} {trees lowered : List UnitTree} {folding : Bool}
    (hr : units.mapM SourceUnit.read = .ok trees)
    (hl : trees.mapM (lower · folding) = .ok lowered) : ∀ u ∈ lowered, u.IsDistinct := by
  intro u hu
  obtain ⟨t, ht, hut⟩ := exists_of_forall₂ (except_mapM_forall₂ hl) hu
  obtain ⟨s, -, hst⟩ := exists_of_forall₂ (except_mapM_forall₂ hr) ht
  unfold SourceUnit.read at hst
  split at hst
  · rename_i p hp
    cases hst
    obtain ⟨hs, hd⟩ := parse_source hp
    exact lower_distinct hut hs hd
  · cases hst

/-! ### Resolving -/

/-- The labels of the methods that a resolved tree defines. -/
def Tree.methodLabels (e : Tree) : List String := e.definers.filterMap Node.methodLabel?

/-- The numbers of the class bodies in a resolved tree. -/
def Tree.siteNumbers (e : Tree) : List Int := e.definers.filterMap Node.siteNumber?

namespace Resolver

/-- While units are resolved, only the unit at hand, the next identity and the number of class bodies
change. -/
def Resolving (c r : Resolver) : Prop := r = { c with sites := r.sites, unit := r.unit, nextId := r.nextId }

/-- A definition in unit number `i` has the label. -/
def Owns (c : Resolver) (i : Nat) (label : String) : Prop :=
  ∃ j site, c.methodSites[(⟨i, j⟩ : SiteKey)]? = some site ∧ site.label = label

variable {c r r' : Resolver}

def MethodsApart (c : Resolver) : Prop := ∀ (key key' : SiteKey) (site site' : MethodSite),
    c.methodSites[key]? = some site → c.methodSites[key']? = some site' →
    site.label = site'.label → key = key'

lemma MethodsApart.owner_unique (hc : c.MethodsApart) {i j : Nat} {label : String}
    (hi : c.Owns i label) (hj : c.Owns j label) : i = j := by
  obtain ⟨k, site, hs, hl⟩ := hi
  obtain ⟨k', site', hs', hl'⟩ := hj
  exact congrArg SiteKey.unit (hc _ _ _ _ hs hs' (hl.trans hl'.symm))

end Resolver

open Resolver

/-- Between the states `r` and `r'` the trees `es` were made of the units with the numbers `is`. -/
structure UnitsMade (c : Resolver) (is : List Nat) (r : Resolver) (es : List Tree) (r' : Resolver) :
    Prop where
  resolving : c.Resolving r'
  sites_le : r.sites ≤ r'.sites
  resolved : ∀ e ∈ es, e.IsResolved
  nodup_labels : (es.flatMap methodLabels).Nodup
  labels : ∀ label ∈ es.flatMap methodLabels, ∃ i ∈ is, c.Owns i label
  nodup_sites : (es.flatMap siteNumbers).Nodup
  sites : ∀ k ∈ es.flatMap siteNumbers, ∃ m : Nat, k = m ∧ r.sites ≤ m ∧ m < r'.sites

namespace UnitsMade

variable {c r r' r'' : Resolver} {i : Nat} {is : List Nat} {e : Tree} {es : List Tree}

lemma nil (h : c.Resolving r) : UnitsMade c [] r [] r where
  resolving := h
  sites_le := le_rfl
  resolved := by simp
  nodup_labels := nodup_nil
  labels := by simp
  nodup_sites := nodup_nil
  sites := by simp

lemma cons (hc : c.MethodsApart) (hi : i ∉ is) (h : UnitsMade c [i] r [e] r')
    (hs : UnitsMade c is r' es r'') :
    UnitsMade c (i :: is) r (e :: es) r'' where
  resolving := hs.resolving
  sites_le := Nat.le_trans h.sites_le hs.sites_le
  resolved := forall_mem_cons.mpr ⟨h.resolved e mem_cons_self, hs.resolved⟩
  nodup_labels := by
    have hlab := h.labels
    rw [flatMap_singleton] at hlab
    rw [flatMap_cons]
    refine nodup_append.mpr ⟨by simpa using h.nodup_labels, hs.nodup_labels, ?_⟩
    rintro label hl _ hl' rfl
    obtain ⟨k, hk, ho⟩ := hlab label hl
    obtain ⟨j, hj, ho'⟩ := hs.labels label hl'
    rw [mem_singleton] at hk
    exact hi (hk ▸ hc.owner_unique ho ho' ▸ hj)
  labels := by
    intro label hl
    rw [flatMap_cons, mem_append] at hl
    rcases hl with hl | hl
    · obtain ⟨k, hk, ho⟩ := h.labels label (by simpa using hl)
      exact ⟨k, mem_cons.mpr (.inl (mem_singleton.mp hk)), ho⟩
    · obtain ⟨k, hk, ho⟩ := hs.labels label hl
      exact ⟨k, mem_cons_of_mem i hk, ho⟩
  nodup_sites := by
    have hsit := h.sites
    rw [flatMap_singleton] at hsit
    rw [flatMap_cons]
    refine nodup_append.mpr ⟨by simpa using h.nodup_sites, hs.nodup_sites, ?_⟩
    rintro k hk _ hk' rfl
    obtain ⟨m, hm, -, hlt⟩ := hsit k hk
    obtain ⟨m', hm', hle, -⟩ := hs.sites k hk'
    omega
  sites := by
    intro k hk
    rw [flatMap_cons, mem_append] at hk
    rcases hk with hk | hk
    · obtain ⟨m, hm, hle, hlt⟩ := h.sites k (by simpa using hk)
      exact ⟨m, hm, hle, Nat.lt_of_lt_of_le hlt hs.sites_le⟩
    · obtain ⟨m, hm, hle, hlt⟩ := hs.sites k hk
      exact ⟨m, hm, Nat.le_trans h.sites_le hle, hlt⟩

end UnitsMade

/-- The words of `self` in the resolved unit `e'` are those of the instance variables of the unit `e`. -/
structure FieldsMade (u : Resolver) (e e' : Tree) : Prop where
  stored : Storage.Stored u e
  fields : e'.fields = (e.uses u none).filterMap u.word?

section

variable {c r r' : Resolver} {i : Nat} {u : UnitTree} {e : Tree}

lemma exists_nat_of_mem_siteNumbers (he : e.IsResolved) {k : Int} (hk : k ∈ e.siteNumbers) :
    ∃ m : Nat, k = m := by
  obtain ⟨n, hn, hs⟩ := mem_filterMap.mp hk
  obtain ⟨t, ht, hno⟩ := mem_filterMap.mp (mem_of_mem_filter hn)
  have hr := he n (tree_of_node? hno ▸ ht)
  unfold Node.siteNumber? at hs
  split at hs
  · rename_i k' htag hc
    obtain ⟨m, hm⟩ := hr.site htag
    rw [hm] at hc
    exact ⟨m, (Option.some.inj hs).symm.trans (Tree.int.inj hc).symm⟩
  · cases hs

/-- One unit: its methods get the labels of its own definitions, and its instance variables get words. -/
lemma resolve_made (hc : c.MethodsApart) (hu : u.IsDistinct)
    (hkno : Storage.Known { c with unit := i } u.tree) (hr : c.Resolving r)
    (h : resolve i u.nextId u.tree r = .ok e r') :
    UnitsMade c [i] r [e] r' ∧ FieldsMade { c with unit := i } u.tree e := by
  unfold resolve at h
  have hm := Storage.resolves_recurse _ hu.lowered hkno h (by rw [Resolver.During, hr])
  have hf := hm.fields
  rw [flatMap_singleton, flatMap_singleton] at hf
  refine ⟨?_, hm.stored _ mem_cons_self, hf⟩
  have hl := hm.labels
  have hs := hm.sites
  rw [flatMap_singleton] at hl hs
  simp only [prunedOf_cons, prunedOf_nil, copiesIn_cons, copiesIn_nil] at hl
  have he := forall_mem_singleton.mp hm.resolved
  have ho : ∀ label ∈ e.methodLabels, c.Owns i label := by
    intro label hlab
    by_contra hno
    -- no definition has the label, so it stands no more often than there are definitions yet to come
    have hcou := hl label u.nextId fun j site hsi heq => absurd ⟨j, site, hsi, heq⟩ hno
    have hz := hu.distinct u.nextId
    rw [if_neg (Nat.lt_irrefl _)] at hz
    exact absurd (count_pos_iff.mpr hlab) (by rw [methodLabels]; omega)
  refine ⟨?_, hm.sites_le, hm.resolved, ?_, ?_, ?_, ?_⟩
  · rw [Resolving, hm.during]
  · rw [flatMap_singleton, nodup_iff_count_le_one]
    intro label
    by_cases hlab : label ∈ e.methodLabels
    · obtain ⟨j, site, hsi, heq⟩ := ho label hlab
      refine Nat.le_trans (hl label j fun j' site' hs' heq' => ?_) ?_
      · exact congrArg SiteKey.node (hc _ _ _ _ hs' hsi (heq'.trans heq.symm))
      · exact Nat.le_trans (hu.distinct j) (by split <;> omega)
    · rw [count_eq_zero_of_not_mem hlab]
      exact Nat.zero_le 1
  · simpa using ho
  · rw [flatMap_singleton, nodup_iff_count_le_one]
    intro k
    by_cases hk : k ∈ e.siteNumbers
    · obtain ⟨m, rfl⟩ := exists_nat_of_mem_siteNumbers he hk
      exact Nat.le_trans (hs m) (by split <;> omega)
    · rw [count_eq_zero_of_not_mem hk]
      exact Nat.zero_le 1
  · intro k hk
    rw [flatMap_singleton] at hk
    obtain ⟨m, rfl⟩ := exists_nat_of_mem_siteNumbers he hk
    have hcou := hs m
    have hpos : 0 < e.siteNumbers.count (m : Int) := count_pos_iff.mpr hk
    rw [siteNumbers] at hpos
    split at hcou
    · exact ⟨m, rfl, ‹_›⟩
    · omega

lemma resolveAll_made (hc : c.MethodsApart) {units : List (Nat × UnitTree)} {us : List UnitTree}
    (hn : (units.map Prod.fst).Nodup) (hd : ∀ p ∈ units, p.2.IsDistinct)
    (hk : ∀ p ∈ units, Storage.Known { c with unit := p.1 } p.2.tree) (hr : c.Resolving r)
    (h : (units.mapM fun (i, u) => do
      let tree ← resolve i u.nextId u.tree
      return ⟨tree, (← get).nextId⟩ : Resolve (List UnitTree)) r = .ok us r') :
    UnitsMade c (units.map Prod.fst) r (us.map tree) r' ∧
      List.Forall₂ (fun q v => FieldsMade { c with unit := q.1 } q.2.tree v.tree) units us := by
  induction units generalizing r us with
  | nil =>
    cases h
    exact ⟨.nil hr, .nil⟩
  | cons p units ih =>
    rw [map_cons, nodup_cons] at hn
    rw [forall_mem_cons] at hd hk
    rw [mapM_cons] at h
    obtain ⟨u, s, hu, h⟩ := bind_eq_ok.mp h
    obtain ⟨us', s', hus, h⟩ := bind_eq_ok.mp h
    cases h
    obtain ⟨e, t, he, hu⟩ := bind_eq_ok.mp hu
    cases hu
    obtain ⟨hf, hfie⟩ := resolve_made hc hd.1 hk.1 hr he
    obtain ⟨hre, hall⟩ := ih hn.2 hd.2 hk.2 hf.resolving hus
    exact ⟨hf.cons hc hn.1 hre, .cons hfie hall⟩

end

/-! ### Programs -/

lemma UnitTree.map_fst_numbered (units : List UnitTree) : (numbered units).map Prod.fst = range units.length :=
  ext_getElem (by simp [numbered]) (by simp [numbered])

lemma UnitTree.mem_of_mem_numbered {units : List UnitTree} {p : Nat × UnitTree} (h : p ∈ numbered units) :
    p.2 ∈ units := by
  obtain ⟨i, hi, rfl⟩ := mem_mapIdx.mp h
  exact getElem_mem hi

/-- What is known when the classes have their layouts. -/
def Resolver.laidOut (c : Resolver) : Resolver := { c with classes := c.classes.layout }

/-- The table `t'` is `t` with places for more names of methods. -/
def ClassTable.AddsSlots (t t' : ClassTable) : Prop := ∃ slots, t.slots.Grows slots ∧ t' = { t with slots }

/-- How a program is made of units: `trees` are their trees and `lowered` the lowered ones, `c` is what is
known when all are collected, `resolved` are the units with their names resolved, which leaves `r` known,
and `groups` are the routines of each. -/
structure Transformed (units : List SourceUnit) (trees : List UnitTree) (folding : Bool)
    (labels : LabelTable) (p : Program) (lowered resolved : List UnitTree) (c r : Resolver)
    (groups : List (List Routine)) : Prop where
  read : units.mapM SourceUnit.read = .ok trees
  lower : trees.mapM (lower · folding) = .ok lowered
  units : resolveUnits lowered (.start labels) = .ok resolved r
  collect : ((numbered lowered).forM fun (i, u) => collect i u.tree : Resolve Unit)
    (.start labels) = .ok () c
  resolve : ((numbered lowered).mapM fun (i, u) => do
    let tree ← resolve i u.nextId u.tree
    return ⟨tree, (← get).nextId⟩ : Resolve (List UnitTree)) c.laidOut = .ok resolved r
  lift : ((numbered resolved).mapM fun (i, u) => liftRoutines (unitLabel i) u.tree u.nextId) =
    .ok groups
  program : p =
    { routines := groups.flatten
      units := (range resolved.length).map unitLabel
      classes := groups.flatten.foldl allotSentNames r.classes
      statics := r.statics
      classSites := r.sites }

section

variable {units : List SourceUnit} {trees lowered resolved : List UnitTree} {folding : Bool}
  {labels labels' : LabelTable} {p : Program} {c r : Resolver} {groups : List (List Routine)}

theorem transform_eq_ok (hre : units.mapM SourceUnit.read = .ok trees)
    (h : transform trees folding labels = .ok p labels') :
    ∃ lowered resolved c r groups, Transformed units trees folding labels p lowered resolved c r groups := by
  unfold transform at h
  split at h
  · cases h
  rename_i lowered hl
  split at h
  · cases h
  rename_i resolved r hu
  split at h
  · cases h
  rename_i groups hli
  obtain ⟨_, c, hc, hr⟩ := bind_eq_ok.mp hu
  unfold finishCollect at hr
  cases h
  exact ⟨lowered, resolved, c, r, groups, hre, hl, hu, hc, hr, hli, rfl⟩

lemma transform_of_eq_ok (hl : trees.mapM (lower · folding) = .ok lowered)
    (hr : resolveUnits lowered (.start labels) = .ok resolved r)
    (hli : ((numbered resolved).mapM fun (i, u) => liftRoutines (unitLabel i) u.tree u.nextId) =
      .ok groups) :
    transform trees folding labels = .ok
      { routines := groups.flatten
        units := (List.range resolved.length).map unitLabel
        classes := groups.flatten.foldl allotSentNames r.classes
        statics := r.statics
        classSites := r.sites } r.labels := by
  simp only [transform, hl, hr, hli]

namespace Transformed

variable (h : Transformed units trees folding labels p lowered resolved c r groups)
include h

lemma sound : c.Sound :=
  ((collectUnits_changes (Resolver.sound_start labels) h.collect).sound (Resolver.sound_start labels)).1

lemma isDistinct : ∀ q ∈ numbered lowered, q.2.IsDistinct :=
  fun _ hq => isDistinct_of_lower h.read h.lower _ (mem_of_mem_numbered hq)

lemma collected : Collected (numbered lowered) (.start labels) c := by
  refine collectUnits_collected (Resolver.sound_start labels) (Resolver.capital_start labels)
    (h.isDistinct) ?_ h.collect
  rw [map_fst_numbered]
  exact List.nodup_range

lemma made : UnitsMade c.laidOut (List.range lowered.length) c.laidOut (resolved.map tree) r ∧
      List.Forall₂ (fun q v => FieldsMade { c.laidOut with unit := q.1 } q.2.tree v.tree)
        (numbered lowered) resolved := by
  have ha : c.laidOut.MethodsApart := fun _ _ _ _ hs hs' hl => h.sound.methodsApart hs hs' hl
  have hkno := h.collected.known
  rw [← map_fst_numbered]
  refine resolveAll_made ha ?_ (h.isDistinct) (fun q hq => (hkno q hq).mono rfl fun _ hk => hk)
    rfl h.resolve
  rw [map_fst_numbered]
  exact List.nodup_range

lemma resolver_eq : r.classes = c.classes.layout ∧ r.statics = c.statics := by
  have hr : r = _ := h.made.1.resolving
  rw [hr]
  exact ⟨rfl, rfl⟩

lemma classes_eq_laidOut : c.classes.layout.AddsSlots p.classes := by
  rw [h.program, h.resolver_eq.1]
  refine List.foldlRecOn (motive := c.classes.layout.AddsSlots) _ _ ⟨_, .refl _, rfl⟩ fun t ht routine _ => ?_
  refine List.foldlRecOn (motive := c.classes.layout.AddsSlots) _ _ ht fun t ht name _ => ?_
  obtain ⟨slots, hs, rfl⟩ := ht
  exact ⟨_, hs.trans (SlotTable.grows_insert slots name), rfl⟩

lemma classes_eq : p.classes.classes = c.classes.classes := by
  obtain ⟨slots, -, hp⟩ := h.classes_eq_laidOut
  rw [hp]
  rfl

end Transformed

end

end Garnet
