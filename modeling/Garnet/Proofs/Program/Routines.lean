import Garnet.Proofs.Label.Role
import Garnet.Proofs.Program.Transformed

/-!
# Where routines come from

Each routine of a program has a `RoutineOrigin`: the top level of a unit, or a node of a resolved unit
at which a scope is opened.

* `Transformed.forall₂_groups`: the routines are those of the origins of all units, in order.
* `perm_definers`: the nodes of the origins are all the nodes that open a scope, once each.
* `Transformed.nodup_labels`: no two routines have one label. Top levels, blocks and singleton classes are known by
  the unit and the number of the scope, class bodies by their number, and methods as definitions are.
-/

namespace Garnet

variable {o : RoutineOrigin}

open List Garnet.Tree Numeral Label UnitTree

/-- Where a routine comes from: the top level of a unit, or a node at which a scope is opened in it. -/
structure RoutineOrigin where
  unit : Nat
  /-- The number of the scope in its unit. -/
  scope : Nat
  node? : Option Node

def RoutineOrigin.label (o : RoutineOrigin) : String := match o.node? with
  | some n => n.scopeLabel (unitLabel o.unit) o.scope
  | none => unitLabel o.unit

/-- What the routine is made of, in the unit `e`. -/
def RoutineOrigin.body? (o : RoutineOrigin) (e : Tree) : Option Tree := match o.node? with
  | some n => n.body?
  | none => some e

/-- The origins of the routines of unit number `i`. -/
def Tree.origins (i : Nat) (e : Tree) : List RoutineOrigin :=
  ⟨i, 0, none⟩ :: e.openers.mapIdx fun k n => ⟨i, 1 + k, some n⟩

def UnitTree.origins (us : List UnitTree) : List RoutineOrigin :=
  (numbered us).flatMap fun q => q.2.tree.origins q.1

/-! ### The routines of a unit -/

section

variable {e : Tree} {i : Nat}

lemma map_scope_origins (e : Tree) (i : Nat) :
    (e.origins i).map RoutineOrigin.scope = range (1 + e.openers.length) := by
  refine ext_getElem (by simp [Tree.origins, Nat.add_comm]) fun k hk hk' => ?_
  cases k with
  | zero => simp [Tree.origins]
  | succ k => simp [Tree.origins, Nat.add_comm]

lemma filterMap_node?_origins :
    (e.origins i).filterMap RoutineOrigin.node? = e.openers := by
  have hmap : ∀ (ns : List Node) (f : Nat → Nat),
      (ns.mapIdx fun k n => (⟨i, f k, some n⟩ : RoutineOrigin)).filterMap RoutineOrigin.node? = ns := by
    intro ns
    induction ns with
    | nil => exact fun _ => rfl
    | cons n ns ih =>
      intro f
      rw [mapIdx_cons]
      exact congrArg (n :: ·) (ih fun k => f (k + 1))
  exact hmap e.openers fun k => 1 + k

lemma unit_eq_of_mem_origins (ho : o ∈ e.origins i) : o.unit = i := by
  rcases mem_cons.mp ho with rfl | ho
  · rfl
  · obtain ⟨k, hk, rfl⟩ := mem_mapIdx.mp ho
    rfl

lemma map_label_origins : (e.origins i).map RoutineOrigin.label =
      unitLabel i :: e.openers.mapIdx fun k n => n.scopeLabel (unitLabel i) (1 + k) := by
  exact congrArg (unitLabel i :: ·) (ext_getElem (by simp) (by simp [RoutineOrigin.label]))

lemma forall₂_origins_scopeBodies (e : Tree) (i : Nat) :
    List.Forall₂ (fun o b => RoutineOrigin.body? o e = some b) (e.origins i) e.scopeBodies := by
  refine .cons rfl ?_
  have hb := forall₂_openers_bodies e
  rw [forall₂_iff_get] at hb ⊢
  refine ⟨by simpa using hb.1, fun k hk hk' => ?_⟩
  rw [length_mapIdx] at hk
  simpa [RoutineOrigin.body?] using hb.2 k hk hk'

lemma liftRoutines_forall₂_origins {nextId : Nat} {rs : List Routine}
    (he : e.Everywhere Node.SingleExit) (h : liftRoutines (unitLabel i) e nextId = .ok rs) :
    List.Forall₂ (fun o r => r.label = o.label ∧ ∃ b, o.body? e = some b ∧
      Closure.RoutineOf (Closure.analyse (unitLabel i) e) (fun j q => rs[j]? = some q) o.scope b r)
      (e.origins i) rs := by
  have hl := Closure.liftRoutines_labels he h
  rw [← map_label_origins] at hl
  have hlen : (e.origins i).length = rs.length := by simpa using (congrArg length hl).symm
  obtain ⟨rs', hrs, -, hof⟩ := Closure.liftRoutines_spec (unitLabel i) he nextId
  cases hrs.symm.trans h
  have hbod := forall₂_iff_get.mp (forall₂_origins_scopeBodies e i)
  refine forall₂_iff_get.mpr ⟨hlen, fun k hk hk' => ⟨?_, ?_⟩⟩
  · simpa [hk, hk'] using congrArg (fun ls : List String => ls[k]?) hl
  · obtain ⟨b, hb, hr⟩ := hof k _ (List.getElem?_eq_getElem hk')
    obtain ⟨hlt, rfl⟩ := List.getElem?_eq_some_iff.mp hb
    have hs : ((e.origins i).get ⟨k, hk⟩).scope = k := by
      have hran := congrArg (fun ks : List Nat => ks[k]?) (map_scope_origins e i)
      rw [getElem?_map, List.getElem?_eq_getElem hk, getElem?_range] at hran
      · exact Option.some.inj hran
      · simpa [Tree.origins, Nat.add_comm] using hk
    rw [hs]
    exact ⟨_, hbod.2 k hk hlt, hr⟩

end

/-! ### The shape of labels -/

lemma eq_of_append_number {base base' : String} {k k' : Nat}
    (h : base ++ "_" ++ decimal k = base' ++ "_" ++ decimal k') : k = k' := by
  have hcut base k :
      (base ++ "_" ++ decimal k).toList = base.toList ++ '_' :: (decimal k).toList := by
    simp [String.toList_append]
  have hc := congrArg String.toList h
  rw [hcut, hcut] at hc
  exact decimal_injective (String.toList_inj.mp (eq_of_append_cons_eq
    (underscore_notMem_decimal k) (underscore_notMem_decimal k') hc).2)

namespace RoutineOrigin

/-- What follows the label of a unit in the label of its scope number `k`. -/
def IsTail (k : Nat) (tail : String) : Prop :=
  tail = "" ∧ k = 0 ∨ ∃ stem, tail = "_" ++ stem ++ "_" ++ decimal k

lemma IsTail.unique {k k' : Nat} {tail : String} (h : IsTail k tail) (h' : IsTail k' tail) : k = k' := by
  have hne k stem : "" ≠ "_" ++ stem ++ "_" ++ decimal k := by
    intro heq
    have hc := congrArg String.toList heq
    simp [String.toList_append] at hc
  rcases h with ⟨rfl, rfl⟩ | ⟨stem, rfl⟩ <;> rcases h' with ⟨h', rfl⟩ | ⟨stem', h'⟩
  · rfl
  · exact absurd h' (hne k' stem')
  · exact absurd h'.symm (hne k stem)
  · exact eq_of_append_number h'

lemma eq_of_unitLabel_append {i i' k k' : Nat} {tail tail' : String} (ht : IsTail k tail)
    (ht' : IsTail k' tail') (h : unitLabel i ++ tail = unitLabel i' ++ tail') : i = i' ∧ k = k' := by
  -- behind the number of the unit comes an underscore or nothing: one more makes it an underscore
  have hcut {i k} {tail} (ht : IsTail k tail) : ∃ rest, (unitLabel i ++ tail ++ "_").toList =
        "__unit_".toList ++ ((decimal i).toList ++ '_' :: rest) := by
    rcases ht with ⟨rfl, -⟩ | ⟨stem, rfl⟩
    · exact ⟨[], by simp [unitLabel]⟩
    · exact ⟨stem.toList ++ '_' :: (decimal k).toList ++ ['_'], by simp [unitLabel]⟩
  obtain ⟨rest, hr⟩ := hcut (i := i) ht
  obtain ⟨rest', hr'⟩ := hcut ht'
  rw [h, hr'] at hr
  have hu : i' = i := by
    have hd := eq_of_append_cons_eq_left (underscore_notMem_decimal i')
      (underscore_notMem_decimal i) (append_cancel_left hr)
    exact decimal_injective (String.toList_inj.mp hd)
  subst hu
  have htail : tail = tail' := by
    have hc := congrArg String.toList h
    rw [String.toList_append, String.toList_append] at hc
    exact String.toList_inj.mp (append_cancel_left hc)
  exact ⟨rfl, ht.unique (htail ▸ ht')⟩

/-- The shapes of the labels of routines: those of top levels, blocks and singleton classes tell the unit
and the scope, and those of class bodies tell a number. -/
inductive Shape (o : RoutineOrigin) : Label.Role → Prop
  | inUnit (tail : String) (htail : IsTail o.scope tail) (hlabel : o.label = unitLabel o.unit ++ tail) :
    Shape o .unit
  | method (hlabel : o.node?.bind Node.methodLabel? = some o.label) : Shape o .method
  | classBody (k : Nat) (cls : String) (hk : o.node?.bind Node.siteNumber? = some (k : Int))
    (hlabel : o.label = "__classbody_" ++ cls ++ "_" ++ decimal k) : Shape o .body

lemma shape_top (i : Nat) : Shape ⟨i, 0, none⟩ .unit :=
  .inUnit "" (.inl ⟨rfl, rfl⟩) String.append_empty.symm

lemma exists_shape (i k : Nat) {n : Node} (hb : n.body?.isSome) (hn : n.IsResolved) :
    ∃ ρ, Shape ⟨i, k, some n⟩ ρ := by
  obtain ⟨tag, span, id, children⟩ := n
  cases tag with
  | lambda =>
    exact ⟨_, .inUnit _ (.inr ⟨"block", rfl⟩) (by simp [label, Node.scopeLabel, String.append_assoc])⟩
  | singletonClass =>
    exact ⟨_, .inUnit _ (.inr ⟨"sclass", rfl⟩) (by simp [label, Node.scopeLabel, String.append_assoc])⟩
  | method | singletonMethod => exact ⟨_, .method rfl⟩
  | classBody =>
    obtain ⟨number, hnum⟩ := hn.site rfl
    refine ⟨_, .classBody number ((Node.child ⟨.classBody, span, id, children⟩ 0).name?.getD "") ?_ ?_⟩
    · simp only [Option.bind_some, Node.siteNumber?]
      rw [hnum]
    · simp only [label, Node.scopeLabel, Closure.classBodyLabel]
      rw [hnum]
  | _ => cases hb

end RoutineOrigin

lemma role_unitLabel (i : Nat) (tail : String) : role (unitLabel i ++ tail) = .unit := by
  rw [unitLabel, String.append_assoc, role_append (by decide)]
  decide

lemma role_classBody (cls rest : String) : role ("__classbody_" ++ cls ++ "_" ++ rest) = .body := by
  rw [String.append_assoc, String.append_assoc, role_append (by decide)]
  decide

/-! ### The routines of a program -/

section

variable {us : List UnitTree}

lemma UnitTree.map_snd_numbered (us : List UnitTree) : (numbered us).map Prod.snd = us :=
  ext_getElem (by simp [numbered]) (by simp [numbered])

variable (hus : ∀ u ∈ us, u.tree.IsResolved)
include hus

theorem perm_definers :
    ((origins us).filterMap RoutineOrigin.node?).Perm ((us.map tree).flatMap definers) := by
  have ho : (origins us).filterMap RoutineOrigin.node? =
      us.flatMap fun u => u.tree.openers := by
    rw [UnitTree.origins, filterMap_flatMap]
    simp only [filterMap_node?_origins]
    rw [← flatMap_map (g := fun u : UnitTree => u.tree.openers) Prod.snd, map_snd_numbered]
  rw [ho, flatMap_map]
  exact List.Perm.flatMap_left us fun u hu => openers_perm (hus u hu)

lemma filterMap_origins_perm {α : Type} (f : Node → Option α) :
    ((origins us).filterMap fun o => o.node?.bind f).Perm
      ((us.map tree).flatMap fun e => e.definers.filterMap f) := by
  rw [← filterMap_flatMap, ← filterMap_filterMap]
  exact (perm_definers hus).filterMap f

lemma exists_shape_of_mem (ho : o ∈ origins us) : ∃ ρ, o.Shape ρ := by
  obtain ⟨q, hq, ho⟩ := mem_flatMap.mp ho
  have he := hus q.2 (mem_of_mem_numbered hq)
  rcases mem_cons.mp ho with rfl | ho
  · exact ⟨_, RoutineOrigin.shape_top q.1⟩
  · obtain ⟨k, hk, rfl⟩ := mem_mapIdx.mp ho
    have hd := (openers_perm he).subset (getElem_mem hk)
    obtain ⟨hsub, hb⟩ := mem_filter.mp hd
    obtain ⟨t, ht, hn⟩ := mem_filterMap.mp hsub
    exact RoutineOrigin.exists_shape q.1 (1 + k) hb (he _ (tree_of_node? hn ▸ ht))

lemma role_of_shape
    (hr : ∀ label ∈ (us.map tree).flatMap methodLabels, role label = .method)
    (ho : o ∈ origins us) {ρ : Label.Role} (h : o.Shape ρ) :
    role o.label = ρ := by
  cases h with
  | inUnit tail _ hlabel => rw [hlabel, role_unitLabel]
  | method hlabel =>
    exact hr _ ((filterMap_origins_perm hus _).subset (mem_filterMap.mpr ⟨o, ho, hlabel⟩))
  | classBody k cls _ hlabel => rw [hlabel, role_classBody]

omit hus in
lemma nodup_places (us : List UnitTree) :
    (origins us).Pairwise fun o o' => ¬(o.unit = o'.unit ∧ o.scope = o'.scope) := by
  refine pairwise_flatMap.mpr ⟨fun q _ => ?_, ?_⟩
  · have hscopes : ((q.2.tree.origins q.1).map RoutineOrigin.scope).Nodup := by
      rw [map_scope_origins]
      exact nodup_range
    exact (pairwise_map.mp hscopes).imp fun hne h => hne h.2
  · have hunits : ((numbered us).map Prod.fst).Nodup := by
      rw [map_fst_numbered]
      exact nodup_range
    refine (pairwise_map.mp hunits).imp fun hne o ho o' ho' h => hne ?_
    rw [← unit_eq_of_mem_origins ho, ← unit_eq_of_mem_origins ho', h.1]

/-- The routines of resolved units have labels of their own, if the methods do and the class bodies are
numbered apart. -/
lemma nodup_labels_origins (hm : ((us.map tree).flatMap methodLabels).Nodup)
    (hr : ∀ label ∈ (us.map tree).flatMap methodLabels, role label = .method)
    (hsit : ((us.map tree).flatMap siteNumbers).Nodup) :
    ((origins us).map RoutineOrigin.label).Nodup := by
  have hlab := pairwise_filterMap.mp ((filterMap_origins_perm hus _).nodup_iff.mpr hm)
  have hn := pairwise_filterMap.mp ((filterMap_origins_perm hus _).nodup_iff.mpr hsit)
  rw [List.Nodup, pairwise_map]
  refine ((nodup_places us).and (hlab.and hn)).imp_of_mem fun {o o'} ho ho' h heq => ?_
  obtain ⟨hp, hlabel, hnum⟩ := h
  obtain ⟨ρ, hs⟩ := exists_shape_of_mem hus ho
  obtain ⟨ρ', hs'⟩ := exists_shape_of_mem hus ho'
  obtain rfl : ρ = ρ' := by
    rw [← role_of_shape hus hr ho hs, ← role_of_shape hus hr ho' hs', heq]
  -- labels of one shape: each shape tells something that the two origins do not share
  cases hs with
  | inUnit tail ht hl =>
    cases hs' with
    | inUnit tail' ht' hl' =>
      exact hp (RoutineOrigin.eq_of_unitLabel_append ht ht' (hl.symm.trans (heq.trans hl')))
  | method hl =>
    cases hs' with
    | method hl' => exact hlabel _ hl _ hl' heq
  | classBody k cls hk hl =>
    cases hs' with
    | classBody k' cls' hk' hl' =>
      exact hnum _ hk _ hk' (congrArg _ (eq_of_append_number (hl.symm.trans (heq.trans hl'))))

end

section

variable {units : List SourceUnit} {trees lowered resolved : List UnitTree} {folding : Bool}
  {labels : LabelTable} {p : Program} {c r : Resolver} {groups : List (List Routine)}

lemma Resolver.role_methodBase (owner : Option ClassId) (number : Nat)
    (name rest : String) : role (c.methodBase owner number name ++ rest) = .method := by
  cases owner with
  | some id =>
    simp only [methodBase, method, String.append_assoc]
    rw [role_append (by decide)]
    decide
  | none =>
    simp only [methodBase, String.append_assoc]
    rw [role_append (by decide)]
    decide

lemma Resolver.Sound.role_of_owns (hc : c.Sound) {i : Nat} {label : String} (h : c.Owns i label) :
    role label = .method := by
  obtain ⟨j, site, hs, rfl⟩ := h
  obtain ⟨name, number, count, hent⟩ := hc.methods hs
  obtain ⟨rest, hr⟩ := numbered_eq_append (c.methodBase site.owner number name) count
  rw [hent.label_eq, hr, role_methodBase]

namespace Transformed

variable (h : Transformed units trees folding labels p lowered resolved c r groups)
include h

lemma isResolved : ∀ u ∈ resolved, u.tree.IsResolved := fun _ hu => h.made.1.resolved _ (mem_map_of_mem hu)

lemma forall₂_lift : List.Forall₂ (fun q rs => q.2.tree.IsResolved ∧
    liftRoutines (unitLabel q.1) q.2.tree q.2.nextId = .ok rs) (numbered resolved) groups :=
  forall₂_and_left _ _ |>.mpr ⟨fun q hq => h.isResolved q.2 (mem_of_mem_numbered hq),
    except_mapM_forall₂ h.lift⟩

theorem forall₂_groups :
    List.Forall₂ (fun q rs => List.Forall₂ (fun o r => r.label = o.label ∧ ∃ b, o.body? q.2.tree = some b ∧
        Closure.RoutineOf (Closure.analyse (unitLabel q.1) q.2.tree) (fun j s => rs[j]? = some s)
          o.scope b r) (q.2.tree.origins q.1) rs)
      (numbered resolved) groups := by
  refine h.forall₂_lift.imp fun q rs hq => ?_
  exact liftRoutines_forall₂_origins (hq.1.mono fun _ hn => hn.singleExit) hq.2

lemma map_label_routines :
    p.routines.map Routine.label = (UnitTree.origins resolved).map RoutineOrigin.label := by
  have hg : groups.map (map Routine.label) =
      (numbered resolved).map fun q => (q.2.tree.origins q.1).map RoutineOrigin.label := by
    rw [← forall₂_eq_eq_eq, forall₂_map_left_iff, forall₂_map_right_iff]
    refine h.forall₂_groups.flip.imp fun rs q hrs => ?_
    rw [← forall₂_eq_eq_eq, forall₂_map_left_iff, forall₂_map_right_iff]
    exact hrs.flip.imp fun _ _ ho => ho.1
  rw [h.program, map_flatten, hg, UnitTree.origins, map_flatMap]
  rfl

lemma role_methods :
    ∀ label ∈ (resolved.map tree).flatMap methodLabels, role label = .method := by
  intro label hl
  obtain ⟨i, -, ho⟩ := h.made.1.labels label hl
  exact h.sound.role_of_owns ho

theorem nodup_labels : (p.routines.map Routine.label).Nodup := by
  have hm := h.made.1
  rw [h.map_label_routines]
  exact nodup_labels_origins (h.isResolved) hm.nodup_labels (h.role_methods) hm.nodup_sites

end Transformed

end

end Garnet
