import Garnet.Proofs.Lowering.Lowered
import Garnet.Storage.Resolve

/-!
# Instance variables of a unit

`Tree.uses` lists the instance variables that a unit reads and writes where the instances of a class hold
them, in their order and with the class; `Tree.fields` lists the words of `self` that a resolved unit
reads and writes. Both follow the places at which names are resolved, `Node.places`.
-/

namespace Garnet

variable {e : Tree}

open List Garnet.Tree

/-- A tree, and the class whose instances hold the instance variables there, if there is one. -/
abbrev Spot := Option ClassId × Tree

/-- The trees of spots without what counts for nothing. -/
noncomputable def prunedOf (es : List Spot) : List Tree := es.map fun p => p.2.prune

@[simp]
lemma prunedOf_nil : prunedOf [] = [] := rfl

@[simp]
lemma prunedOf_cons (p : Spot) (es : List Spot) : prunedOf (p :: es) = p.2.prune :: prunedOf es := rfl

@[simp]
lemma prunedOf_append (es es' : List Spot) : prunedOf (es ++ es') = prunedOf es ++ prunedOf es' :=
  map_append

def VarName.isInstance (name : String) : Bool := startsWithAt name && !isClassVariable name

lemma VarName.isInstance_iff {name : String} : isInstance name ↔ isConstant name = false ∧
    (isGlobal name || isClassVariable name) = false ∧ startsWithAt name := by
  have hat : startsWithAt name → isConstant name = false ∧ isGlobal name = false := by
    intro h
    rw [isConstant, isGlobal, beq_iff_eq.mp h]
    exact ⟨rfl, rfl⟩
  rw [isInstance, Bool.and_eq_true, Bool.not_eq_true', Bool.or_eq_false_iff]
  exact ⟨fun h => ⟨(hat h.1).1, ⟨(hat h.1).2, h.2⟩, h.1⟩, fun h => ⟨h.2.2, h.2.1.2⟩⟩

/-- The class whose instances hold the instance variables at a place. -/
def Context.home (ctx : Context) : Option ClassId := match ctx.instanceVars with
  | .field id => some id
  | _ => none

namespace Resolver

/-- A class, if it is no module and no metaclass and not one of the run-time library. -/
def instanceClass? (u : Resolver) (owner : Option ClassId) : Option ClassId :=
  owner.filter fun id => (u.classes.info id).kind = .ordinary && !(u.classes.info id).builtin

/-- The class that node `i` of the unit at hand defines an instance method of. -/
def fieldsOf? (u : Resolver) (i : Nat) : Option ClassId :=
  u.methodSites[(⟨u.unit, i⟩ : SiteKey)]?.bind fun site => u.instanceClass? site.owner

/-- The word of an instance that holds a variable. -/
def word? (u : Resolver) (p : ClassId × String) : Option Int :=
  (u.classes.variableOffset? p.1 p.2).map Int.ofNat

lemma home_methodContext (u : Resolver) (ctx : Context) (name : String) (owner : Option ClassId)
    (params : Tree) : (u.methodContext ctx name owner params).home = u.instanceClass? owner := by
  cases owner with
  | none => rfl
  | some id =>
    simp only [Context.home, methodContext, methodVariables, instanceClass?, Option.filter_some]
    cases (u.classes.info id).kind <;> cases (u.classes.info id).owner <;>
      cases (u.classes.info id).builtin <;> rfl

end Resolver

/-! ### Where names are resolved -/

namespace Node

/-- The places of the children in which names are resolved, with the classes that hold the instance
variables there. -/
def places (u : Resolver) (home : Option ClassId) (n : Node) : List (Option ClassId × Nat) :=
  let all (home : Nat → Option ClassId) := (range n.children.length).map fun i => (home i, i)
  match n.tag with
  | .classBody => [(none, 2)]
  | .moduleBody => [(none, 1)]
  | .singletonClass => [(home, 0), (none, 1)]
  | .method => [(u.fieldsOf? n.id, 2)]
  | .singletonMethod =>
    let onObject := u.methodSites[(⟨u.unit, n.id⟩ : SiteKey)]?.any (·.install = .onObject)
    (if onObject then [(home, 0)] else []) ++ [(u.fieldsOf? n.id, 3)]
  | .assign => (if (n.child 0).name?.isSome then [(home, 0)] else []) ++ [(home, 1)]
  | .lambda => [(home, 1)]
  | .super => [(home, 0), (home, 1)]
  | .implicitSuper => [(home, 0)]
  | .inclusion | .aliasing | .path | .topPath | .defined => []
  | .call => if n.directive?.isSome then [] else all fun i => if i = 0 then none else home
  | .send | .safeSend => all fun i => if i = 1 then none else home
  | _ => all fun _ => home

def visits (u : Resolver) (home : Option ClassId) (n : Node) : List Spot :=
  (n.places u home).map fun p => (p.1, n.child p.2)

lemma visits_all (n : Node) (home : Nat → Option ClassId) :
    ((range n.children.length).map fun i => (home i, i)).map (fun p => (p.1, n.child p.2)) =
      (n.children.mapIdx fun i c => (i, c)).map fun p => (home p.1, p.2) := by
  refine ext_getElem (by simp) fun i hi hi' => ?_
  simp only [length_map, length_mapIdx] at hi'
  simp [child, hi']

end Node

/-- The instance variables that a tree reads and writes where instances of a class hold them. -/
def Tree.uses (u : Resolver) (home : Option ClassId) : Tree → List (ClassId × String)
  | .name v => if VarName.isInstance v then home.toList.map fun id => (id, v) else []
  | .node tag span id children =>
    let n : Node := ⟨tag, span, id, children⟩
    (n.places u home).flatMap fun p => uses u p.1 (n.child p.2)
  | _ => []
termination_by e => e.size
decreasing_by exact Node.size_child_lt ⟨tag, span, id, children⟩ p.2

/-- The word of `self` that a node of a resolved tree stands for. -/
def Node.field? (n : Node) : Option Int := match n.tag, n.children with
  | .index, [.name "self", .int k] => some k
  | _, _ => none

/-- The words of `self` that a resolved tree reads and writes. -/
def Tree.fields (e : Tree) : List Int := (e.subtrees.filterMap node?).filterMap Node.field?

namespace Tree

variable {u : Resolver} {home : Option ClassId}

lemma subtreesOf_eq_flatMap (es : List Tree) : subtreesOf es = es.flatMap subtrees := by
  induction es with
  | nil => rfl
  | cons e es ih => rw [subtreesOf, ih, flatMap_cons]

variable {n : Node}

lemma nodes_subtrees : n.tree.subtrees.filterMap node? =
    n :: n.children.flatMap fun c => c.subtrees.filterMap node? := by
  rw [Node.tree, subtrees, subtreesOf_eq_flatMap, filterMap_cons, filterMap_flatMap]
  rfl

lemma uses_tree : n.tree.uses u home = (n.visits u home).flatMap fun p => p.2.uses u p.1 := by
  rw [Node.tree, uses, Node.visits, flatMap_map]

lemma fields_tree : n.tree.fields = n.field?.toList ++ n.children.flatMap fields := by
  rw [fields, nodes_subtrees, filterMap_cons, filterMap_flatMap]
  cases n.field? <;> rfl

lemma fields_of_ne (h : n.tag ≠ .index) : n.tree.fields = n.children.flatMap fields := by
  have hn : n.field? = none := by
    unfold Node.field?
    split
    · exact absurd ‹_› h
    · rfl
  rw [fields_tree, hn, Option.toList_none, nil_append]

@[simp]
lemma fields_of_node? (h : e.node? = none) : e.fields = [] := by
  cases e with
  | node tag span id children => cases h
  | _ => rfl

end Tree

namespace Node

variable {u : Resolver} {home : Option ClassId} {n : Node}

lemma map_snd_places (n : Node) (home : Option ClassId) :
    (n.places u home).map Prod.snd = (n.places u none).map Prod.snd := by
  obtain ⟨tag, span, id, children⟩ := n
  cases tag with
  | singletonMethod | assign | call => simp only [places]; split <;> simp [Function.comp_def]
  | _ => simp [places, Function.comp_def]

lemma nodup_places : ((n.places u home).map Prod.snd).Nodup := by
  obtain ⟨tag, span, id, children⟩ := n
  cases tag with
  | singletonMethod | assign | call =>
    simp only [places]
    split <;> simp [Function.comp_def, nodup_range]
  | _ => simp [places, Function.comp_def, nodup_range]

end Node

/-! ### What is reached -/

/-- The nodes that are reached through the children that `parts` gives satisfy `P`. -/
inductive Tree.Through (parts : Node → List Tree) (P : Node → Prop) : Tree → Prop
  | leaf {e : Tree} (h : e.node? = none) : Through parts P e
  | node {n : Node} (h : P n) (hparts : ∀ c ∈ parts n, Through parts P c) : Through parts P n.tree

lemma Tree.through_tree {parts : Node → List Tree} {P : Node → Prop} {n : Node}
    (h : n.tree.Through parts P) : P n ∧ ∀ c ∈ parts n, c.Through parts P := by
  generalize he : n.tree = e at h
  cases h with
  | leaf hleaf =>
    subst he
    cases hleaf
  | @node m hm hparts =>
    obtain rfl : n = m := by
      obtain ⟨tag, span, id, children⟩ := n
      obtain ⟨tag', span', id', children'⟩ := m
      simpa [Node.tree] using he
    exact ⟨hm, hparts⟩

/-- What can be assigned to when names are resolved. -/
def Tree.isPlace : Tree → Bool
  | .name _ => true
  | e => e.is .path || e.is .topPath

def Tree.isChain : Tree → Bool
  | .name _ => true
  | .node .topPath _ _ [.name _] => true
  | .node .path _ _ [scope, .name _] => scope.isChain
  | _ => false

namespace Node

variable {u : Resolver} {home : Option ClassId} {n : Node} {c : Tree}

/-- The children in which definitions and variables are looked for. -/
def shown (n : Node) : List Tree := match n.tag with
  | .classBody => [n.child 2]
  | .moduleBody => [n.child 1]
  | .singletonClass => [n.child 0, n.child 1]
  | .method => [n.child 2]
  | .singletonMethod => [n.child 0, n.child 3]
  | .inclusion | .aliasing | .defined => []
  | .call => if n.directive?.isSome then [] else n.children.tail
  | .assign => (if (n.child 0).isConstantPath then [] else [n.child 0]) ++ [n.child 1]
  | _ => n.children

lemma exists_shown (n : Node) : ∃ ks : List Nat, ks.Nodup ∧ n.shown = ks.map n.child := by
  have hall := n.map_child_range rfl
  obtain ⟨tag, span, id, children⟩ := n
  cases tag with
  | classBody | method => exact ⟨[2], by simp, rfl⟩
  | moduleBody => exact ⟨[1], by simp, rfl⟩
  | singletonClass => exact ⟨[0, 1], by simp, rfl⟩
  | singletonMethod => exact ⟨[0, 3], by simp, rfl⟩
  | inclusion | aliasing | defined => exact ⟨[], by simp, rfl⟩
  | call =>
    simp only [shown]
    split
    · exact ⟨[], by simp, rfl⟩
    · exact ⟨(range children.length).tail, nodup_range.sublist (tail_sublist _), by rw [map_tail, hall]⟩
  | assign =>
    simp only [shown]
    split
    · exact ⟨[1], by simp, rfl⟩
    · exact ⟨[0, 1], by simp, rfl⟩
  | _ => exact ⟨range children.length, nodup_range, hall.symm⟩

def reached (u : Resolver) (n : Node) : List Tree := (n.visits u none).map Prod.snd

lemma map_snd_visits (n : Node) (home : Option ClassId) : (n.visits u home).map Prod.snd = n.reached u := by
  have h := congrArg (map n.child) (n.map_snd_places (u := u) home)
  simpa [reached, visits, Function.comp_def] using h

lemma mem_reached (h : c ∈ n.reached u) : c ∈ n.children ∨ c.node? = none := by
  simp only [reached, visits, map_map, mem_map, Function.comp_apply] at h
  obtain ⟨p, -, rfl⟩ := h
  rw [child]
  cases hk : n.children[p.2]? with
  | none => exact .inr rfl
  | some c => exact .inl (mem_of_getElem? hk)

end Node

/-- What is assigned to can be, and a path is one of names. -/
def Node.IsPlaced (n : Node) : Prop :=
  (n.tag = .assign → (n.child 0).isPlace) ∧ (n.tag = .path → n.tree.isChain)

lemma Node.isPlaced_of_ne {n : Node} (h : n.tag ≠ .assign ∧ n.tag ≠ .path) : n.IsPlaced :=
  ⟨fun heq => absurd heq h.1, fun heq => absurd heq h.2⟩

def Storage.Known (u : Resolver) (e : Tree) : Prop := e.Through Node.shown fun n =>
    n.tag.isClass → (u.classSites[(⟨u.unit, n.id⟩ : SiteKey)]?).isSome

/-- Whatever is assigned to in a tree can be, and all paths are paths of names. -/
def Storage.Stored (u : Resolver) (e : Tree) : Prop := e.Through (Node.reached u) Node.IsPlaced

/-! ### Lowered nodes -/

section

variable {u : Resolver} {home : Option ClassId} {n : Node} (hn : n.tree.IsLowered) (hopen : n.tag.isOpen)
include hn hopen

lemma Tree.IsLowered.exists_name {k : Nat} (hk : n.tag.namePlace? = some k) : ∃ v, n.child k = .name v := by
  obtain ⟨v, hv⟩ := Option.isSome_iff_exists.mp (Node.isSome_name?_of_isFormed hn.pruned.1.formed hk)
  rw [Node.name?, Node.child_pruned hopen] at hv
  rw [prune_of_node? (node?_of_prune (node?_of_name? hv))] at hv
  cases hc : n.child k with
  | name v => exact ⟨v, rfl⟩
  | _ =>
    rw [hc] at hv
    cases hv

lemma Tree.IsLowered.length_children {k : Nat} (hk : n.tag.arity? = some k) : n.children.length = k := by
  have hlen := Node.length_of_isFormed hn.pruned.1.formed hk
  rwa [Node.children_pruned hopen, length_map] at hlen

omit hopen in
/-- Where names are resolved, definitions and variables were looked for before, or there are none. -/
lemma Node.mem_shown {p : Spot} (hp : p ∈ n.visits u home) :
    p.2 ∈ n.shown ∧ (n.tag.isDefinition = false → p.1 = home) ∨ p.2.node? = none ∧ p.2.uses u p.1 = [] := by
  have hname {k} (hopen : n.tag.isOpen) (hk : n.tag.namePlace? = some k) :
      (n.child k).node? = none ∧ (n.child k).uses u none = [] := by
    obtain ⟨v, hv⟩ := hn.exists_name hopen hk
    simp [hv, Tree.uses]
  have hchild k : n.child k ∈ n.children ∨ (n.child k).node? = none ∧ (n.child k).uses u home = [] := by
    rw [Node.child]
    cases hk : n.children[k]? with
    | none => exact .inr (by simp [Tree.uses])
    | some c => exact .inl (mem_of_getElem? hk)
  obtain ⟨⟨home', k⟩, hk, rfl⟩ := mem_map.mp hp
  have hall (hdef : n.tag.isDefinition = false) (hshown : n.shown = n.children) (hhome : home' = home) :
      n.child k ∈ n.shown ∧ (n.tag.isDefinition = false → home' = home) ∨
        (n.child k).node? = none ∧ (n.child k).uses u home' = [] := by
    subst hhome
    rw [hshown]
    exact (hchild k).imp_left fun hmem => ⟨hmem, fun _ => rfl⟩
  obtain ⟨tag, span, id, children⟩ := n
  cases tag with
  | classBody | moduleBody | method =>
    cases mem_singleton.mp hk
    exact .inl (by simp [Node.shown, Tag.isDefinition])
  | singletonClass =>
    simp only [Node.places, mem_cons, not_mem_nil, or_false] at hk
    rcases hk with ⟨-, rfl⟩ | ⟨-, rfl⟩ <;> exact .inl (by simp [Node.shown, Tag.isDefinition])
  | singletonMethod =>
    rcases mem_append.mp hk with hk | hk
    · split at hk
      · cases mem_singleton.mp hk
        exact .inl (by simp [Node.shown])
      · cases hk
    · cases mem_singleton.mp hk
      exact .inl (by simp [Node.shown, Tag.isDefinition])
  | inclusion | aliasing | path | topPath | defined => simp [Node.places] at hk
  | assign =>
    rcases mem_append.mp hk with hk | hk
    · split at hk
      · rename_i hsome
        cases mem_singleton.mp hk
        obtain ⟨v, hv⟩ := Option.isSome_iff_exists.mp hsome
        -- a constant is no instance variable
        cases hc : (Node.mk .assign span id children).child 0 with
        | name w =>
          cases hconst : VarName.isConstant w with
          | true =>
            have hinst : VarName.isInstance w = false := by
              rw [Bool.eq_false_iff]
              exact fun h => by simp [(VarName.isInstance_iff.mp h).1] at hconst
            exact .inr (by simp [Tree.uses, hinst])
          | false => exact .inl (by simp [Node.shown, hc, isConstantPath, hconst])
        | _ =>
          rw [hc] at hv
          cases hv
      · cases hk
    · cases mem_singleton.mp hk
      exact .inl (by simp [Node.shown])
  | call =>
    simp only [Node.places] at hk
    split at hk
    · cases hk
    · rename_i hdirective
      obtain ⟨i, hi, heq⟩ := mem_map.mp hk
      obtain ⟨rfl, rfl⟩ := Prod.mk.inj heq
      cases i with
      | zero => exact .inr (hname rfl rfl)
      | succ i =>
        refine .inl ⟨?_, fun _ => rfl⟩
        rw [mem_range] at hi
        simp only [Node.shown, if_neg hdirective, Node.child, getElem?_eq_getElem hi]
        cases children with
        | nil => cases hi
        | cons c cs => exact getElem_mem (Nat.lt_of_succ_lt_succ hi)
  | send | safeSend =>
    obtain ⟨i, -, heq⟩ := mem_map.mp hk
    obtain ⟨rfl, rfl⟩ := Prod.mk.inj heq
    by_cases h : i = 1
    · subst h
      exact .inr (hname rfl rfl)
    · exact hall rfl rfl (if_neg h)
  | lambda | implicitSuper => exact hall rfl rfl (Prod.mk.inj (mem_singleton.mp hk)).1
  | super =>
    simp only [Node.places, mem_cons, not_mem_nil, or_false, Prod.mk.injEq] at hk
    exact hall rfl rfl (hk.elim And.left And.left)
  | _ =>
    refine hall rfl rfl ?_
    obtain ⟨i, -, heq⟩ := mem_map.mp hk
    exact (Prod.mk.inj heq).1.symm

omit hopen in
lemma Storage.Known.reached (h : Known u n.tree) {c : Tree} (hc : c ∈ n.reached u) : Known u c := by
  obtain ⟨p, hp, rfl⟩ := mem_map.mp hc
  rcases Node.mem_shown hn hp with ⟨hmem, -⟩ | ⟨hleaf, -⟩
  · exact (through_tree h).2 _ hmem
  · exact .leaf hleaf

omit hn in
/-- The children at different places and the node itself are different parts of what counts. -/
lemma copiesIn_map_prune_child_add {ks : List Nat} (h : ks.Nodup) (i : Nat) :
    (copiesIn i ((ks.map n.child).map prune) + if n.tag.isDefinition && n.id == i then 1 else 0) ≤
      n.tree.prune.copies i := by
  have hmap : (ks.map n.child).map prune = ks.map n.pruned.child := by
    rw [map_map]
    exact map_congr_left fun k _ => (Node.child_pruned hopen k).symm
  have hle := copiesIn_map_child i n.pruned h
  have hown : n.tree.prune.copies i = copiesIn i n.pruned.children +
      if n.tag.isDefinition && n.id == i then 1 else 0 := by
    rw [← n.tree_pruned, Node.tree]
    rfl
  rw [hmap]
  omega

end

/-- What is visited of a node counts at most as much as the node, and the node itself counts too. -/
lemma copiesIn_visits_add {u : Resolver} {n : Node} (hn : n.tree.IsLowered) (home : Option ClassId)
    (i : Nat) :
    (copiesIn i (prunedOf (n.visits u home)) + if n.tag.isDefinition && n.id == i then 1 else 0) ≤
      n.tree.prune.copies i := by
  have hp : prunedOf (n.visits u home) = (((n.places u home).map Prod.snd).map n.child).map prune := by
    simp [prunedOf, Node.visits]
  cases hopen : n.tag.isOpen with
  | true =>
    rw [hp]
    exact copiesIn_map_prune_child_add hopen Node.nodup_places i
  | false =>
    obtain ⟨tag, span, id, children⟩ := n
    cases tag with
    | assign =>
      obtain ⟨target, value, rfl, -, -⟩ := hn.assign rfl
      rw [hp, Node.tree, prune_assign]
      cases target <;> simp [Node.places, Node.child, Tree.name?, copies]
    | defined => simp [Node.visits, Node.places, Tag.isDefinition]
    | _ => cases hopen

lemma isChain_of_constantPath {r : Resolver} {ctx : Context} {around : Span} {c : ConstRef}
    (he : e.IsLowered) (h : r.constantPath ctx around e = .ok c) : e.isChain := by
  fun_induction Resolver.constantPath r ctx around e generalizing c with
  | case1 => rfl
  | case2 around span id children =>
    obtain ⟨v, hv⟩ := he.exists_name (n := ⟨.topPath, span, id, children⟩) rfl rfl
    obtain ⟨e, rfl⟩ := length_eq_one_iff.mp (he.length_children (n := ⟨.topPath, span, id, children⟩) rfl rfl)
    cases hv
    rfl
  | case3 around span id scope rest ih =>
    obtain ⟨v, hv⟩ := he.exists_name (n := ⟨.path, span, id, scope :: rest⟩) rfl rfl
    obtain ⟨_, e, heq⟩ := length_eq_two.mp
      (he.length_children (n := ⟨.path, span, id, scope :: rest⟩) rfl rfl)
    cases heq
    cases hv
    obtain ⟨c', hc', -⟩ := except_bind_eq_ok.mp h
    exact ih (he.child (n := ⟨.path, span, id, [scope, .name v]⟩) rfl 0) hc'
  | case4 => cases h
  | case5 => cases h

end Garnet
