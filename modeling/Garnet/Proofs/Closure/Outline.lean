import Garnet.Proofs.Tree.Everywhere
import Garnet.Tree.Recursion
import Mathlib.Data.List.Forall2

/-!
# The scopes of a tree

Which trees belong to the same scope can be read off a tree. Some children of a node belong to the
scope the node stands in (`Node.parts`), and a definition or a block opens a scope of its own with a
body (`Node.body?`). So a tree has names that its own scope uses (`Tree.ownNames`), nodes at which further
scopes are opened (`Tree.openers`), and bodies of these, in the same order (`Tree.bodies`).
-/

namespace Garnet

open List Node

variable {n : Node} {c b : Tree}

/-- The place of a child that is a method name or a label. -/
def Tag.calleePlace? : Tag → Option Nat
  | .call | .super => some 0
  | .send | .safeSend => some 1
  | _ => none

namespace Node

/-- The children that belong to the scope the node stands in. -/
def parts (n : Node) : List Tree := match n.tag.calleePlace? with
  | some i => n.children.eraseIdx i
  | none =>
    match n.tag with
    | .lambda | .method | .classBody | .const => []
    | .singletonMethod | .singletonClass => [n.child 0]
    | .loop | .doLoop => [n.child 0, n.child 1]
    | _ => n.children

def body? (n : Node) : Option Tree := match n.tag with
  | .lambda | .singletonClass => some (n.child 1)
  | .method | .singletonMethod => some (n.child 4)
  | .classBody => some (n.child 2)
  | _ => none

/-- The body, or nothing if the node opens no scope. -/
def body (n : Node) : Tree := n.body?.getD .absent

lemma exists_child_of_mem (h : c ∈ n.children) : ∃ k, n.child k = c := by
  obtain ⟨k, hk⟩ := getElem?_of_mem h
  exact ⟨k, by rw [child, hk]; rfl⟩

lemma exists_child_of_part (h : c ∈ n.parts) : ∃ k, n.child k = c := by
  rw [parts] at h
  split at h
  · exact exists_child_of_mem (mem_of_mem_eraseIdx h)
  · split at h
    iterate 4 cases h
    iterate 2 exact ⟨0, (mem_singleton.mp h).symm⟩
    iterate 2 rcases mem_pair.mp h with rfl | rfl <;> exact ⟨_, rfl⟩
    · exact exists_child_of_mem h

lemma exists_child_of_body (h : n.body? = some b) : ∃ k, n.child k = b := by
  rw [body?] at h
  split at h <;> cases h <;> exact ⟨_, rfl⟩

lemma size_part_lt (h : c ∈ n.parts) : c.size < n.tree.size := by
  obtain ⟨k, rfl⟩ := exists_child_of_part h
  exact n.size_child_lt k

lemma size_body_lt (h : n.body? = some b) : b.size < n.tree.size := by
  obtain ⟨k, rfl⟩ := exists_child_of_body h
  exact n.size_child_lt k

end Node

namespace Tree

variable {e : Tree} {P : Node → Prop}

lemma Everywhere.part (h : n.tree.Everywhere P) (hc : c ∈ n.parts) : c.Everywhere P := by
  obtain ⟨k, rfl⟩ := exists_child_of_part hc
  exact h.child k

lemma Everywhere.body (h : n.tree.Everywhere P) (hb : n.body? = some b) : b.Everywhere P := by
  obtain ⟨k, rfl⟩ := exists_child_of_body hb
  exact h.child k

/-- The names in a tree that are reached through the children that `parts` gives. -/
def namesThrough (parts : Node → List Tree) : Tree → List String := recurseOn (m := Id) size fun rec e =>
    match e.node? with
    | some n => (parts n).flatMap rec
    | none => e.name?.toList

def ownNames : Tree → List String := namesThrough parts

/-- The bodies of the scopes that are opened in a tree, in order. -/
def bodies : Tree → List Tree := recurseOn (m := Id) size fun rec e =>
    match e.node? with
    | some n => n.parts.flatMap rec ++ n.body?.toList.flatMap fun b => b :: rec b
    | none => []

lemma namesThrough_tree {parts : Node → List Tree} (h : ∀ c ∈ parts n, c.size < n.tree.size) :
    n.tree.namesThrough parts = (parts n).flatMap (namesThrough parts) := by
  rw [namesThrough, recurseOn_eq]
  exact flatMap_congr fun c hc => if_pos (h c hc)

lemma namesThrough_of_node? (parts : Node → List Tree) (h : e.node? = none) :
    e.namesThrough parts = e.name?.toList := by
  rw [namesThrough, recurseOn_eq, h]

lemma ownNames_tree : n.tree.ownNames = n.parts.flatMap ownNames :=
  namesThrough_tree fun _ => size_part_lt

/-- Recursion on a size reaches the parts and the body of a node. -/
lemma flatMap_guarded (n : Node) (f : Tree → List α) (other : List α) (head : Tree → α) :
    let inner := fun b => if b.size < n.tree.size then f b else other
    n.parts.flatMap inner ++ n.body?.toList.flatMap (fun b => head b :: inner b) =
      n.parts.flatMap f ++ n.body?.toList.flatMap fun b => head b :: f b := by
  refine congrArg₂ (fun a b : List α => a ++ b) ?_ ?_
  · exact flatMap_congr fun c hc => if_pos (size_part_lt hc)
  · refine flatMap_congr fun b hb => congrArg _ ?_
    exact if_pos (size_body_lt (Option.mem_toList.mp hb))

lemma bodies_tree (n : Node) :
    n.tree.bodies = n.parts.flatMap bodies ++ n.body?.toList.flatMap fun b => b :: b.bodies := by
  rw [bodies, recurseOn_eq]
  exact flatMap_guarded n _ _ id

lemma ownNames_of_node? (h : e.node? = none) : e.ownNames = e.name?.toList :=
  namesThrough_of_node? parts h

lemma bodies_of_node? (h : e.node? = none) : e.bodies = [] := by rw [bodies, recurseOn_eq, h]

/-- The nodes at which scopes are opened in a tree, in order. -/
def openers : Tree → List Node := recurseOn (m := Id) size fun rec e =>
    match e.node? with
    | some n => n.parts.flatMap rec ++ n.body?.toList.flatMap fun b => n :: rec b
    | none => []

lemma openers_tree :
    n.tree.openers = n.parts.flatMap openers ++ n.body?.toList.flatMap fun b => n :: b.openers := by
  rw [openers, recurseOn_eq]
  exact flatMap_guarded n _ _ fun _ => n

lemma openers_of_node? (h : e.node? = none) : e.openers = [] := by rw [openers, recurseOn_eq, h]

lemma forall₂_openers_bodies (e : Tree) :
    List.Forall₂ (fun (n : Node) b => n.body? = some b) e.openers e.bodies := by
  induction hs : e.size using Nat.strongRecOn generalizing e with
  | ind k ih =>
    cases hn : e.node? with
    | none =>
      rw [openers_of_node? hn, bodies_of_node? hn]
      exact .nil
    | some n =>
      cases tree_of_node? hn
      have hp : ∀ cs ⊆ n.parts, List.Forall₂ (fun (n : Node) b => n.body? = some b)
          (cs.flatMap openers) (cs.flatMap bodies) := by
        intro cs
        induction cs with
        | nil => exact fun _ => .nil
        | cons c cs ihcs =>
          intro hcs
          rw [cons_subset] at hcs
          exact rel_append (ih _ (hs ▸ size_part_lt hcs.1) c rfl) (ihcs hcs.2)
      rw [openers_tree, bodies_tree]
      refine rel_append (hp _ (List.Subset.refl _)) ?_
      cases hb : n.body? with
      | none => exact .nil
      | some b =>
        simp only [Option.toList_some, flatMap_singleton]
        exact .cons hb (ih _ (hs ▸ size_body_lt hb) b rfl)

lemma map_body_openers (e : Tree) : e.openers.map body = e.bodies := by
  have h := forall₂_map_left_iff.mpr ((forall₂_openers_bodies e).imp fun n b hb => show n.body = b by
    rw [body, hb, Option.getD_some])
  rwa [forall₂_eq_eq_eq] at h

end Tree

end Garnet
