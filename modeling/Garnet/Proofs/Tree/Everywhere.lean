import Garnet.Tree.Basic
import Mathlib.Tactic.Lemma

/-!
# Predicates on all nodes of a tree

`Tree.Everywhere P e` says that each node of `e`, at any depth, satisfies `P`. It is taken apart and
put together along the children.
-/

namespace Garnet

variable {n : Node}

lemma Node.size_lt_of_mem {c : Tree} (h : c ∈ n.children) : c.size < n.tree.size := by
  have hle := Tree.size_le_of_mem h
  simp only [tree, Tree.size]
  omega

namespace Tree

variable {t : Tree}

lemma mem_subtreesOf {es : List Tree} : t ∈ subtreesOf es ↔ ∃ e ∈ es, t ∈ e.subtrees := by
  induction es with
  | nil => simp [subtreesOf]
  | cons e es ih => simp [subtreesOf, ih]

lemma mem_subtrees_self (e : Tree) : e ∈ e.subtrees := by cases e <;> simp [subtrees]

lemma mem_subtrees_node : t ∈ n.tree.subtrees ↔ t = n.tree ∨ ∃ c ∈ n.children, t ∈ c.subtrees := by
  simp [Node.tree, subtrees, mem_subtreesOf]

@[simp]
lemma node?_absent : absent.node? = none := by simp [node?]

@[simp]
lemma node?_name (v : String) : (name v).node? = none := by simp [node?]

@[simp]
lemma node?_int (k : Int) : (int k).node? = none := by simp [node?]

@[simp]
lemma node?_sym (s : String) : (sym s).node? = none := by simp [node?]

@[simp]
lemma node?_str (bytes : Bytes) : (str bytes).node? = none := by simp [node?]

lemma tree_of_node? {e : Tree} (h : e.node? = some n) : n.tree = e := by
  cases e <;> cases h
  rfl

lemma size_lt_of_mem_children {c e : Tree} (h : c ∈ e.children) : c.size < e.size := by
  cases e with
  | node tag span id children => exact Node.size_lt_of_mem (n := ⟨tag, span, id, children⟩) h
  | _ => cases h

lemma induction_on_nodes {P : Tree → Prop} (leaf : ∀ e : Tree, e.node? = none → P e)
    (node : ∀ n : Node, (∀ c ∈ n.children, P c) → P n.tree) (e : Tree) : P e := by
  induction h : e.size using Nat.strongRecOn generalizing e with
  | ind k ih =>
    cases e with
    | node tag span id children =>
      refine node ⟨tag, span, id, children⟩ fun c hc => ih c.size ?_ c rfl
      rw [← h]
      exact Node.size_lt_of_mem (n := ⟨tag, span, id, children⟩) hc
    | _ => exact leaf _ rfl

/-- Each node of the tree satisfies the predicate. -/
def Everywhere (P : Node → Prop) (e : Tree) : Prop := ∀ n : Node, n.tree ∈ e.subtrees → P n

variable {P Q : Node → Prop} {e : Tree}

lemma everywhere_node : n.tree.Everywhere P ↔ P n ∧ ∀ c ∈ n.children, c.Everywhere P := by
  constructor
  · intro h
    refine ⟨h n (mem_subtrees_self _), fun c hc m hm => h m ?_⟩
    exact mem_subtrees_node.mpr (.inr ⟨c, hc, hm⟩)
  · rintro ⟨hn, hc⟩ m hm
    rcases mem_subtrees_node.mp hm with heq | ⟨c, hmem, hsub⟩
    · obtain ⟨tag, span, id, children⟩ := n
      obtain ⟨tag', span', id', children'⟩ := m
      simp only [Node.tree, Tree.node.injEq] at heq
      obtain ⟨rfl, rfl, rfl, rfl⟩ := heq
      exact hn
    · exact hc c hmem m hsub

@[simp]
lemma everywhere_of_node? (h : e.node? = none) : e.Everywhere P := by
  intro n hn
  cases e with
  | node tag span id children => cases h
  | _ => simp [subtrees, Node.tree] at hn

lemma Everywhere.mono (h : e.Everywhere P) (hPQ : ∀ n, P n → Q n) : e.Everywhere Q :=
  fun n hn => hPQ n (h n hn)

lemma Everywhere.children (h : e.Everywhere P) : ∀ c ∈ e.children, c.Everywhere P := by
  cases e with
  | node tag span id children => exact (everywhere_node (n := ⟨tag, span, id, children⟩).mp h).2
  | _ => exact fun c hc => by cases hc

lemma Everywhere.child (h : n.tree.Everywhere P) (i : Nat) : (n.child i).Everywhere P := by
  rw [Node.child]
  cases hc : n.children[i]? with
  | none => exact everywhere_of_node? rfl
  | some c => exact (everywhere_node.mp h).2 c (List.mem_of_getElem? hc)

end Tree

end Garnet
