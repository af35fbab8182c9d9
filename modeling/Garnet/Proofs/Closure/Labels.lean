import Garnet.Proofs.Closure.Unit
import Garnet.Proofs.Storage.Resolved

/-!
# The labels of routines

The scopes of a unit are opened at the nodes `Tree.openers`, each under the label of its node
(`Node.scopeLabel`). So lifting a unit makes the routine of its top level and one routine for each of
these nodes (`liftRoutines_labels`). In a tree whose names are resolved these are all the nodes that open
a scope.
-/

namespace Garnet

open List

variable {e : Tree}

lemma Tree.openers_perm (h : e.IsResolved) : e.openers.Perm e.definers := by
  induction hs : e.size using Nat.strongRecOn generalizing e with
  | ind k ih =>
    cases hno : e.node? with
    | none => rw [openers_of_node? hno, definers_of_node? hno]
    | some n =>
      cases tree_of_node? hno
      have hn := (everywhere_node.mp h).1
      have hpa : ∀ c ∈ n.parts, c.openers.Perm c.definers := fun c hc =>
        ih _ (hs ▸ Node.size_part_lt hc) (h.part hc) rfl
      have hbo : ∀ b ∈ n.body?, b.openers.Perm b.definers := fun b hb =>
        ih _ (hs ▸ Node.size_body_lt hb) (h.body hb) rfl
      rw [openers_tree, definers_tree]
      refine .trans ?_ (hn.covered.symm.append_left _)
      rw [flatMap_append]
      have hp : (n.parts.flatMap openers).Perm (n.parts.flatMap definers) :=
        List.Perm.flatMap_left _ hpa
      cases hb : n.body? with
      | none => simpa using hp
      | some b =>
        simp only [Option.toList_some, flatMap_singleton, Option.isSome_some, if_true]
        exact (hp.append ((hbo b hb).cons n)).trans perm_middle

theorem Closure.liftRoutines_labels {unit : String} {nextId : Nat} {rs : List Routine}
    (he : e.Everywhere Node.SingleExit) (h : liftRoutines unit e nextId = .ok rs) :
    rs.map Routine.label = unit :: e.openers.mapIdx fun k n => n.scopeLabel unit (1 + k) := by
  obtain ⟨rs', hrs, hlen, hof⟩ := liftRoutines_spec unit he nextId
  obtain rfl : rs' = rs := Except.ok.inj (hrs.symm.trans h)
  have hm : ((analyse unit e).get 0).label = unit := by
    have hg := (walks_opening unit he).grows.trans (settled_analyse unit he).2.1
    exact (congrArg Scope.label (hg.get 0 Nat.zero_lt_one).opened :)
  rw [Tree.scopeBodies, ← Tree.map_body_openers, length_cons, length_map] at hlen
  refine ext_getElem? fun i => ?_
  rw [getElem?_map]
  cases hr : rs'[i]? with
  | none =>
    rw [getElem?_eq_none_iff, hlen] at hr
    rw [getElem?_eq_none (by simpa using hr)]
    rfl
  | some r =>
    obtain ⟨body, -, hof⟩ := hof i r hr
    rw [Option.map_some, ← hof.label_eq]
    cases i with
    | zero => rw [hm, getElem?_cons_zero]
    | succ k =>
      have hk : k < e.openers.length := by
        have hlt := (List.getElem?_eq_some_iff.mp hr).1
        omega
      obtain ⟨outer, ho⟩ := isOf_analyse unit he (getElem?_eq_getElem hk)
      rw [getElem?_cons_succ, getElem?_mapIdx, getElem?_eq_getElem hk, Option.map_some, Nat.add_comm k 1, ho.label]

end Garnet
