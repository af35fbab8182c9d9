import Garnet.Proofs.Closure.Rules

/-!
# Lifting a unit

The scopes of a unit are its top level and those opened in it, so they are in line with the bodies
`Tree.scopeBodies`, and so are the routines. `liftRoutines_spec` says this of any unit whose ways out
have one value at most: lifting it succeeds, and each routine is what lifting makes of its body.
-/

namespace Garnet

open List

/-- The bodies of the scopes of a unit, in the order of the scopes. -/
def Tree.scopeBodies (e : Tree) : List Tree := e :: e.bodies

namespace Closure

/-! ### Sorting routines by their scopes -/

/-- If each scope has one routine, sorting puts it at the place of its scope. -/
lemma getElem?_sorted {α : Type} {l : List (Nat × α)} {m : Nat}
    (h : (l.map Prod.fst).Perm (range m)) (i : Nat) (a : α) :
    ((l.mergeSort fun a b => a.1 ≤ b.1).map Prod.snd)[i]? = some a ↔ (i, a) ∈ l := by
  have hs : (l.mergeSort fun a b => a.1 ≤ b.1).map Prod.fst = range m := by
    have hp : (l.mergeSort fun a b => a.1 ≤ b.1).Pairwise fun a b => decide (a.1 ≤ b.1) :=
      pairwise_mergeSort (by simpa using fun _ _ _ _ _ _ => Nat.le_trans) (by simp [Nat.le_total]) l
    have hfst : ((l.mergeSort fun a b => a.1 ≤ b.1).map Prod.fst).Pairwise (· ≤ ·) :=
      pairwise_map.mpr (hp.imp of_decide_eq_true)
    exact List.Perm.eq_of_pairwise (fun a b _ _ => Nat.le_antisymm) hfst pairwise_le_range
      (((mergeSort_perm l _).map Prod.fst).trans h)
  have hmem : (i, a) ∈ l ↔ (i, a) ∈ l.mergeSort fun a b => a.1 ≤ b.1 := (mergeSort_perm l _).mem_iff.symm
  rw [hmem]
  generalize (l.mergeSort fun a b => a.1 ≤ b.1) = sorted at hs ⊢
  have hfst (j : Nat) (q : Nat × α) (hq : sorted[j]? = some q) : q.1 = j := by
    have hj : (sorted.map Prod.fst)[j]? = some q.1 := by rw [getElem?_map, hq, Option.map_some]
    rw [hs] at hj
    obtain ⟨hlt, hget⟩ := List.getElem?_eq_some_iff.mp hj
    rwa [getElem_range, eq_comm] at hget
  constructor
  · intro hi
    rw [getElem?_map, Option.map_eq_some_iff] at hi
    obtain ⟨q, hq, rfl⟩ := hi
    have hqi := hfst i q hq
    exact hqi ▸ mem_of_getElem? hq
  · intro hi
    obtain ⟨j, hj⟩ := mem_iff_getElem?.mp hi
    have hji : i = j := hfst j (i, a) hj
    rw [getElem?_map, hji, hj, Option.map_some]

/-! ### The scopes of a unit -/

lemma Scopes.nested_empty : Scopes.Nested #[] := fun _ => .inr ⟨nofun, rfl⟩

lemma Scopes.settled_empty : Scopes.Settled #[] :=
  (settled_settle nested_empty fun _ => ⟨rfl, rfl⟩).1

/-- The scope of the top level of a unit when it is opened. -/
def mainScope (unit : String) (e : Tree) : Scope :=
  { kind := .main, label := unit, parent := none, strict := false, blockParam := Yield.methodBlock,
    params := [], rest := none, span := e.spanOr .zero }

/-- The state in which the first walk goes over a unit. -/
def opening (unit : String) (e : Tree) : Found := { scopes := #[mainScope unit e] }

def walkedScopes (unit : String) (e : Tree) : Scopes :=
  ((Tree.recurse (walkStep unit) ⟨0, 0⟩ e).run (opening unit e)).2.scopes

lemma analyse_eq (unit : String) (e : Tree) : analyse unit e = (walkedScopes unit e).settle := rfl

lemma nested_opening (unit : String) (e : Tree) : (opening unit e).scopes.Nested := by
  intro i
  have hget : (opening unit e).scopes.get i = if i = 0 then mainScope unit e else default :=
    Scopes.get_push #[] (mainScope unit e) i
  rw [hget]
  split
  · exact .inr ⟨nofun, rfl⟩
  · exact .inr ⟨nofun, rfl⟩

section

variable (unit : String) {e : Tree} (he : e.Everywhere Node.SingleExit)
include he

lemma walks_opening : Walks unit 0 e.openers e.ownNames (opening unit e)
    ((Tree.recurse (walkStep unit) ⟨0, 0⟩ e).run (opening unit e)).2 :=
  -- what the first walk does depends on no scopes and no table
  (inStep_recurse (T := fun _ _ => True) Scopes.settled_empty he ⟨0, 0⟩ .zero (opening unit e)
    (Nat.zero_lt_one) (nested_opening unit e)).1

lemma walked_scopeBodies : Walked 0 e.scopeBodies [] #[] (walkedScopes unit e) := by
  rw [Tree.scopeBodies, ← Tree.map_body_openers]
  exact Walked.opened (a := #[]) (show (mainScope unit e).opened = _ from rfl) (walks_opening unit he).toWalked

lemma settled_analyse : (analyse unit e).Settled ∧ (walkedScopes unit e).Grows (analyse unit e) ∧
    (analyse unit e).size = e.scopeBodies.length ∧
    ∀ i body, e.scopeBodies[i]? = some body → ∀ v, VarName.isLocal v →
      (v ∈ ((analyse unit e).get i).mentioned ↔ v ∈ body.ownNames) ∧
      (v ∈ ((analyse unit e).get i).assigned → v ∈ body.ownNames) := by
  have hw := walked_scopeBodies unit he
  obtain ⟨hs, hg, hsi, hm⟩ :=
    Scopes.settled_settle hw.nested (hw.untreated fun j => ⟨rfl, rfl⟩)
  refine ⟨hs, hg, ?_, fun i body hb v hl => ?_⟩
  · rw [analyse_eq, hsi, hw.size]
    exact Nat.zero_add _
  · have hinn := hw.inner i body hb v
    rw [show Array.size #[] + i = i from Nat.zero_add i, and_iff_left hl] at hinn
    rw [analyse_eq, (hm i).1, (hm i).2, hinn]
    refine ⟨Iff.rfl, fun hv => ?_⟩
    rcases hw.assigned i v hv hl with hv | hv
    · cases hv
    · exact hinn.mp hv

lemma isOf_analyse {k : Nat} {n : Node} (hn : e.openers[k]? = some n) :
    ∃ outer, ((analyse unit e).get (1 + k)).IsOf unit (1 + k) outer n := by
  obtain ⟨outer, ho⟩ := (walks_opening unit he).opens k n hn
  refine ⟨outer, ho.of_opened ((settled_analyse unit he).2.1.get _ ?_).opened⟩
  rw [(walked_scopeBodies unit he).size, Tree.scopeBodies, ← Tree.map_body_openers, length_cons, length_map]
  have hlt := (List.getElem?_eq_some_iff.mp hn).1
  change 1 + k < 0 + _
  omega

lemma liftScope_main (T : Nat → Routine → Prop) (nextId : Nat) :
    ∃ s, liftScope (analyse unit e) (Tree.recurse (liftStep (analyse unit e))) 0 e { nextId } =
        .ok () s ∧ s.nextScope = e.scopeBodies.length ∧
      (s.routines.map Prod.fst).Perm (range e.scopeBodies.length) ∧
      ((∀ q ∈ s.routines, T q.1 q.2) → ∀ q ∈ s.routines,
        ∃ body, e.scopeBodies[q.1]? = some body ∧ RoutineOf (analyse unit e) T q.1 body q.2) := by
  obtain ⟨hs, hg, -, -⟩ := settled_analyse unit he
  have hl : Lifts (analyse unit e) T 1 e.bodies
      (Tree.recurse (liftStep (analyse unit e)) (⟨0, 0⟩, .zero) e)
      (Lifted (analyse unit e) T ⟨0, 0⟩ e) :=
    Tree.map_body_openers e ▸ (inStep_recurse hs he ⟨0, 0⟩ .zero (opening unit e) Nat.zero_lt_one
      (nested_opening unit e)).2 hg
  -- the top level is lifted as if it was taken as scope 0
  obtain ⟨e', s, new, hrun, hn, hr, hp, hnew⟩ :=
    Lifts.scope (n := 0) (k := fun _ => pure .nil) (Q := fun _ => True) hl
      (fun s => ⟨.nil, s, rfl, ⟨rfl, rfl⟩, fun _ _ => trivial⟩) { nextId, nextScope := 0 } rfl
  obtain ⟨i, s₁, ht, hrun⟩ := bind_eq_ok.mp hrun
  cases ht
  obtain ⟨u, s₂, hsco, hrun⟩ := bind_eq_ok.mp hrun
  cases hrun
  rw [append_nil] at hr
  subst hr
  refine ⟨s, hsco, hn.trans (Nat.zero_add _), ?_, fun hT q hq => (hnew hT).2 q hq⟩
  rwa [range_eq_range']

theorem liftRoutines_spec (nextId : Nat) :
    ∃ rs, liftRoutines unit e nextId = .ok rs ∧ rs.length = e.scopeBodies.length ∧
      ∀ i r, rs[i]? = some r → ∃ body, e.scopeBodies[i]? = some body ∧
        RoutineOf (analyse unit e) (fun j q => rs[j]? = some q) i body r := by
  obtain ⟨s, hrun, -, hp, -⟩ := liftScope_main unit he (fun _ _ => True) nextId
  have hget := getElem?_sorted hp
  refine ⟨(s.routines.mergeSort fun a b => a.1 ≤ b.1).map Prod.snd, ?_, ?_, fun i r hr => ?_⟩
  · rw [liftRoutines, hrun]
  · rw [length_map, length_mergeSort, ← length_map Prod.fst, hp.length_eq, length_range]
  · -- the table is known now, so the routines can be said to be in it
    obtain ⟨s', hrun', -, -, hof⟩ := liftScope_main unit he
      (fun j q => ((s.routines.mergeSort fun a b => a.1 ≤ b.1).map Prod.snd)[j]? = some q) nextId
    cases hrun.symm.trans hrun'
    exact hof (fun q hq => (hget q.1 q.2).mpr hq) (i, r) ((hget i r).mp hr)

end

end Closure

end Garnet
