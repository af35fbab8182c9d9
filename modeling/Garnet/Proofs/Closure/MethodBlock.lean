import Garnet.Proofs.Closure.Capture
import Garnet.Proofs.Tree.Building

/-!
# The block of a method

A `yield` becomes a call on the block of the method around it, which is named like any variable. So it finds
that block as long as no block in between has a parameter of the same name (`yield_uses_method_block`).
-/

namespace Garnet

variable {n : Node}

/-! ### Naming the block -/

/-- The name of the block of a method with these parameters. -/
def Node.blockName (params : Tree) : String := (Yield.blockParam? params).getD Yield.methodBlock

/-- The name of the block that a `yield` in the children of the node calls, where `block` is the one
around the node. -/
def Node.blockInside (n : Node) (block : Option String) : Option String := match n.tag with
  | .method => some (blockName (n.child 1))
  | .singletonMethod => some (blockName (n.child 2))
  | .classBody | .moduleBody | .singletonClass => none
  | _ => block

/-- A tree in a method whose block has the name `block`, and the tree in which `yield` and
`block_given?` name it. -/
inductive Yielded : Option String → Tree → Tree → Prop where
  | leaf {block} {e : Tree} (hnode : e.node? = none) : Yielded block e e
  | call {b} {n : Node} {args id} (htag : n.tag = .yield)
    (hargs : Yielded (some b) (n.child 0) args) :
    Yielded (some b) n.tree (.node .send n.span id [.name b, .name "call", args, .absent])
  | given {b} {n : Node} {id} (htag : n.tag = .call) (hasks : Yield.asksForBlock n) :
    Yielded (some b) n.tree (.node .cond n.span id [.name b, .bool true, .bool false])
  | notGiven {n : Node} (htag : n.tag = .call) (hasks : Yield.asksForBlock n) :
    Yielded none n.tree (.bool false)
  | node {block} {n : Node} {cs : List Tree} (htag : n.tag ≠ .yield)
    (hasks : n.tag = .call → Yield.asksForBlock n = false)
    (hlen : cs.length = n.children.length)
    (hcs : ∀ (j : Nat) c c', n.children[j]? = some c → cs[j]? = some c' →
      Yielded (n.blockInside block) c c') :
    Yielded block n.tree (n.rebuild cs)

lemma yielded_step {rec : Option String → Tree → Pass Tree}
    (hrec : ∀ block, ∀ c : Tree, c.size < n.tree.size → Carries (Yielded block) c (rec block c))
    (block : Option String) : Carries (Yielded block) n.tree (Yield.step rec block n.tree) := by
  have hmap {inside : Option String} (hy : n.tag ≠ .yield)
      (hasks : n.tag = .call → Yield.asksForBlock n = false) (hins : n.blockInside block = inside) :
      Carries (Yielded block) n.tree (n.mapChildren (rec inside)) := by
    intro s e s' h
    obtain ⟨cs, hcs, rfl⟩ := mapChildren_eq_ok h
    have hall := mapM_forall₂ hcs fun c hc => hrec inside c (Node.size_lt_of_mem hc)
    refine .node hy hasks hall.length_eq.symm fun j c c' hc hc' => ?_
    obtain ⟨hj, rfl⟩ := List.getElem?_eq_some_iff.mp hc
    obtain ⟨hj', rfl⟩ := List.getElem?_eq_some_iff.mp hc'
    exact hins ▸ hall.get hj hj'
  unfold Yield.step
  rw [show n.tree.node? = some n from rfl]
  simp only
  split
  iterate 2
    rename_i htag
    exact hmap (by simp [htag]) (by simp [htag]) (by simp [Node.blockInside, htag, Node.blockName])
  iterate 3
    rename_i htag
    exact hmap (by simp [htag]) (by simp [htag]) (by simp [Node.blockInside, htag])
  · rename_i htag
    split
    · exact fun _ _ _ h => absurd h throw_ne_ok
    · intro s e s' h
      obtain ⟨args, t, hargs, h⟩ := bind_eq_ok.mp h
      cases h
      exact .call htag (hrec _ _ (n.size_child_lt 0) hargs)
  · rename_i htag
    split
    · rename_i hasks
      split
      · intro s e s' h
        cases h
        exact .given htag hasks
      · intro s e s' h
        cases h
        exact .notGiven htag hasks
    · rename_i hasks
      exact hmap (by simp [htag]) (fun _ => by simpa using hasks) (by simp [Node.blockInside, htag])
  · rename_i hmethod hs hcla hmod hm hy hca
    refine hmap hy (fun h => absurd h hca) ?_
    unfold Node.blockInside
    split <;> first | contradiction | rfl

lemma yielded_lowerYields {e e' : Tree} {s s' : Nat} (h : lowerYields e s = .ok e' s') :
    Yielded none e e' := by
  suffices hall : ∀ block, Carries (Yielded block) e (Tree.recurse Yield.step block e) from
    hall none h
  clear h
  induction hs : e.size using Nat.strongRecOn generalizing e with
  | ind size ih =>
    intro block
    rw [Tree.recurse_eq]
    cases hnode : e.node? with
    | none =>
      intro s e' s' h
      simp only [Yield.step, hnode] at h
      cases h
      exact .leaf hnode
    | some n =>
      cases Tree.tree_of_node? hnode
      refine yielded_step (fun inside c hc => ?_) block
      rw [if_pos hc]
      exact ih _ (hs ▸ hc) rfl inside

/-! ### Finding the block -/

namespace Closure

open Scopes

/-- The scopes from `i` up to scope `m` but not `m` have no parameter of the name. -/
def Scopes.Unhidden (ss : Scopes) (i m : Nat) (v : String) : Prop :=
  ∀ j, ss.Within i j → ss.Within j m → j ≠ m → (ss.get j).isParam v = false

variable {ss : Scopes} {i m : Nat} {v : String}

/-- A parameter that no scope in between hides belongs to its scope. -/
lemma Scopes.Settled.owner?_of_isParam (h : ss.Settled) (hw : ss.Within i m)
    (hv : (ss.get m).isParam v) (hfree : ss.Unhidden i m v) : ss.owner? i v = some m := by
  have ho : (ss.get m).owns v := by rw [Scope.owns, hv, Bool.true_or]
  obtain ⟨j, a, hsea, hj, hij, hjm⟩ := searchOut_of_within
    (f := fun j s => if s.owns v then some j else none) h.nested hw (by simp [ho])
  split at hj
  · rename_i hown
    cases hj
    by_cases hne : j = m
    · rwa [← hne]
    · -- a variable that the scope declares has no owner outwards
      have hparam := hfree j hij hjm hne
      rw [Scope.owns, hparam, Bool.false_or, List.contains_iff_mem, h.declared] at hown
      cases hjm with
      | refl => exact absurd rfl hne
      | step houter hp =>
        rename_i p
        obtain ⟨k, a, hs, -, -, -⟩ := searchOut_of_within
          (f := fun j s => if s.owns v then some j else none) h.nested hp (by simp [ho])
        have hn := hown.2.2 p houter
        rw [owner?, hs] at hn
        cases hn
  · cases hj

lemma Lifted.of_owner? {T : Nat → Routine → Prop} {p : Place} {e : Tree} (hlocal : VarName.isLocal v)
    (howner : ss.owner? p.scope v = some m) (h : Lifted ss T p (.name v) e) :
    (p.scope = m ∧ e = .name v ∧ v ∉ (ss.get m).captured) ∨
      ∃ (k : Nat) (path : Tree) (span : Span) (id : Nat), e = .node .index span id [path, .int (k + 2)] ∧
        (ss.get m).captured[k]? = some v ∧ Reaches ss p.scope path m := by
  generalize ht : Tree.name v = t at h
  cases h with
  | literal hnode hname =>
    subst ht
    rw [hname v rfl] at hlocal
    cases hlocal
  | bare ho' hc =>
    cases ht
    cases ho'.symm.trans howner
    exact .inl ⟨rfl, rfl, hc⟩
  | word ho' hword hpath =>
    cases ht
    cases ho'.symm.trans howner
    exact .inr ⟨_, _, _, _, rfl, hword, hpath⟩
  | _ => cases ht

/-- **`yield` calls the block of the method around it**, unless a block in between has a parameter of
the same name. Every `yield` and `block_given?` names the block parameter of the method it stands in,
at any depth of blocks. In the routine of the method that name stands for the parameter itself or for
its word of the heap frame; in a block inside, it becomes the word at a path to the heap frame of the
method. -/
theorem yield_uses_method_block (unit : String) :
    (∀ {e e' : Tree} {s s' : Nat}, lowerYields e s = .ok e' s' → Yielded none e e') ∧
    ∀ {e : Tree}, e.Everywhere Node.SingleExit → ∀ nextId,
      ∃ rs, liftRoutines unit e nextId = .ok rs ∧ ∀ i r, rs[i]? = some r →
        ∃ body q, e.scopeBodies[i]? = some body ∧
          Lifted (analyse unit e) (fun j q => rs[j]? = some q) ⟨i, 0⟩ body r.body ∧
          rs[(analyse unit e).methodOf i]? = some q ∧ q.kind ≠ .block ∧
          (VarName.isLocal q.blockParam →
            (∀ j t, rs[j]? = some t → (analyse unit e).Within i j → j ≠ (analyse unit e).methodOf i →
              q.blockParam ∉ t.params ∧ t.rest ≠ some q.blockParam ∧ q.blockParam ≠ t.blockParam) →
            ∀ p e', p.scope = i →
              Lifted (analyse unit e) (fun j q => rs[j]? = some q) p (.name q.blockParam) e' →
              (i = (analyse unit e).methodOf i ∧ e' = .name q.blockParam ∧ q.blockParam ∉ q.env.getD []) ∨
              ∃ (k : Nat) (path : Tree) (span : Span) (id : Nat),
                e' = .node .index span id [path, .int (k + 2)] ∧
                q.envSlot? q.blockParam = some (k + 2) ∧
                Reaches (analyse unit e) i path ((analyse unit e).methodOf i)) := by
  refine ⟨yielded_lowerYields, fun {e} he nextId => ?_⟩
  obtain ⟨rs, hrs, hlen, hof⟩ := liftRoutines_spec unit he nextId
  have hsettled := (settled_analyse unit he).1
  refine ⟨rs, hrs, fun i r hr => ?_⟩
  obtain ⟨body, hbody, hroutine⟩ := hof i r hr
  obtain ⟨hw, houter⟩ := within_methodOf hsettled.nested i
  have hi : i < rs.length := (List.getElem?_eq_some_iff.mp hr).1
  have hm : (analyse unit e).methodOf i < rs.length := Nat.lt_of_le_of_lt (hsettled.nested.le_of_within hw) hi
  have hq := List.getElem?_eq_getElem hm
  generalize rs[(analyse unit e).methodOf i] = q at hq
  obtain ⟨_, -, hmethod⟩ := hof _ q hq
  have hparam : ((analyse unit e).get ((analyse unit e).methodOf i)).isParam q.blockParam := by
    rw [isParam_iff _ q.body, ← hmethod.eq]
    exact .inr (.inr rfl)
  have hblock : q.blockParam = ((analyse unit e).get ((analyse unit e).methodOf i)).blockParam :=
    congrArg Routine.blockParam hmethod.eq
  refine ⟨body, q, hbody, hroutine.body, hq, fun hkind => ?_, fun hlocal hfree p e' hp hlifted => ?_⟩
  · have hk : q.kind = ((analyse unit e).get ((analyse unit e).methodOf i)).kind :=
      congrArg Routine.kind hmethod.eq
    rw [hk] at hkind
    rcases hsettled.nested ((analyse unit e).methodOf i) with ⟨-, p, -, hp⟩ | ⟨hne, -⟩
    · rw [Scope.outer?, if_pos hkind, hp] at houter
      cases houter
    · exact hne hkind
  · have hunhidden : (analyse unit e).Unhidden i ((analyse unit e).methodOf i) q.blockParam := by
      intro j hij hjm hne
      have hj : j < rs.length := Nat.lt_of_le_of_lt (hsettled.nested.le_of_within hij) hi
      obtain ⟨_, -, ht⟩ := hof j _ (List.getElem?_eq_getElem hj)
      obtain ⟨hparams, hrest, hown⟩ := hfree j _ (List.getElem?_eq_getElem hj) hij hne
      rw [Bool.eq_false_iff]
      intro hhides
      rw [isParam_iff j rs[j].body, ← ht.eq] at hhides
      tauto
    have howner := hsettled.owner?_of_isParam hw hparam hunhidden
    rw [← hp] at howner
    rcases hlifted.of_owner? hlocal howner with ⟨hsame, he', hnot⟩ | ⟨k, path, span, id, he', hk, hpath⟩
    · refine .inl ⟨hp ▸ hsame, he', ?_⟩
      rw [hmethod.eq, getD_env _ _ hsettled, ← hp]
      rw [hblock, ← hp] at hnot
      exact hnot
    · refine .inr ⟨k, path, span, id, he', ?_, hp ▸ hpath⟩
      have hslot := envSlot?_routine unit he ((analyse unit e).methodOf i) q.body q.blockParam k
      rw [← hmethod.eq] at hslot
      rw [hp] at hk
      exact hslot.mpr hk

/-- A method with the block parameter `b`, which calls it from a block with the given parameter. -/
def callsFromBlock (param : String) : Tree :=
  .node .seq .zero 0 [.node .method .zero 1 [.name "m", .name "__method_Object_m", .name "static",
    .node .args .zero 2 [.node .blockArg .zero 3 [.name "b"]],
    .node .call .zero 4 [.name "each", .node .args .zero 5 [],
      .node .lambda .zero 6 [.node .args .zero 7 [.name param],
        .node .send .zero 8 [.name "b", .name "call", .node .args .zero 9 [], .absent]]]]]

lemma callsFromBlock_singleExit (param : String) : (callsFromBlock param).Everywhere Node.SingleExit := by
  rintro ⟨tag, span, id, cs⟩ hn htag
  simp only [callsFromBlock, Tree.subtrees, Tree.subtreesOf, Node.tree] at hn
  rcases htag with rfl | rfl | rfl
  all_goals simp at hn

theorem yield_uses_method_block_nested :
    ∃ rs q, liftRoutines "__unit_0" (callsFromBlock "x") 10 = .ok rs ∧ rs[1]? = some q ∧ q.blockParam = "b" ∧
      ∀ e', Lifted (analyse "__unit_0" (callsFromBlock "x")) (fun j q => rs[j]? = some q) ⟨2, 0⟩
        (.name "b") e' → ∃ (k : Nat) (path : Tree) (span : Span) (id : Nat),
          e' = .node .index span id [path, .int (k + 2)] ∧ q.envSlot? "b" = some (k + 2) ∧
          Reaches (analyse "__unit_0" (callsFromBlock "x")) 2 path 1 := by
  have he := callsFromBlock_singleExit "x"
  obtain ⟨rs, hrs, hlen, hof⟩ := liftRoutines_spec "__unit_0" he 10
  obtain ⟨rs', hrs', h⟩ := (yield_uses_method_block "__unit_0").2 he 10
  obtain rfl : rs = rs' := Except.ok.inj (hrs.symm.trans hrs')
  have hthree : rs.length = 3 := hlen.trans (by decide +kernel)
  have hmethod : (analyse "__unit_0" (callsFromBlock "x")).methodOf 2 = 1 := by decide +kernel
  obtain ⟨body, q, -, -, hq, -, hfind⟩ := h 2 rs[2] (List.getElem?_eq_getElem (by omega))
  rw [hmethod] at hq hfind
  obtain ⟨_, -, hroutine⟩ := hof 1 q hq
  have hscope : ((analyse "__unit_0" (callsFromBlock "x")).get 1).blockParam = "b" := by
    decide +kernel
  have hname : q.blockParam = "b" := (congrArg Routine.blockParam hroutine.eq).trans hscope
  have hfree (j : Nat) (t : Routine) (ht : rs[j]? = some t)
      (hj : (analyse "__unit_0" (callsFromBlock "x")).Within 2 j) (hne : j ≠ 1) :
      "b" ∉ t.params ∧ t.rest ≠ some "b" ∧ "b" ≠ t.blockParam := by
    obtain rfl : j = 2 := by
      cases hj with
      | refl => rfl
      | step houter hp =>
        have hone : ((analyse "__unit_0" (callsFromBlock "x")).get 2).outer? = some 1 := by
          decide +kernel
        have htop : ((analyse "__unit_0" (callsFromBlock "x")).get 1).outer? = none := by
          decide +kernel
        cases hone.symm.trans houter
        cases hp with
        | refl => exact absurd rfl hne
        | step houter' _ => cases htop.symm.trans houter'
    have hparam : ((analyse "__unit_0" (callsFromBlock "x")).get 2).isParam "b" = false := by
      decide +kernel
    obtain ⟨_, -, hinner⟩ := hof 2 t ht
    rw [Bool.eq_false_iff, ne_eq, isParam_iff 2 t.body, ← hinner.eq] at hparam
    tauto
  rw [hname] at hfind
  refine ⟨rs, q, hrs, hq, hname, fun e' he' => ?_⟩
  rcases hfind (by decide) hfree ⟨2, 0⟩ e' rfl he' with ⟨heq, -⟩ | hword
  · cases heq
  · exact hword

/-- A block with a parameter of the same name hides the block of the method. -/
theorem yield_hidden_by_parameter : (analyse "__unit_0" (callsFromBlock "b")).methodOf 2 = 1 ∧
      ((analyse "__unit_0" (callsFromBlock "b")).get 1).blockParam = "b" ∧
      (analyse "__unit_0" (callsFromBlock "b")).owner? 2 "b" = some 2 := by
  decide +kernel

end Closure

end Garnet
