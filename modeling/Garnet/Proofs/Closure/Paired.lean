import Garnet.Proofs.Closure.Capture

/-!
# The two walks see the same scopes and loops

The scopes that the first walk opens are taken by the second one in the same order, each for the node that it
was opened for, and none is left over. Neither walk depends on what its rule does with a tree at another place
than the one where the tree stands (`Stands`), so both see a way out inside the loops that are around it in
its scope, and no others. This is `walks_paired`.
-/

namespace Garnet

open List Node

namespace Closure

/-- If `e` stands at the place `p`, `d` stands at the place `q` in it. The loops around `d` within its scope
count; the scopes that are opened on the way may have any numbers. -/
inductive Stands : Place → Tree → Place → Tree → Prop where
  | refl (p : Place) (e : Tree) : Stands p e p e
  | part {p q} {n : Node} {c d} (htag : n.tag ≠ .loop ∧ n.tag ≠ .doLoop)
    (hc : c ∈ n.parts ∨ c = .absent) (h : Stands p c q d) : Stands p n.tree q d
  | test {p q} {n : Node} {d} (htag : n.tag = .loop ∨ n.tag = .doLoop)
    (h : Stands p (n.child 0) q d) : Stands p n.tree q d
  | loop {p q : Place} {n : Node} {d : Tree} (htag : n.tag = .loop ∨ n.tag = .doLoop)
    (h : Stands p.inLoop (n.child 1) q d) : Stands p n.tree q d
  | body {p q} {n : Node} {b d} (i : Nat) (hb : n.body? = some b) (h : Stands ⟨i, 0⟩ b q d) :
    Stands p n.tree q d

variable {p q : Place} {e c d : Tree} {n : Node}

lemma Stands.trans {r : Place} (h : Stands p e q c) (h' : Stands q c r d) : Stands p e r d := by
  induction h with
  | refl => exact h'
  | part htag hc _ ih => exact .part htag hc (ih h')
  | test htag _ ih => exact .test htag (ih h')
  | loop htag _ ih => exact .loop htag (ih h')
  | body i hb _ ih => exact .body i hb (ih h')

/-- A walk whose rule goes on to trees where they stand depends on the rule at such places only. -/
lemma recurse_eq_of_stands {m : Type → Type} [Monad m] {κ β : Type} [Inhabited β] (place : κ → Place)
    (step : (κ → Tree → m β) → κ → Tree → m β) {step' : (κ → Tree → m β) → κ → Tree → m β}
    (hst : ∀ {rec rec' : κ → Tree → m β} k e, (∀ l c, Stands (place k) e (place l) c → c.size < e.size →
      rec l c = rec' l c) → step rec k e = step rec' k e)
    {k : κ} {e : Tree} (h : ∀ rec l c, Stands (place k) e (place l) c → step' rec l c = step rec l c) :
    Tree.recurse step' k e = Tree.recurse step k e := by
  -- the rule goes on to smaller trees, and whatever stands in one of them stands in `e`
  induction hs : e.size using Nat.strongRecOn generalizing k e with
  | ind size ih =>
    rw [Tree.recurse_eq, Tree.recurse_eq, h _ _ _ (.refl _ e)]
    refine hst k e fun l c hc hlt => ?_
    rw [if_pos hlt, if_pos hlt]
    exact ih c.size (hs ▸ hlt) (fun rec l' d hd => h rec l' d (hc.trans hd)) rfl

/-! ### Where the rules go on -/

/-- Two treatments of smaller trees agree on those in a tree, where they stand. -/
def AgreeBelow {α : Type} (p : Place) (e : Tree) (f g : Place → Tree → α) : Prop :=
  ∀ q c, Stands p e q c → c.size < e.size → f q c = g q c

namespace AgreeBelow

variable {α : Type} {f g : Place → Tree → α} (h : AgreeBelow p n.tree f g)
include h

lemma part (htag : n.tag ≠ .loop ∧ n.tag ≠ .doLoop) (hc : c ∈ n.parts) : f p c = g p c :=
  h p c (.part htag (.inl hc) (.refl p c)) (size_part_lt hc)

lemma body {b : Tree} (hb : n.body? = some b) (i : Nat) : f ⟨i, 0⟩ b = g ⟨i, 0⟩ b :=
  h _ b (.body i hb (.refl _ b)) (size_body_lt hb)

lemma block {m : Node} (htag : n.tag ≠ .loop ∧ n.tag ≠ .doLoop) (hm : m.tree ∈ n.parts) (hb : m.tag = .lambda)
    (i : Nat) : f ⟨i, 0⟩ (m.child 1) = g ⟨i, 0⟩ (m.child 1) := by
  have hbody : m.body? = some (m.child 1) := by rw [body?, hb]
  exact h _ _ (.part htag (.inl hm) (.body i hbody (.refl _ _)))
    (Nat.lt_trans (m.size_child_lt 1) (size_part_lt hm))

lemma value (htag : n.tag ≠ .loop ∧ n.tag ≠ .doLoop) (hn : n.parts = n.children) :
    f p (n.child 0) = g p (n.child 0) := by
  refine h p _ (.part htag ?_ (.refl p _)) (n.size_child_lt 0)
  rw [hn, child]
  cases hc : n.children[0]? with
  | none => exact .inr rfl
  | some c => exact .inl (mem_of_getElem? hc)

lemma loop (htag : n.tag = .loop ∨ n.tag = .doLoop) :
    f p (n.child 0) = g p (n.child 0) ∧
      f { p with loops := p.loops + 1 } (n.child 1) = g { p with loops := p.loops + 1 } (n.child 1) :=
  ⟨h _ _ (.test htag (.refl _ _)) (n.size_child_lt 0), h _ _ (.loop htag (.refl _ _)) (n.size_child_lt 1)⟩

end AgreeBelow

section

variable {unit : String} {f g : Place → Tree → Walk Unit} {es : List Tree} {skip i : Nat}

lemma walkBlock_congr (h : ∀ m ∈ e.node?, ∀ i, f ⟨i, 0⟩ (m.child 1) = g ⟨i, 0⟩ (m.child 1)) (strict : Bool) :
    walkBlock unit f p e strict = walkBlock unit g p e strict := by
  rw [walkBlock, walkBlock]
  cases hm : e.node? with
  | none => rfl
  | some m => simp only [h m hm]

lemma walkCall_congr (h : ∀ c ∈ others skip i es, f p c = g p c) (hb : ∀ m : Node, m.tree ∈ others skip i es →
    m.tag = .lambda → ∀ j, f ⟨j, 0⟩ (m.child 1) = g ⟨j, 0⟩ (m.child 1)) :
    walkCall unit f p n skip i es = walkCall unit g p n skip i es := by
  induction es generalizing i with
  | nil => rfl
  | cons e es ih =>
    rw [walkCall, walkCall]
    by_cases hi : i = skip
    · subst hi
      rw [others_cons_self] at h hb
      rw [bne_self_eq_false, ih h hb]
      rfl
    · rw [others_cons_of_ne hi] at h hb
      rw [ih (fun c hc => h c (mem_cons_of_mem _ hc)) fun m hm => hb m (mem_cons_of_mem _ hm), h e mem_cons_self]
      cases hl : e.is .lambda with
      | false => rw [Bool.and_false]; rfl
      | true =>
        have hm (m) (hm : m ∈ e.node?) : m.tag = .lambda := by cases e <;> cases hm; exact beq_iff_eq.mp hl
        rw [walkBlock_congr fun m hme => hb m (Tree.tree_of_node? hme ▸ mem_cons_self) (hm m hme)]

lemma walkStep_congr (h : AgreeBelow p e f g) : walkStep unit f p e = walkStep unit g p e := by
  cases e with
  | node tag s id children =>
    have h : AgreeBelow p (Node.mk tag s id children).tree f g := h
    cases tag with
    | loop | doLoop => simp only [walkStep, h.loop (by simp)]
    | lambda =>
      refine walkBlock_congr (e := .node .lambda s id children) (fun m hm => ?_) true
      cases hm
      exact h.body rfl
    | call | super | send | safeSend =>
      exact walkCall_congr (fun c hc => h.part (by simp) hc) fun m hm => h.block (by simp) hm
    | const => rfl
    | method => simp only [walkStep, walkMethod, h.body rfl]
    | classBody => simp only [walkStep, walkClass, h.body rfl]
    | singletonMethod =>
      simp only [walkStep, walkMethod, h.body rfl, h.part (by simp) (mem_singleton_self _)]
    | singletonClass =>
      simp only [walkStep, walkClass, h.body rfl, h.part (by simp) (mem_singleton_self _)]
    | _ =>
      have hall : children.forM (f p) = children.forM (g p) := forM_congr fun c hc => h.part (by simp) hc
      simp only [walkStep, hall]
  | _ => rfl

end

section

variable {ss : Scopes} {f g : Site → Tree → Lift Tree} {es : List Tree} {skip i : Nat} {span : Span}

lemma liftScope_congr {b : Tree} (h : f (⟨i, 0⟩, .zero) b = g (⟨i, 0⟩, .zero) b) :
    liftScope ss f i b = liftScope ss g i b := by rw [liftScope, liftScope, h]

lemma liftCall_congr (h : ∀ c ∈ others skip i es, f (p, span) c = g (p, span) c)
    (hb : ∀ m : Node, m.tree ∈ others skip i es → m.tag = .lambda → liftBlock ss f p m = liftBlock ss g p m) :
    liftCall ss f p span skip i es = liftCall ss g p span skip i es := by
  induction es generalizing i with
  | nil => rfl
  | cons e es ih =>
    rw [liftCall, liftCall]
    by_cases hi : i = skip
    · subst hi
      rw [others_cons_self] at h hb
      rw [if_pos rfl, if_pos rfl, ih h hb]
    · rw [others_cons_of_ne hi] at h hb
      rw [ih (fun c hc => h c (mem_cons_of_mem _ hc)) fun m hm => hb m (mem_cons_of_mem _ hm), h e mem_cons_self]
      cases hm : e.node? with
      | none => rfl
      | some m =>
        by_cases hl : m.tag = .lambda
        · simp only [hb m (Tree.tree_of_node? hm ▸ mem_cons_self) hl]
        · simp [hl]

lemma liftStep_congr (h : AgreeBelow p e (fun q c s => f (q, s) c) fun q c s => g (q, s) c) :
    liftStep ss f (p, span) e = liftStep ss g (p, span) e := by
  cases e with
  | node tag s id children =>
    have h : AgreeBelow p (Node.mk tag s id children).tree (fun q c s => f (q, s) c) fun q c s => g (q, s) c := h
    have hbody {b} (hb : (Node.mk tag s id children).body? = some b) (i) :
        liftScope ss f i b = liftScope ss g i b := liftScope_congr (congrFun (h.body hb i) .zero)
    cases tag with
    | loop | doLoop =>
      have hl := h.loop (by simp)
      simp only [liftStep, congrFun hl.1 s, congrFun hl.2 s]
    | lambda => simp only [liftStep, liftBlock, hbody rfl]
    | call | super | send | safeSend =>
      simp only [liftStep]
      rw [liftCall_congr (fun c hc => congrFun (h.part (by simp) hc) s) fun m hm hl => ?_]
      simp only [liftBlock, liftScope_congr (congrFun (h.block (by simp) hm hl _) .zero)]
    | const => rfl
    | method | classBody => simp only [liftStep, hbody rfl]
    | singletonMethod | singletonClass =>
      simp only [liftStep, hbody rfl, congrFun (h.part (by simp) (mem_singleton_self _)) s]
    | ret => simp only [liftStep, liftReturn, congrFun (h.value (by simp) rfl) s]
    | leave => simp only [liftStep, liftBreak, congrFun (h.value (by simp) rfl) s]
    | proceed => simp only [liftStep, congrFun (h.value (by simp) rfl) s]
    | _ =>
      have hall : children.mapM (f (p, s)) = children.mapM (g (p, s)) :=
        mapM_congr fun c hc => congrFun (h.part (by simp) hc) s
      simp only [liftStep, Node.mapChildren, hall]
  | _ => rfl

end

/-- The second walk takes every scope that the first one opens, once and for the same node, and makes its
routine. What either walk does is settled by its rule at the places where trees stand: no tree is seen inside
more or fewer loops than are around it in its scope. -/
theorem walks_paired (unit : String) (he : e.Everywhere Node.SingleExit) (nextId : Nat) :
    (∃ s, liftScope (analyse unit e) (Tree.recurse (liftStep (analyse unit e))) 0 e { nextId } = .ok () s ∧
      s.nextScope = (analyse unit e).size ∧ (s.routines.map Prod.fst).Perm (range (analyse unit e).size) ∧
      (analyse unit e).size = 1 + e.openers.length ∧
      ∀ k n, e.openers[k]? = some n → (∃ outer, ((analyse unit e).get (1 + k)).IsOf unit (1 + k) outer n) ∧
        ∃ r, (1 + k, r) ∈ s.routines ∧
          RoutineOf (analyse unit e) (fun i q => (i, q) ∈ s.routines) (1 + k) n.body r) ∧
    (∀ step, (∀ rec q c, Stands ⟨0, 0⟩ e q c → step rec q c = walkStep unit rec q c) →
      Tree.recurse step ⟨0, 0⟩ e = Tree.recurse (walkStep unit) ⟨0, 0⟩ e) ∧
    ∀ ss span step, (∀ rec (q : Site) c, Stands ⟨0, 0⟩ e q.1 c → step rec q c = liftStep ss rec q c) →
      Tree.recurse step (⟨0, 0⟩, span) e = Tree.recurse (liftStep ss) (⟨0, 0⟩, span) e := by
  have hsize := (settled_analyse unit he).2.2.1
  have hlen : e.scopeBodies.length = 1 + e.openers.length := by
    rw [Tree.scopeBodies, ← Tree.map_body_openers, length_cons, length_map, Nat.add_comm]
  refine ⟨?_, fun step => recurse_eq_of_stands (fun p => p) (walkStep unit) fun _ _ h => walkStep_congr h,
    fun ss span step h => recurse_eq_of_stands Prod.fst (liftStep ss) (fun _ _ h => liftStep_congr
      fun q c hc hlt => funext fun s => h (q, s) c hc hlt) h⟩
  -- the first use only names the state at the end; the second one speaks of the routines in it
  obtain ⟨s, hrun, -⟩ := liftScope_main unit he (fun _ _ => True) nextId
  obtain ⟨s', hrun', hnext, hperm, hof⟩ := liftScope_main unit he (fun i q => (i, q) ∈ s.routines) nextId
  cases hrun.symm.trans hrun'
  rw [← hsize] at hnext hperm
  refine ⟨s, hrun, hnext, hperm, hsize.trans hlen, fun k n hn => ⟨isOf_analyse unit he hn, ?_⟩⟩
  have hk := (List.getElem?_eq_some_iff.mp hn).1
  obtain ⟨⟨i, r⟩, hr, rfl : i = 1 + k⟩ := mem_map.mp (hperm.mem_iff.mpr (mem_range.mpr (by omega : 1 + k < _)))
  obtain ⟨body, hbody, hrou⟩ := hof (fun _ hq => hq) _ hr
  rw [Tree.scopeBodies, Nat.add_comm, getElem?_cons_succ, ← Tree.map_body_openers, getElem?_map, hn] at hbody
  cases hbody
  exact ⟨r, hr, hrou⟩

theorem walks_paired_shared : ∃ s, liftScope (analyse "__unit_0" sharedVariable)
      (Tree.recurse (liftStep (analyse "__unit_0" sharedVariable))) 0 sharedVariable { nextId := 11 } = .ok () s ∧
    s.nextScope = 3 ∧ (s.routines.map Prod.fst).Perm [0, 1, 2] := by
  obtain ⟨⟨s, hrun, hnext, hperm, -⟩, -⟩ := walks_paired "__unit_0" sharedVariable_singleExit 11
  have hsize : (analyse "__unit_0" sharedVariable).size = 3 := by decide +kernel
  rw [hsize] at hnext hperm
  exact ⟨s, hrun, hnext, hperm⟩

end Closure

end Garnet
