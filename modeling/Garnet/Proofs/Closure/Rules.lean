import Garnet.Proofs.Closure.Lockstep

/-!
# The rules of the two walks

Each rule of the first walk is in step with the rule of the second one for the same kind of node, if
the two walks are in step on the children. So they are in step on every tree (`inStep_recurse`).
-/

namespace Garnet

open List Node Tag

/-- A `return`, `break` or `next` has one value at most. -/
def Node.SingleExit (n : Node) : Prop :=
  n.tag = .ret ∨ n.tag = .leave ∨ n.tag = .proceed → n.children.length ≤ 1

namespace Closure

variable {i : Nat} {e : Tree} {v : String}

section

variable (ss : Scopes) (T : Nat → Routine → Prop) (unit : String) (recW : Place → Tree → Walk Unit)
  (recL : Site → Tree → Lift Tree)

/-- Two computations are in step at the place `p`, the second one lifting the tree `e`. -/
abbrev InStepOn (p : Place) (e : Tree) (w : Walk Unit) (l : Lift Tree) : Prop :=
  InStep ss T unit p.scope w l e.openers e.ownNames (Lifted ss T p e)

/-- Two walks are in step on a tree, wherever it stands. -/
def Agree (c : Tree) : Prop := ∀ p span, InStepOn ss T unit p c (recW p c) (recL (p, span) c)

end

variable {p : Place} {span : Span} {ss : Scopes} {T : Nat → Routine → Prop} {recW : Place → Tree → Walk Unit}
  {recL : Site → Tree → Lift Tree} {unit : String} {n : Node}

/-! ### Blocks and definitions -/

lemma RoutineOf.label_eq {body : Tree} {r : Routine} (h : RoutineOf ss T i body r) :
    (ss.get i).label = r.label := by
  rw [h.eq]
  rfl

variable {Q : Tree → Prop} {w : Walk Unit}

lemma InStep.of_body {scope : Nat} {cs : List Tree} {body : Tree} {l : Lift Tree} (hn : n.parts = cs ∧ n.body? = some body)
    (h : InStep ss T unit scope w l (cs.flatMap Tree.openers ++ n :: body.openers)
      (cs.flatMap Tree.ownNames ++ []) Q) :
    InStep ss T unit scope w l n.tree.openers n.tree.ownNames Q := by
  simpa [Tree.openers_tree, Tree.ownNames_tree, hn] using h

lemma InStep.of_parts {scope : Nat} {p : List Tree} {l : Lift Tree}
    (hn : n.parts = p ∧ n.body? = none)
    (h : InStep ss T unit scope w l (p.flatMap Tree.openers) (p.flatMap Tree.ownNames) Q) :
    InStep ss T unit scope w l n.tree.openers n.tree.ownNames Q := by
  simpa [Tree.openers_tree, Tree.ownNames_tree, hn] using h

lemma inStep_block (unit : String) (hb : Agree ss T unit recW recL (n.child 1)) (htag : n.tag = .lambda)
    (strict : Bool) :
    InStepOn ss T unit p n.tree (walkBlock unit recW p n.tree strict) (liftBlock ss recL p n) := by
  have hp : n.parts = [] ∧ n.body? = some (n.child 1) := by
    simp [parts, body?, calleePlace?, htag]
  have hk : n.scopeKind = (.block, n.child 0) := by rw [scopeKind, htag]
  refine .of_body hp (.opens hp.2 (some p.scope) (fun i => hb ⟨i, 0⟩ .zero) (fun f => ?_) fun i s => ?_)
  · refine ⟨_, ?_, ⟨?_, ?_, ?_⟩, ?_, rfl⟩
    · rfl
    · rw [hk]
      exact ⟨rfl, rfl, rfl, rfl, rfl⟩
    · rw [scopeLabel, htag]
    · rfl
    · exact .inl ⟨rfl, rfl⟩
  · refine ⟨_, _, buildNode_eq_ok .procNew n.span _ s, ⟨rfl, rfl⟩, fun r hs hr => ?_⟩
    have hfor := hs.isFor
    rw [hk] at hfor
    rw [hr.label_eq]
    exact .block htag hfor hr.listed hr.eq hr.body

lemma InStep.defines {scope : Nat} {body : Tree} {kind : RoutineKind}
    {params : Tree} {k : Nat → Lift Tree} (hn : n.body? = some body)
    (hkind : n.scopeKind = (kind, params)) (hb : Agree ss T unit recW recL body) (hki : kind ≠ .block)
    (hw : ∀ f : Found, ∃ label, label = n.scopeLabel unit f.scopes.size ∧
      w.run f = (do recW ⟨← openScope kind label none params false n.span, 0⟩ body : Walk Unit).run f)
    (hk : ∀ i s, ∃ e s', k i s = .ok e s' ∧ s.SameWork s' ∧ ∀ r, (ss.get i).IsFor kind none params →
      r.label = n.scopeLabel unit i → RoutineOf ss T i body r → Q e) :
    InStep ss T unit scope w (do let i ← takeScope; liftScope ss recL i body; k i) (n :: body.openers) [] Q := by
  refine .opens hn none (fun i => hb ⟨i, 0⟩ .zero) (fun f => ?_) fun i s => ?_
  · obtain ⟨label, hl, hrun⟩ := hw f
    refine ⟨_, ?_, ⟨?_, hl, ?_⟩, ?_, hrun⟩
    · rfl
    · rw [hkind]
      exact ⟨rfl, rfl, rfl, rfl, rfl⟩
    · rfl
    · exact .inr ⟨hki, rfl⟩
  · obtain ⟨e, s', hke, hs, hQ⟩ := hk i s
    refine ⟨e, s', hke, hs, fun r ho hr => hQ r ?_ (hr.label_eq ▸ ho.label) hr⟩
    have hfor := ho.isFor
    rwa [hkind] at hfor

lemma inStep_method (hb : Agree ss T unit recW recL (n.child 4)) (htag : n.tag = .method) :
    InStepOn ss T unit p n.tree (walkMethod recW n 1) (do
        liftScope ss recL (← takeScope) (n.child 4)
        Build.node .method n.span (n.children.take 3)) := by
  have hp : n.parts = [] ∧ n.body? = some (n.child 4) := by
    simp [parts, body?, calleePlace?, htag]
  have hl i : n.scopeLabel unit i = (n.name? 1).getD "" := by rw [scopeLabel, htag]
  refine .of_body hp (.defines hp.2 (by rw [scopeKind, htag]) hb (by decide)
    (fun f => ⟨_, (hl _).symm, rfl⟩) fun i s => ?_)
  exact ⟨_, _, buildNode_eq_ok .method n.span _ s, ⟨rfl, rfl⟩,
    fun r hs hr' hr => .method htag hs (hr'.trans (hl i)) hr.listed hr.eq hr.body⟩

lemma inStep_classBody (hb : Agree ss T unit recW recL (n.child 2)) (htag : n.tag = .classBody) :
    InStepOn ss T unit p n.tree (walkClass recW n (classBodyLabel (n.child 0) (n.child 1)) (n.child 2)) (do
        let i ← takeScope
        liftScope ss recL i (n.child 2)
        Build.node .classBody n.span [n.child 0, .name (ss.get i).label, n.child 1]) := by
  have hp : n.parts = [] ∧ n.body? = some (n.child 2) := by
    simp [parts, body?, calleePlace?, htag]
  refine .of_body hp (.defines hp.2 (by rw [scopeKind, htag]) hb (by decide)
    (fun f => ⟨_, by rw [scopeLabel, htag], rfl⟩) fun i s => ?_)
  refine ⟨_, _, buildNode_eq_ok .classBody n.span _ s, ⟨rfl, rfl⟩, fun r hs _ hr => ?_⟩
  rw [hr.label_eq]
  exact .classBody htag hs hr.listed hr.eq hr.body

lemma inStep_singletonMethod (ho : Agree ss T unit recW recL (n.child 0))
    (hb : Agree ss T unit recW recL (n.child 4)) (htag : n.tag = .singletonMethod) :
    InStepOn ss T unit p n.tree (do recW p (n.child 0); walkMethod recW n 2) (do
        let receiver ← recL (p, span) (n.child 0)
        liftScope ss recL (← takeScope) (n.child 4)
        Build.node .singletonMethod n.span [receiver, n.child 1, n.child 2]) := by
  have hp : n.parts = [n.child 0] ∧ n.body? = some (n.child 4) := by
    simp [parts, body?, calleePlace?, htag]
  have hl i : n.scopeLabel unit i = (n.name? 2).getD "" := by rw [scopeLabel, htag]
  refine .of_body hp ?_
  rw [flatMap_singleton, flatMap_singleton]
  refine (ho p span).bind fun object => ?_
  refine .defines hp.2 (by rw [scopeKind, htag]) hb (by decide)
    (fun f => ⟨_, (hl _).symm, rfl⟩) fun i s => ?_
  exact ⟨_, _, buildNode_eq_ok .singletonMethod n.span _ s, ⟨rfl, rfl⟩, fun r hs hr' hr hobj =>
    .singletonMethod htag hobj hs (hr'.trans (hl i)) hr.listed hr.eq hr.body⟩

lemma inStep_singletonClass (ho : Agree ss T unit recW recL (n.child 0))
    (hb : Agree ss T unit recW recL (n.child 1)) (htag : n.tag = .singletonClass) :
    InStepOn ss T unit p n.tree (do
        recW p (n.child 0)
        let label := unit ++ "_sclass_" ++ Numeral.decimal (← get).scopes.size
        walkClass recW n label (n.child 1))
      (do
        let object ← recL (p, span) (n.child 0)
        let i ← takeScope
        liftScope ss recL i (n.child 1)
        Build.node .singletonClass n.span [object, .name (ss.get i).label]) := by
  have hp : n.parts = [n.child 0] ∧ n.body? = some (n.child 1) := by
    simp [parts, body?, calleePlace?, htag]
  refine .of_body hp ?_
  rw [flatMap_singleton, flatMap_singleton]
  refine (ho p span).bind fun object => ?_
  refine .defines hp.2 (by rw [scopeKind, htag]) hb (by decide)
    (fun f => ⟨_, by rw [scopeLabel, htag], rfl⟩) fun i s => ?_
  refine ⟨_, _, buildNode_eq_ok .singletonClass n.span _ s, ⟨rfl, rfl⟩, fun r hs _ hr hobj => ?_⟩
  rw [hr.label_eq]
  exact .singletonClass htag hobj hs hr.listed hr.eq hr.body

/-! ### Children -/

lemma forall₂_getElem? {α β : Type} {R : α → β → Prop} {as : List α} {bs : List β}
    (h : List.Forall₂ R as bs) {j : Nat} {a : α} {b : β} (ha : as[j]? = some a)
    (hb : bs[j]? = some b) : R a b := by
  induction h generalizing j with
  | nil => cases ha
  | cons hab _ ih =>
    cases j with
    | zero =>
      cases ha
      cases hb
      exact hab
    | succ j => exact ih ha hb

lemma parts_of_isUniform (htag : Tag.isUniform n.tag) : n.parts = n.children ∧ n.body? = none := by
  obtain ⟨tag, s, id, children⟩ := n
  change Tag.isUniform tag at htag
  cases tag <;> first | exact ⟨rfl, rfl⟩ | exact absurd htag (by decide)

lemma inStep_uniform (hchi : ∀ c ∈ n.children, Agree ss T unit recW recL c)
    (htag : Tag.isUniform n.tag) :
    InStepOn ss T unit p n.tree (n.children.forM (recW p)) (n.mapChildren (recL (p, span))) := by
  refine .of_parts (parts_of_isUniform htag) ?_
  refine (InStep.each fun c hc => hchi c hc p span).thenLift fun cs _ => .pure fun hcs => ?_
  exact .uniform htag hcs.length_eq.symm fun j c c' hc hc' => forall₂_getElem? hcs hc hc'

/-- The trees of a list without the one at place `skip`, where the list begins at place `i`. -/
def others (skip i : Nat) (es : List Tree) : List Tree := if i ≤ skip then es.eraseIdx (skip - i) else es

lemma others_cons_self (es : List Tree) :
    others i i (e :: es) = others i (i + 1) es := by
  rw [others, others, if_pos (Nat.le_refl _), if_neg (by omega), Nat.sub_self, eraseIdx_cons_zero]

lemma others_cons_of_ne {skip : Nat} (h : i ≠ skip) (e : Tree) (es : List Tree) :
    others skip i (e :: es) = e :: others skip (i + 1) es := by
  rw [others, others]
  by_cases hlt : i < skip
  · rw [if_pos (by omega), if_pos (by omega), show skip - i = skip - (i + 1) + 1 by omega, eraseIdx_cons_succ]
  · rw [if_neg (by omega), if_neg (by omega)]

/-- What a call's children become: the callee stays, and the others are lifted. -/
def CalleeKept (R : Tree → Tree → Prop) (skip i : Nat) (es es' : List Tree) : Prop :=
  es'.length = es.length ∧ ∀ (j : Nat) c c', es[j]? = some c → es'[j]? = some c' →
    if i + j = skip then c' = c else R c c'

lemma CalleeKept.cons {R : Tree → Tree → Prop} {skip : Nat} {e' : Tree} {es es' : List Tree}
    (he : if i = skip then e' = e else R e e') (hes : CalleeKept R skip (i + 1) es es') :
    CalleeKept R skip i (e :: es) (e' :: es') := by
  refine ⟨congrArg (· + 1) hes.1, fun j c c' hc hc' => ?_⟩
  cases j with
  | zero =>
    cases hc
    cases hc'
    exact he
  | succ j =>
    have hj := hes.2 j c c' hc hc'
    rwa [show i + 1 + j = i + (j + 1) by omega] at hj

lemma inStep_callChildren (n : Node) (skip i : Nat) {es : List Tree}
    (hchi : ∀ e ∈ es, Agree ss T unit recW recL e)
    (hb : ∀ m : Node, m.tree ∈ es → m.tag = .lambda → Agree ss T unit recW recL (m.child 1)) :
    InStep ss T unit p.scope (walkCall unit recW p n skip i es) (liftCall ss recL p span skip i es)
      ((others skip i es).flatMap Tree.openers) ((others skip i es).flatMap Tree.ownNames)
      (CalleeKept (Lifted ss T p) skip i es) := by
  induction es generalizing i with
  | nil =>
    have hnil : others skip i [] = [] := by simp [others]
    rw [hnil]
    exact .pure ⟨rfl, fun j c c' hc => by cases hc⟩
  | cons e es ih =>
    have hr := ih (i + 1) (fun e he => hchi e (mem_cons_of_mem _ he))
      fun m hm => hb m (mem_cons_of_mem _ hm)
    have hco e' : InStep ss T unit p.scope (walkCall unit recW p n skip (i + 1) es) (do
          let es' ← liftCall ss recL p span skip (i + 1) es
          return e' :: es')
        ((others skip (i + 1) es).flatMap Tree.openers)
        ((others skip (i + 1) es).flatMap Tree.ownNames)
        fun es' => (if i = skip then e' = e else Lifted ss T p e e') →
          CalleeKept (Lifted ss T p) skip i (e :: es) es' :=
      hr.thenLift fun es' _ => .pure fun hes he => .cons he hes
    rw [walkCall, liftCall]
    by_cases hi : i = skip
    · subst hi
      rw [others_cons_self, if_pos rfl, bne_self_eq_false]
      exact (hco e).mono fun es' h => h (by rw [if_pos rfl])
    · have hne : (i != skip) = true := bne_iff_ne.mpr hi
      rw [others_cons_of_ne hi, if_neg hi, if_pos hne]
      simp only [if_neg hi] at hco
      -- a block at the end is opened here, and not by the walk over it
      cases e with
      | node tag s id children =>
        by_cases hl : es.isEmpty ∧ tag = .lambda
        · obtain ⟨hemp, rfl⟩ := hl
          have hlam : (es.isEmpty && (lambda == lambda)) = true := by simp [hemp]
          have hblk := inStep_block (p := p) unit
            (hb ⟨.lambda, s, id, children⟩ mem_cons_self rfl) rfl (strictBlock n)
          simp only [Tree.is, Tree.node?, hlam]
          exact hblk.bind hco
        · have ho : (es.isEmpty && (tag == lambda)) = false := by
            rwa [Bool.eq_false_iff, ne_eq, Bool.and_eq_true, beq_iff_eq]
          simp only [Tree.is, Tree.node?, ho]
          exact (hchi _ mem_cons_self p span).bind hco
      | _ =>
        simp only [Tree.is, Bool.and_false]
        exact (hchi _ mem_cons_self p span).bind hco

lemma inStep_call (hchi : ∀ c ∈ n.children, Agree ss T unit recW recL c)
    (hb : ∀ m : Node, m.tree ∈ n.children → m.tag = .lambda → Agree ss T unit recW recL (m.child 1))
    (htag : n.tag.calleePlace? = some i) :
    InStepOn ss T unit p n.tree (walkCall unit recW p n i 0 n.children)
      (do return n.rebuild (← liftCall ss recL p n.span i 0 n.children)) := by
  have hbo : n.body? = none := by
    obtain ⟨tag, s, id, children⟩ := n
    cases tag <;> first | rfl | cases htag
  have hp : n.parts = others i 0 n.children := by
    rw [parts, htag, others, if_pos (Nat.zero_le i), Nat.sub_zero]
  refine .of_parts ⟨hp, hbo⟩ ?_
  refine (inStep_callChildren n i 0 hchi hb).thenLift fun cs _ => .pure fun hcs => ?_
  refine .call htag hcs.1 ?_ fun j c c' hj hc hc' => ?_
  · cases hc : n.children[i]? with
    | none =>
      rw [getElem?_eq_none_iff] at hc ⊢
      rwa [hcs.1]
    | some c =>
      have hlt : i < cs.length := by
        rw [hcs.1]
        exact (List.getElem?_eq_some_iff.mp hc).1
      have hk := hcs.2 i c cs[i] hc (List.getElem?_eq_getElem hlt)
      rw [if_pos (Nat.zero_add i)] at hk
      rw [List.getElem?_eq_getElem hlt, hk]
  · have hl := hcs.2 j c c' hc hc'
    rwa [if_neg (by omega)] at hl

lemma inStep_loop (hte : Agree ss T unit recW recL (n.child 0))
    (hbo : Agree ss T unit recW recL (n.child 1)) (htag : n.tag = .loop ∨ n.tag = .doLoop) :
    InStepOn ss T unit p n.tree (do recW p (n.child 0); recW p.inLoop (n.child 1)) (do
        let test ← recL (p, span) (n.child 0)
        let body ← recL (p.inLoop, span) (n.child 1)
        return n.rebuild [test, body]) := by
  refine .of_parts (p := [n.child 0, n.child 1])
    (by rcases htag with htag | htag <;> simp [parts, body?, calleePlace?, htag]) ?_
  rw [flatMap_cons, flatMap_singleton, flatMap_cons, flatMap_singleton]
  refine (hte p span).bind fun test => ?_
  exact (hbo p.inLoop span).thenLift fun body _ => .pure fun hb ht => .loop htag ht hb

/-! ### Ways out -/

section

variable (hsingle : n.SingleExit) (hchild : Agree ss T unit recW recL (n.child 0))
  (habsent : ∀ site s, recL site .absent s = .ok .absent s)
include hsingle hchild habsent

/-- The first walk goes over all children of a way out, and the second one over the first. -/
lemma inStep_value (hout : n.tag = .ret ∨ n.tag = .leave ∨ n.tag = .proceed) :
    InStep ss T unit p.scope (n.children.forM (recW p)) (recL (p, span) (n.child 0)) n.tree.openers n.tree.ownNames
      (Lifted ss T p (n.child 0)) := by
  have hp : n.parts = n.children ∧ n.body? = none := by
    rcases hout with htag | htag | htag <;> simp [parts, body?, calleePlace?, htag]
  refine .of_parts hp ?_
  have hl := hsingle hout
  obtain ⟨tag, s, id, children⟩ := n
  rcases children with _ | ⟨c, _ | ⟨d, rest⟩⟩
  · intro f _ hn
    refine ⟨.refl p.scope hn, fun _ => Lifts.of_sameWork fun s => ?_⟩
    exact ⟨.absent, s, habsent _ s, ⟨rfl, rfl⟩, .literal rfl fun v hv => by cases hv⟩
  · rw [flatMap_singleton, flatMap_singleton]
    exact hchild p span
  · simp at hl

lemma inStep_proceed (htag : n.tag = .proceed) :
    InStepOn ss T unit p n.tree (n.children.forM (recW p)) (do
        let value ← recL (p, span) (n.child 0)
        if p.loops = 0 && (ss.get p.scope).kind = .block then Build.node .ret n.span [value]
        else return n.rebuild [value]) := by
  refine (inStep_value hsingle hchild habsent (.inr (.inr htag))).thenLift fun value _ =>
    Lifts.of_sameWork fun s => ?_
  split
  · rename_i hb
    rw [Bool.and_eq_true, decide_eq_true_iff, decide_eq_true_iff] at hb
    exact ⟨_, _, buildNode_eq_ok .ret n.span [value] s, ⟨rfl, rfl⟩,
      fun hv => .proceedBlock htag hv hb.1 hb.2⟩
  · rename_i hl
    refine ⟨n.rebuild [value], s, rfl, ⟨rfl, rfl⟩, fun hv => .proceed htag hv ?_⟩
    rw [Bool.and_eq_true, decide_eq_true_iff, decide_eq_true_iff, not_and_or] at hl
    exact hl.imp (fun h => by omega) id

lemma inStep_exit (hout : n.tag = .ret ∨ n.tag = .leave ∨ n.tag = .proceed) {w : Walk Unit}
    {k : Tree → Lift Tree} (hk : ∀ value, InStep ss T unit p.scope w (k value) [] []
      fun e => Lifted ss T p (n.child 0) value → Lifted ss T p n.tree e) :
    InStepOn ss T unit p n.tree (do n.children.forM (recW p); w) (recL (p, n.span) (n.child 0) >>= k) := by
  rw [InStepOn, ← append_nil n.tree.openers, ← append_nil n.tree.ownNames]
  exact (inStep_value hsingle hchild habsent hout).bind hk

end

/-! ### Whole trees -/

lemma inStep_name (hss : ss.Settled) (v : String) :
    InStepOn ss T unit p (.name v) (walkStep unit recW p (.name v)) (liftStep ss recL (p, span) (.name v)) := by
  rw [InStepOn, Tree.openers_of_node? rfl, Tree.ownNames_of_node? rfl, walkStep, liftStep]
  cases hv : VarName.isLocal v with
  | true => exact inStep_variable hss p hv span
  | false =>
    intro f _ hn
    have hw : Walks unit p.scope [] [] f f := .refl p.scope hn
    refine ⟨{ hw with mentioned := fun j hj u => ?_ }, fun _ => .pure (.literal rfl ?_)⟩
    · have hu : ¬ (u ∈ [v] ∧ VarName.isLocal u) := by
        rintro ⟨hmem, hl⟩
        rw [mem_singleton.mp hmem, hv] at hl
        cases hl
      exact ⟨.inl, fun h => h.elim id fun h => absurd h.2 hu⟩
    · rintro u hu
      cases hu
      exact hv

lemma Node.mem_children_of_name? {m : Node} (h : m.name? i = some v) : .name v ∈ m.children := by
  rw [name?, child] at h
  cases hc : m.children[i]? with
  | none =>
    rw [hc] at h
    cases h
  | some c =>
    rw [hc] at h
    cases c <;> cases h
    exact mem_of_getElem? hc

lemma mem_ownNames_of_uniform (hu : Tag.isUniform n.tag) (hv : .name v ∈ n.children) :
    v ∈ n.tree.ownNames := by
  rw [Tree.ownNames_tree, mem_flatMap]
  refine ⟨.name v, ?_, ?_⟩
  · rwa [(parts_of_isUniform hu).1]
  · rw [Tree.ownNames_of_node? rfl]
    exact mem_singleton_self v

lemma inStep_assign (hc : ∀ c ∈ n.children, Agree ss T unit recW recL c)
    (htag : n.tag = .assign ∨ n.tag = .protect) {note : Option String}
    (hno : ∀ v, note = some v → .name v ∈ n.children) :
    InStepOn ss T unit p n.tree (do
        if let some name := note then noteAssigned p.scope name
        n.children.forM (recW p))
      (n.mapChildren (recL (p, span))) := by
  have hu : Tag.isUniform n.tag := by rcases htag with htag | htag <;> rw [htag] <;> decide
  cases note with
  | none => exact inStep_uniform hc hu
  | some name => exact (inStep_uniform hc hu).noting fun _ => mem_ownNames_of_uniform hu (hno name rfl)

lemma inStep_step (hss : ss.Settled) (he : e.Everywhere Node.SingleExit)
    (hrec : ∀ c : Tree, c.size < e.size → c.Everywhere Node.SingleExit → Agree ss T unit recW recL c)
    (habsent : ∀ site s, recL site .absent s = .ok .absent s) (p : Place) (span : Span) :
    InStepOn ss T unit p e (walkStep unit recW p e) (liftStep ss recL (p, span) e) := by
  cases e with
  | name v => exact inStep_name hss v
  | node tag s id children =>
    have hsingle := (Tree.everywhere_node (n := ⟨tag, s, id, children⟩)).mp he
    have hchi c (hc : c ∈ children) : Agree ss T unit recW recL c :=
      hrec c (Node.size_lt_of_mem (n := ⟨tag, s, id, children⟩) hc) (hsingle.2 c hc)
    have hchild i : Agree ss T unit recW recL ((Node.mk tag s id children).child i) :=
      hrec _ (Node.size_child_lt ⟨tag, s, id, children⟩ i) (Tree.Everywhere.child he i)
    have hb (m : Node) (hm : m.tree ∈ children) (_ : m.tag = .lambda) :
        Agree ss T unit recW recL (m.child 1) :=
      hrec _ (Nat.lt_trans (m.size_child_lt 1)
        (Node.size_lt_of_mem (n := ⟨tag, s, id, children⟩) hm)) ((hsingle.2 _ hm).child 1)
    cases tag with
    | assign =>
      rw [walkStep]
      cases hn : (Node.mk .assign s id children).name? 0 with
      | none => exact inStep_uniform (n := ⟨.assign, s, id, children⟩) hchi rfl
      | some v =>
        dsimp only
        split
        · refine inStep_assign (n := ⟨.assign, s, id, children⟩) hchi (.inl rfl)
            fun u (hu : some v = some u) => ?_
          cases hu
          exact Node.mem_children_of_name? hn
        · exact inStep_uniform (n := ⟨.assign, s, id, children⟩) hchi rfl
    | protect =>
      exact inStep_assign hchi (.inr rfl) fun u hu =>
        Node.mem_children_of_name? hu
    | loop => exact inStep_loop (hchild 0) (hchild 1) (.inl rfl)
    | doLoop => exact inStep_loop (hchild 0) (hchild 1) (.inr rfl)
    | lambda => exact inStep_block unit (hchild 1) rfl true
    | call | super | send | safeSend => exact inStep_call hchi hb rfl
    | method => exact inStep_method (hchild 4) rfl
    | singletonMethod =>
      exact inStep_singletonMethod (hchild 0) (hchild 4) rfl
    | classBody => exact inStep_classBody (hchild 2) rfl
    | singletonClass =>
      exact inStep_singletonClass (hchild 0) (hchild 1) rfl
    | const =>
      exact .of_parts (n := ⟨.const, s, id, children⟩) (p := []) ⟨rfl, rfl⟩
        (.pure (.const (n := ⟨.const, s, id, children⟩) rfl))
    | ret =>
      exact inStep_exit hsingle.1 (hchild 0) habsent (.inl rfl) fun value => inStep_return hss p rfl value
    | leave =>
      exact inStep_exit hsingle.1 (hchild 0) habsent (.inr (.inl rfl))
        fun value => inStep_break hss p rfl value
    | proceed =>
      exact inStep_proceed hsingle.1 (hchild 0) habsent rfl
    | _ => exact inStep_uniform (n := ⟨_, s, id, children⟩) hchi rfl
  | _ =>
    rw [InStepOn, Tree.openers_of_node? rfl, Tree.ownNames_of_node? rfl]
    exact .pure (.literal rfl fun v hv => by cases hv)

theorem inStep_recurse (hss : ss.Settled) (he : e.Everywhere Node.SingleExit) :
    Agree ss T unit (Tree.recurse (walkStep unit)) (Tree.recurse (liftStep ss)) e := by
  induction hs : e.size using Nat.strongRecOn generalizing e with
  | ind size ih =>
    intro p span
    rw [Tree.recurse_eq, Tree.recurse_eq]
    refine inStep_step hss he (fun c hc hce p span => ?_) (fun site s => ?_) p span
    · rw [if_pos hc, if_pos hc]
      exact ih c.size (hs ▸ hc) hce rfl p span
    · split
      · rw [Tree.recurse_eq]
        rfl
      · rfl

end Closure

end Garnet
