import Garnet.Proofs.Lowering.Parts

/-!
# Expressing sugar keeps trees well-formed

Each form of sugar is expressed by well-formed nodes, and uses its parts once (`lowerSugar_builds`).
-/

namespace Garnet

variable {e : Tree}

open List Garnet.Tree Lowers

def Tree.isMethod (e : Tree) : Bool := e.is .method || e.is .singletonMethod

/-- The definitions of methods in a tree. -/
def Tree.methods (e : Tree) : List Tree := e.subtrees.filter isMethod

namespace Sugar

variable {params : Tree} {span : Span} {k : Nat}

lemma forall_isSimple_prune (hargs : params.is .args) (h : ∀ c ∈ params.children, c.isSimple) :
    ∀ c ∈ params.prune.children, c.isSimple := by
  rw [children_prune rfl hargs]
  exact forall_mem_map.mpr fun c hc => (isSimple_prune c).trans (h c hc)

lemma lowers_method {name : String} {body : Tree} (hp : params.IsLowered) (hargs : params.is .args)
    (hsimple : ∀ c ∈ params.children, c.isSimple) (hb : body.IsLowered) :
    Lowers [params.prune, body.prune] (Build.node .method span [.name name, params, body]) ([·]) := by
  refine .of_map (map_prune_node rfl) (Builds.node (fun id => ?_) (fun i => by simp))
  refine everywhere_node (n := ⟨.method, span, id, [.name name, params.prune, body.prune]⟩) |>.mpr
    ⟨⟨(is_prune params .args).trans hargs, fun _ k hk => ?_⟩, by simp_all⟩
  cases hk
  exact forall_isSimple_prune hargs hsimple

lemma simple_of_args (names : List String)
    (h : Gives (Build.args span (names.map .name) : Pass Tree) params) :
    params.is .args ∧ ∀ c ∈ params.children, c.isSimple := by
  obtain ⟨s, s', -, h⟩ := h
  cases h
  exact ⟨rfl, forall_mem_map.mpr fun v _ => rfl⟩

lemma lowers_params (span : Span) (names : List String) :
    Lowers [] (Build.args span (names.map .name)) ([·]) := by
  refine lowers_node rfl rfl rfl (by simp) fun i => ?_
  exact Nat.le_of_eq (copiesIn_eq_zero i (by simp))

lemma lowers_accessors (kind : String) (around : Span) (a : Tree) :
    Lowers [] (accessors kind around a) id := by
  unfold accessors
  dsimp only
  split
  on_goal 3 => exact .throw_bind
  -- the reader comes first, if there is one
  all_goals
    refine .ite ?_ (bindOf [] (lowers_params around []) (fun params hg hp => ?_) .rfl)
    on_goal 1 =>
      let reader : List Tree := []
      have hr : ∀ e ∈ reader, e.IsLowered := by simp [reader]
    on_goal 2 =>
      obtain ⟨hargs, hsimple⟩ := simple_of_args [] hg
      refine .bind [] (lowers_method (forall_mem_singleton.mp hp) hargs hsimple (by simp))
        (fun method hr => ?_) .rfl
      let reader := [method]
  all_goals
    refine .ite (pure (by simp_all) (by grind)) ?_
    refine bindOf (reader.map prune) (lowers_params around ["value"]) (fun params hg hp => ?_) .rfl
    obtain ⟨hargs, hsimple⟩ := simple_of_args ["value"] hg
    refine .after (lowers_assign (by simp) (by simp) .rfl) fun body hb => ?_
    refine .bind (reader.map prune) (lowers_method (forall_mem_singleton.mp hp) hargs hsimple
      (forall_mem_singleton.mp hb)) (fun method hm => ?_) (by grind)
    exact .pure (forall_mem_append.mpr ⟨hr, hm⟩) (by grind)

lemma lowers_attributes (kind : String) (args : List Tree) (span : Span) :
    Lowers [] (attributes kind args span) ([·]) := by
  refine .bind [] (.gather fun a _ => lowers_accessors kind span a) (fun methods hm => ?_) fun i => ?_
  · refine lowers_seq ?_ fun i => ?_
    · rw [flatMap_id] at hm
      exact forall_mem_append.mpr ⟨hm, by simp [Tree.nil]⟩
    · simp [Tree.nil]
  · rw [flatMap_eq_nil_iff.mpr fun _ _ => rfl]
    exact Nat.le_refl _

lemma isLowered_lambda {id : Nat} {body : Tree} (hp : params.IsLowered) (hargs : params.is .args)
    (hsimple : ∀ c ∈ params.children, c.isSimple) (hb : body.IsLowered) :
    (Tree.node .lambda span id [params, body]).IsLowered := by
  refine everywhere_node (n := ⟨.lambda, span, id, [params.prune, body.prune]⟩) |>.mpr
    ⟨⟨(is_prune params .args).trans hargs, fun _ k hk => ?_⟩, by simp_all⟩
  cases hk
  exact forall_isSimple_prune hargs hsimple

lemma lowers_symbolBlock (message : String) (span : Span) : Lowers [] (symbolBlock message span) ([·]) := by
  refine .withTempName fun var => bindOf [] (lowers_params span [var])
    (fun params hg hp => ?_) .rfl
  obtain ⟨hargs, hsimple⟩ := simple_of_args [var] hg
  refine .bindOf [params.prune] (lowers_params span []) (fun args hg hl => ?_) .rfl
  -- the arguments stand in both calls, and define nothing
  have hlist : args.prune.is .args := (is_prune args .args).trans (simple_of_args [] hg).1
  have hn i : args.prune.copies i = 0 := by
    obtain ⟨_, _, -, hg⟩ := hg
    have hd : args.copies i = 0 := Builds.copies_of_node hg rfl i
    exact Nat.le_zero.mp (hd ▸ copies_prune_le i args)
  have hs name r : Lowers r (Build.node .send span [.name var, .name name, args, .absent]) ([·]) :=
    lowers_node rfl rfl ‹_› (by simp_all) fun i => by simp [hn]
  have hblo id body (hb : ∀ e ∈ [body], e.IsLowered) :
      Lowers ([body].map prune ++ [params.prune]) (pure (.node .lambda span id [params, body])) ([·]) := by
    refine .pure (forall_mem_singleton.mpr ?_) fun i => ?_
    · exact isLowered_lambda (forall_mem_singleton.mp hp) hargs hsimple (forall_mem_singleton.mp hb)
    · simp [prune_node (t := .lambda) rfl, copies, Tag.isDefinition]
      omega
  refine .bind [params.prune] (hs message []) (fun body hb => ?_) (by grind)
  refine Builds.bind ([body].map prune ++ [params.prune]) (u := [])
    (builds_fresh (G := Everywhere Node.IsLowered)) (fun id _ => ?_) .rfl
  split
  · exact .mono (hblo id body hb) .rfl
  · refine bind [params.prune] (hs _ []) (fun positive hpos => ?_) (by grind)
    refine .bind [params.prune] (lowers_node rfl rfl rfl hpos .rfl) (hblo id) .rfl

lemma lowers_definedName (name : String) (span : Span) : Lowers [] (definedName name span) ([·]) := by
  refine .ite (lowers_leaf rfl) (.ite (lowers_leaf rfl) (.ite (lowers_leaf rfl) ?_))
  exact lowers_cond (by simp) (IsLowered.of_node? rfl) (by simp [Tree.nil])
    fun i => by simp [describe, Tree.text, Tree.nil]

section

variable {n : Node} {rec : Tree → Pass Tree} (hrec : ∀ c : Tree, c.IsSource → Lowers [c] (rec c) ([·]))
include hrec

lemma lowers_arguments {args : Tree} (hargs : args.IsSource) (hlist : args.is .args) :
    Lowers [args] (arguments rec args) ([·]) := by
  cases args with
  | node tag span id children =>
    obtain rfl : tag = .args := by simpa [Tree.is] using hlist
    have hr {items} (hite : ∀ e ∈ items, e.IsLowered) :
        Lowers (items.map prune) (pure (Node.rebuild ⟨.args, span, id, children⟩ items)) ([·]) :=
      lowers_rebuildAs rfl ⟨rfl, rfl, rfl⟩ rfl hite .rfl
    refine .ofAll (n := ⟨.args, span, id, children⟩) (bind []
      (.mapTrees fun c hc => hrec c (hargs.children c hc)) (fun items hite => ?_) (by grind))
    refine .ite (bind [] (Splat.lowers_array hite) (fun array ha => ?_) .rfl)
      (.mono (hr hite) (by grind))
    refine .bind [] (lowers_node rfl rfl rfl ha .rfl) (fun splat hs => ?_) .rfl
    exact .mono (hr hs) .rfl
  | _ => cases hlist

omit hrec in
lemma is_of_arguments {args : Tree} (hlist : args.is .args) (h : Gives (arguments rec args) e) :
    e.prune.is .args := by
  rw [is_prune]
  obtain ⟨_, _, -, h⟩ := h
  cases args with
  | node tag span id children =>
    obtain ⟨items, t, -, h⟩ := bind_eq_ok.mp h
    split at h
    · obtain ⟨splat, _, -, h⟩ := bind_eq_ok.mp h
      cases h
      exact hlist
    · cases h
      exact hlist
  | _ => cases hlist

lemma lowers_block {b : Tree} (hb : b.IsSource) : Lowers [b] (block rec b) ([·]) := by
  unfold block
  split
  · rename_i span id children
    have hc := hb.child (n := ⟨.blockPass, span, id, children⟩) 0
    have hle i := copies_child_le i ⟨.blockPass, span, id, children⟩ 0
    split
    · exact .mono (lowers_symbolBlock _ span) (by grind)
    · exact .mono (hrec _ hc) fun i => by simpa [Node.tree] using hle i
  · exact hrec b hb

variable (hn : n.tree.IsSource)
include hn

omit hrec in
lemma exists_name (hk : n.tag.namePlace? = some k) : ∃ v, n.child k = .name v := by
  obtain ⟨v, hv⟩ := Option.isSome_iff_exists.mp
    (Node.isSome_name?_of_isFormed (everywhere_node.mp hn).1.formed hk)
  refine ⟨v, ?_⟩
  cases hc : n.child k with
  | name w =>
    rw [Node.name?, hc] at hv
    exact congrArg Tree.name (Option.some.inj hv)
  | _ =>
    rw [Node.name?, hc] at hv
    cases hv

omit hrec in
lemma is_args (hk : n.tag.argsPlace? = some k) : (n.child k).is .args :=
  Node.isArgs_of_isFormed (everywhere_node.mp hn).1.formed hk

lemma lowers_plainCall (htag : n.tag = .call) : Lowers [n.tree] (do
        let args ← arguments rec (n.child 1)
        let b ← block rec (n.child 2)
        return n.rebuild [n.child 0, args, b]) ([·]) := by
  obtain ⟨v, hv⟩ := exists_name hn (by rw [htag]; rfl)
  have hlist : (n.child 1).is .args := is_args hn (htag ▸ rfl)
  refine .ofChildren (k := [1, 2]) (by decide) ?_
  refine bindOf [n.child 2] (lowers_arguments hrec (hn.child 1) hlist) (fun args hg hargs => ?_) .rfl
  have hlist := is_of_arguments hlist hg
  refine .bind [args.prune] (lowers_block hrec (hn.child 2)) (fun b hb => ?_) (by grind)
  rw [hv]
  exact lowers_rebuildAs htag ⟨rfl, rfl, rfl⟩ hlist (by simp_all) fun i => by simp; omega

lemma lowers_call (htag : n.tag = .call) (inClass : Bool) : Lowers [n.tree] (call rec inClass n) ([·]) := by
  refine .ite ?_ (.ite (.mono (lowers_attributes _ _ n.span) (by grind)) (lowers_plainCall hrec hn htag))
  split
  · rename_i e he
    refine .ite (.mono (hrec e ((hn.child 1).children e (by rw [he]; exact mem_singleton_self e)))
      fun i => ?_) (lowers_leaf rfl)
    have hle := copiesIn_children_le i (n.child 1)
    have hc := copies_child_le i n 1
    rw [he] at hle
    rw [copiesIn_cons i n.tree]
    omega
  · exact lowers_leaf rfl

lemma lowers_sent (htag : n.tag = .send ∨ n.tag = .safeSend) : Lowers [n.tree] (send rec n) ([·]) := by
  have hp : n.tag.hasParams = false := by rcases htag with htag | htag <;> rw [htag] <;> rfl
  have hopen : n.tag.isOpen := by rcases htag with htag | htag <;> rw [htag] <;> rfl
  have hformed {receiver args b} name (hargs : args.is .args) id :
      (Node.mk n.tag n.span id [receiver, .name name, args, b]).isFormed := by
    rcases htag with htag | htag <;> rw [htag] <;> exact hargs
  have hlist : (n.child 2).is .args := by
    refine is_args hn ?_
    rcases htag with htag | htag <;> rw [htag] <;> rfl
  obtain ⟨v, hv⟩ : ∃ v, n.child 1 = .name v := by
    refine exists_name hn ?_
    rcases htag with htag | htag <;> rw [htag] <;> rfl
  refine .ofShell (k := [0, 2, 3]) (by decide) ?_
  refine bind [n.rebuild [], n.child 2, n.child 3] (hrec _ (hn.child 0)) (fun receiver hr => ?_) (by grind)
  refine .bindOf [n.rebuild [], receiver.prune, n.child 3] (lowers_arguments hrec (hn.child 2) hlist)
    (fun args hg hargs => ?_) (by grind)
  have hlist := is_of_arguments hlist hg
  refine .bind [n.rebuild [], receiver.prune, args.prune] (lowers_block hrec (hn.child 3)) (fun b hb => ?_) (by grind)
  split
  · rename_i positive _
    refine .bind [] (u := [receiver.prune, args.prune, b.prune])
      (lowers_node hp hopen (hformed positive hlist 0) (by simp_all) (fun i => by simp))
      (fun call hc => ?_) (by grind)
    exact lowers_node rfl rfl rfl hc .rfl
  · rw [hv]
    exact lowers_rebuild hp hopen (hformed v hlist n.id) (by simp_all) (fun i => by simp; omega)

lemma lowers_conditional (htag : n.tag = .cond) : Lowers [n.tree] (conditional rec n) ([·]) := by
  have hlen : n.children.length = 3 :=
    Node.length_of_isFormed (everywhere_node.mp hn).1.formed (htag ▸ rfl)
  obtain ⟨tag, span, id, children⟩ := n
  cases htag
  refine .ofAll (bindOf []
    (.mapTrees fun c hc => hrec c (hn.children c hc)) (fun cs hg hcs => ?_) (by grind))
  obtain ⟨_, _, -, hrun⟩ := hg
  have hlen : cs.length = 3 := by
    have hp := mapM_forall₂ hrun fun _ _ _ _ _ _ => trivial
    exact hp.length_eq.symm.trans hlen
  obtain ⟨test, yes, no, rfl⟩ : ∃ test yes no, cs = [test, yes, no] := length_eq_three.mp hlen
  have hpar : test.IsLowered ∧ yes.IsLowered ∧ no.IsLowered := by simpa using hcs
  obtain ⟨ht, hyes, hno⟩ := hpar
  dsimp only
  split
  · rename_i s id' inner hinn
    cases hinn
    have hchi := IsLowered.child (n := ⟨.not, s, id', inner⟩) rfl ht 0
    refine lowers_rebuild rfl rfl rfl (by simp_all [Node.child]) fun i => ?_
    have hle := copies_prune_child_le i (n := ⟨.not, s, id', inner⟩) rfl 0
    simp [Node.rebuild, Node.tree, Node.child, copies, Tag.isDefinition] at hle ⊢
    omega
  · exact lowers_rebuildAs rfl ⟨rfl, rfl, rfl⟩ rfl (by simp_all) (by grind)

lemma lowers_defined (htag : n.tag = .defined) : Lowers [n.tree] (defined rec n) ([·]) := by
  have hk : Lowers [n.tree] (pure n.tree) ([·]) := by
    have hpru : n.tree.prune = .node .defined n.span n.id [] := by rw [Node.tree, htag, prune]
    refine .pure (forall_mem_singleton.mpr ?_) fun i => ?_
    · rw [IsLowered, hpru]
      exact everywhere_node (n := ⟨.defined, n.span, n.id, []⟩) |>.mpr
        ⟨isLowered_of_hasParams rfl rfl, by simp⟩
    · have hle := copies_prune_le i n.tree
      simpa using hle
  have ha {ins} {p} what (hp : Lowers ins p ([·])) : Lowers ins (do
        let test ← p
        Build.cond n.span test (describe what) .nil) ([·]) := by
    refine .bind [] hp (fun test ht => ?_) (by grind)
    exact lowers_cond (forall_mem_singleton.mp ht) (IsLowered.of_node? rfl) (by simp [Tree.nil])
      fun i => by simp [describe, Tree.text, Tree.nil]
  have hd what : Lowers [n.tree] (pure (describe what)) ([·]) := lowers_leaf rfl
  unfold defined
  split
  · exact .ite hk (.mono (lowers_definedName _ n.span) (by grind))
  · rename_i tag s id children hv
    split
    · exact hk
    · exact hk
    · exact .ite (ha "method" (lowers_send (by simp) (by simp [Tree.bool]) fun i => by
        simp [Tree.bool])) (hd _)
    · have hv' := (hv ▸ hn.child 0 : (Tree.node .send s id children).IsSource)
      refine .bind [] (hrec _ (hv'.child 0)) (fun receiver hr => ?_) fun i => ?_
      · exact ha "method" (lowers_send (forall_mem_singleton.mp hr) (by simp) .rfl)
      · have hle := copies_child_le i ⟨.send, s, id, children⟩ 0
        have hc := copies_child_le i n 0
        rw [hv] at hc
        simp [Node.tree] at hle hc ⊢
        omega
    · exact ha "yield" (lowers_selfCall _)
    all_goals exact hd _
  · exact hd _

end

/-! ### Definitions -/

section

variable {rec : Bool → Tree → Pass Tree} (hrec : ∀ k, ∀ c : Tree, c.IsSource → Lowers [c] (rec k c) ([·]))
  {n : Node} (hn : n.tree.IsSource)
include hrec hn

omit hrec hn in
lemma lowers_rebuildScope (hopen : n.tag.isOpen) {cs ins : List Tree} (hk : n.tag.argsPlace? = some k)
    (hplace : cs[k]? = some params) (hargs : params.is .args) (hsimple : ∀ c ∈ params.children, c.isSimple)
    (hformed : (Node.mk n.tag n.span n.id (cs.map prune)).isFormed) (hcs : ∀ c ∈ cs, c.IsLowered)
    (hd : Within (n.rebuild [] :: cs.map prune) ins) :
    Lowers ins (pure (n.rebuild cs)) ([·]) := by
  refine lowers_rebuildNode hopen ⟨hformed, fun _ l hl => ?_⟩ hcs hd
  cases hk.symm.trans hl
  rw [Node.child, getElem?_map, hplace]
  exact forall_isSimple_prune hargs hsimple

lemma lowers_methodDefinition (htag : n.tag = .method) (inClass : Bool) (base : Nat) :
    Lowers [n.tree] (definition rec inClass n 1 base) ([·]) := by
  have hlist : (n.child 1).is .args := is_args hn (htag ▸ rfl)
  have hc : [n.child 0, n.child 1, n.child 2] = n.children :=
    n.map_child_range (k := 3) (Node.length_of_isFormed (everywhere_node.mp hn).1.formed (htag ▸ rfl))
  obtain ⟨v, hv⟩ := exists_name hn (by rw [htag]; rfl)
  refine .ofShell (k := [1, 2]) (by decide) ?_
  refine bindOf [n.rebuild []]
    (Parameter.lowers_lower (hrec false) (hn.child 1) hlist (hn.child 2) base n.span)
    (fun a hg ha => ?_) (by grind)
  obtain ⟨hargs, hsimple⟩ := Parameter.simple_of_lower (hn.child 1) hlist hg
  have hset : (n.children.set 1 a.1).set (1 + 1) a.2 = [.name v, a.1, a.2] := by
    rw [← hc, ← hv]
    rfl
  dsimp only
  rw [if_neg (by rw [htag]; decide), pure_bind, hset]
  refine lowers_rebuildScope (htag ▸ rfl) (by rw [htag]; rfl) rfl hargs hsimple
    (by rw [htag]; exact (is_prune a.1 .args).trans hargs) (by simp_all) (fun i => by simp; omega)

lemma lowers_singletonDefinition (htag : n.tag = .singletonMethod) (inClass : Bool) (base : Nat) :
    Lowers [n.tree] (definition rec inClass n 2 base) ([·]) := by
  have hlist : (n.child 2).is .args := is_args hn (htag ▸ rfl)
  have hc : [n.child 0, n.child 1, n.child 2, n.child 3] = n.children :=
    n.map_child_range (k := 4) (Node.length_of_isFormed (everywhere_node.mp hn).1.formed (htag ▸ rfl))
  obtain ⟨v, hv⟩ := exists_name hn (by rw [htag]; rfl)
  refine .ofShell (k := [0, 2, 3]) (by decide) ?_
  refine bindOf [n.rebuild [], n.child 0]
    (Parameter.lowers_lower (hrec false) (hn.child 2) hlist (hn.child 3) base n.span)
    (fun a hg ha => ?_) (by grind)
  obtain ⟨hargs, hsimple⟩ := Parameter.simple_of_lower (hn.child 2) hlist hg
  dsimp only
  rw [if_pos (by rw [htag]; decide)]
  refine .bind [n.rebuild [], a.1.prune, a.2.prune] (hrec inClass _ (hn.child 0)) (fun object ho => ?_) (by grind)
  have hset : ((n.children.set 0 object).set 2 a.1).set (2 + 1) a.2 = [object, .name v, a.1, a.2] := by
    rw [← hc, ← hv]
    rfl
  rw [pure_bind, hset]
  refine lowers_rebuildScope (htag ▸ rfl) (by rw [htag]; rfl) rfl hargs hsimple
    (by rw [htag]; exact (is_prune a.1 .args).trans hargs) (by simp_all) (fun i => by simp; omega)

lemma lowers_blockDefinition (htag : n.tag = .lambda) (inClass : Bool) (base : Nat) :
    Lowers [n.tree] (definition rec inClass n 0 base) ([·]) := by
  have hlist : (n.child 0).is .args := is_args hn (htag ▸ rfl)
  have hc : [n.child 0, n.child 1] = n.children :=
    n.map_child_range (k := 2) (Node.length_of_isFormed (everywhere_node.mp hn).1.formed (htag ▸ rfl))
  refine .ofShell (k := [0, 1]) (by decide) ?_
  refine bindOf [n.rebuild []]
    (Parameter.lowers_lower (hrec false) (hn.child 0) hlist (hn.child 1) base n.span)
    (fun a hg ha => ?_) (by grind)
  obtain ⟨hargs, hsimple⟩ := Parameter.simple_of_lower (hn.child 0) hlist hg
  have hset : (n.children.set 0 a.1).set (0 + 1) a.2 = [a.1, a.2] := by
    rw [← hc]
    rfl
  dsimp only
  rw [if_neg (by rw [htag]; decide), pure_bind, hset]
  refine lowers_rebuildScope (htag ▸ rfl) (by rw [htag]; rfl) rfl hargs hsimple
    (by rw [htag]; exact (is_prune a.1 .args).trans hargs) (by simp_all) (by grind)

lemma lowers_assignment (htag : n.tag = .assign) (inClass : Bool) : Lowers [n.tree] (match n.child 1 with
      | .node .splat s id children => do
        let target ← rec inClass (n.child 0)
        let value ← rec inClass ((Node.mk .splat s id children).child 0)
        return n.rebuild [target, ← Build.send n.span value "to_a" []]
      | _ => n.mapChildren (rec inClass)) ([·]) := by
  have hlen : n.children.length = 2 :=
    Node.length_of_isFormed (everywhere_node.mp hn).1.formed (htag ▸ rfl)
  have hs {target value} (ht : target.IsLowered) (hval : value.IsLowered)
      (r : List Tree) (hr : ∀ i, value.prune.copies i ≤ copiesIn i r) :
      Lowers r (pure (n.rebuild [target, value])) ([·]) := by
    have hp : (n.rebuild [target, value]).prune = .node .assign n.span n.id [.absent, value.prune] := by
      rw [Node.rebuild, htag, prune_assign, residue_of_everywhere ht]
    refine .pure (forall_mem_singleton.mpr ?_) fun i => ?_
    · rw [IsLowered, hp]
      exact everywhere_node (n := ⟨.assign, n.span, n.id, [.absent, value.prune]⟩) |>.mpr
        ⟨isLowered_of_hasParams rfl rfl, by simpa using hval⟩
    · rw [map_singleton, hp]
      simpa [copies, Tag.isDefinition] using hr i
  split
  · rename_i s id children hv
    have hspl := (hv ▸ hn.child 1 : (Tree.node .splat s id children).IsSource)
    refine .ofChildren (k := [0, 1]) (by decide) ?_
    refine bind [n.child 1] (hrec inClass _ (hn.child 0)) (fun target ht => ?_) .rfl
    refine .bind [] (hrec inClass _ (hspl.child 0)) (fun value hval => ?_) fun i => ?_
    · refine .bind [] (lowers_send (forall_mem_singleton.mp hval) (by simp) .rfl)
        (fun array ha => ?_) .rfl
      exact hs (forall_mem_singleton.mp ht) (forall_mem_singleton.mp ha) _ fun i => by simp
    · have hle := copies_child_le i ⟨.splat, s, id, children⟩ 0
      simp [Node.tree, hv] at hle ⊢
      omega
  · refine .ofAll (bindOf [] (.mapTrees fun c hc => hrec inClass c (hn.children c hc))
      (fun cs hg hcs => ?_) (by grind))
    obtain ⟨_, _, -, hrun⟩ := hg
    have hpai := mapM_forall₂ hrun fun _ _ _ _ _ _ => trivial
    obtain ⟨target, value, rfl⟩ := length_eq_two.mp (hpai.length_eq.symm.trans hlen)
    exact hs (hcs target (by simp)) (hcs value (by simp)) _ fun i => by simp

lemma lowers_step (hl : ∀ k, ∀ c : Tree, c.size < n.tree.size → Carries Tree.Like c (rec k c))
    (inClass : Bool) : Lowers [n.tree] (step rec inClass n.tree) ([·]) := by
  have hchi k := hl inClass (n.child k) (n.size_child_lt k)
  have hmap {t} (htag : n.tag = t) (ht : t.hasParams = false ∧ t.isOpen) k :
      Lowers [n.tree] (n.mapChildren (rec k)) ([·]) :=
    lowers_mapChildren hn (htag ▸ ht.1) (htag ▸ ht.2) (fun c hc => hrec k c (hn.children c hc))
      fun c hc => hl k c (Node.size_lt_of_mem hc)
  have hno : n.tree.node? = some n := rfl
  simp only [step, hno]
  split
  case h_1 htag => exact OperatorAssignment.lowers_lower (hrec inClass) hn htag hchi
  case h_2 htag => exact lowers_conditional (hrec inClass) hn htag
  case h_3 htag => exact lowers_call (hrec inClass) hn htag inClass
  case h_4 htag => exact lowers_sent (hrec inClass) hn (.inl htag)
  case h_5 htag => exact lowers_sent (hrec inClass) hn (.inr htag)
  case h_6 htag =>
    have hlist : (n.child 0).is .args := is_args hn (htag ▸ rfl)
    refine .ofChildren (k := [0, 1]) (by decide) ?_
    refine bindOf [n.child 1] (lowers_arguments (hrec inClass) (hn.child 0) hlist)
      (fun args hg hargs => ?_) .rfl
    have hlist := is_of_arguments hlist hg
    refine .bind [args.prune] (lowers_block (hrec inClass) (hn.child 1)) (fun b hb => ?_) (by grind)
    exact lowers_rebuildAs htag ⟨rfl, rfl, rfl⟩ hlist (by simp_all) (by grind)
  case h_7 htag =>
    refine .ofChildren (k := [0]) (by decide) ?_
    refine bind [] (lowers_block (hrec inClass) (hn.child 0)) (fun b hb => ?_) .rfl
    exact lowers_rebuildAs htag ⟨rfl, rfl, rfl⟩ rfl hb .rfl
  case h_8 htag =>
    have hlist : (n.child 0).is .args := is_args hn (htag ▸ rfl)
    refine .ofChildren (k := [0]) (by decide) ?_
    refine bindOf [] (lowers_arguments (hrec inClass) (hn.child 0) hlist) (fun args hg hargs => ?_) .rfl
    have hlist := is_of_arguments hlist hg
    exact lowers_rebuildAs htag ⟨rfl, rfl, rfl⟩ hlist hargs .rfl
  case h_9 htag => exact lowers_methodDefinition hrec hn htag inClass 3
  case h_10 htag => exact lowers_singletonDefinition hrec hn htag inClass 3
  case h_11 htag => exact lowers_blockDefinition hrec hn htag inClass 4
  case h_12 htag => exact hmap htag ⟨rfl, rfl⟩ true
  case h_13 htag => exact hmap htag ⟨rfl, rfl⟩ true
  case h_14 htag => exact hmap htag ⟨rfl, rfl⟩ true
  case h_15 htag =>
    refine .ofAll (bind [] (.mapTrees fun c hc => hrec inClass c (hn.children c hc))
      (fun items hite => ?_) (by grind))
    exact .ite (.mono (Splat.lowers_array hite) (by grind))
      (lowers_rebuildAs htag ⟨rfl, rfl, rfl⟩ rfl hite (by grind))
  case h_16 htag =>
    refine .ofAll (bind [] (.mapTrees fun c hc => hrec inClass c (hn.children c hc))
      (fun items hite => ?_) (by grind))
    exact .ite (.mono (Splat.lowers_hash (by simp) (by simp) hite) (by grind))
      (lowers_rebuildAs htag ⟨rfl, rfl, rfl⟩ rfl hite (by grind))
  case h_17 htag => exact lowers_assignment hrec hn htag inClass
  case h_18 htag => exact Choice.lowers_lower (hrec inClass) hn
  case h_19 htag => exact Choice.lowers_protect (hrec inClass) hn htag
  case h_20 htag => exact lowers_defined (hrec inClass) hn htag
  case h_21 =>
    refine hmap rfl ?_ inClass
    cases htag : n.tag <;> first | exact ⟨rfl, rfl⟩ | contradiction

end

lemma step_leaf (rec : Bool → Tree → Pass Tree) (inClass : Bool) (h : e.node? = none) :
    step rec inClass e = pure e := by
  simp only [step, h]

lemma step_fixed (rec : Bool → Tree → Pass Tree) (inClass : Bool) {n : Node} (h : n.tag.isFixed) :
    step rec inClass n.tree = n.mapChildren (rec inClass) := by
  obtain ⟨tag, span, id, children⟩ := n
  cases tag <;> first | rfl | cases h

/-- A mark of visibility keeps the methods that its arguments define if its one argument is a definition.
Any other loses them all. -/
theorem methods_visibility {n : Node} (htag : n.tag = .call) (hname : visibility.contains ((n.name? 0).getD ""))
    (hblock : (n.child 2).isAbsent) {inClass : Bool} {es : List Tree} {s s' t : Nat}
    (he : recurse step inClass n.tree s = .ok e s')
    (hes : (n.child 1).children.mapM (recurse step inClass) s = .ok es t) :
    es.flatMap methods = e.methods ↔
      (∃ a, (n.child 1).children = [a] ∧ a.isMethod) ∨ es.flatMap methods = [] := by
  have hcall (rec) : step rec inClass n.tree = call (rec inClass) inClass n := by
    cases n
    cases htag
    rfl
  rw [recurse_eq, hcall, call, hname, hblock] at he
  have hnil : Tree.nil.methods = [] := rfl
  rcases hc : (n.child 1).children with _ | ⟨a, _ | _⟩ <;> rw [hc] at he hes
  case cons.nil =>
    have ha : a.size < n.tree.size :=
      Nat.lt_trans (size_lt_of_mem_children (hc ▸ mem_singleton_self a)) (n.size_child_lt 1)
    simp only [← isMethod.eq_1, if_pos ha] at he
    cases hdef : a.isMethod with rw [hdef] at he
    | false =>
      cases he
      simp [hdef, hnil]
    | true =>
      rw [mapM_cons] at hes
      obtain ⟨_, _, ha', hes⟩ := bind_eq_ok.mp hes
      cases he.symm.trans ha'
      cases hes
      simp [hdef]
  all_goals
    cases he
    simp [hnil]

theorem methods_visibility_two :
    let m : Tree := .node .method default 0 [.name "m", .node .args default 1 [], .nil]
    let n : Node := ⟨.call, default, 2, [.name "private", .node .args default 3 [m, m], .absent]⟩
    recurse step true n.tree 4 = .ok .nil 4 ∧ [m, m].mapM (recurse step true) 4 = .ok [m, m] 4 ∧
      [m, m].flatMap methods ≠ Tree.nil.methods := by
  intro m n
  refine ⟨?he, ?hs, mt (methods_visibility (n := n) rfl rfl rfl ?he ?hs).mp ?_⟩
  case he | hs => with_unfolding_all rfl
  rintro (⟨a, h, -⟩ | h) <;> cases h

end Sugar

theorem lowerSugar_builds (he : e.IsSource) : Lowers [e] (lowerSugar e) ([·]) := by
  refine Builds.recurse (v := id) (C := Carries Tree.Like)
    (fun e h => everywhere_of_node? h) (fun e h => prune_of_node? h)
    (fun rec k e h => Sugar.step_leaf rec k h) (fun k c => ?_) (fun rec n hrec hl k hn => ?_) false he
  · exact carries_recurse (fun rec k e h => Sugar.step_leaf rec k h)
      (fun rec k n hn => ⟨k, Sugar.step_fixed rec k hn⟩) k c
  · exact Sugar.lowers_step hrec hn hl k

end Garnet
