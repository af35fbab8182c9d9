import Garnet.Proofs.Lowering.Structure

/-!
# Lowered trees

`Tree.IsLowered` says what names are resolved in: well-formed nodes, and simple parameters for blocks
and methods. Two things count for nothing there and are left out by `Tree.prune`. What `defined?` asks
about is never run. And the target of an operator assignment stands in two places, once where it is read
and once where it is written; where it is written it holds no definition that counts.
-/

namespace Garnet

variable {n : Node} {e : Tree} {f : Tree → Pass Tree} {t : Tag}

open List Garnet.Tree Build

/-- A name, or a parameter for the rest or for the block. -/
def Tree.isSimple (e : Tree) : Bool := e.node?.all fun n => n.tag.isFlat

/-- A node of a tree that names are resolved in. -/
structure Node.IsLowered (n : Node) : Prop where
  formed : n.isFormed
  params : n.tag.hasParams → ∀ k, n.tag.argsPlace? = some k → ∀ c ∈ (n.child k).children, c.isSimple

namespace Tree

open Classical in
/-- What is left of the target of an assignment: nothing if it is as it should be, and else a node that
no tree should have. -/
noncomputable def residue (e : Tree) : Tree :=
  if e.Everywhere Node.IsLowered then .absent else .node .redo .zero 0 [.absent]

mutual

/-- The tree without the targets of assignments and without what `defined?` asks about. -/
noncomputable def prune : Tree → Tree
  | .node .defined span id _ => .node .defined span id []
  | .node .assign span id children =>
    .node .assign span id (((pruneAll children).head?.getD .absent).residue :: (pruneAll children).tail)
  | .node tag span id children => .node tag span id (pruneAll children)
  | e => e

/-- The trees of a list without what counts for nothing. -/
noncomputable def pruneAll : List Tree → List Tree
  | [] => []
  | e :: es => e.prune :: pruneAll es

end

@[simp]
lemma residue_of_everywhere (h : e.Everywhere Node.IsLowered) : e.residue = .absent := if_pos h

lemma everywhere_of_residue (h : e.residue.Everywhere Node.IsLowered) : e.Everywhere Node.IsLowered := by
  by_contra hnot
  rw [residue, if_neg hnot] at h
  have hf := (everywhere_node (n := ⟨.redo, .zero, 0, [.absent]⟩).mp h).1.formed
  cases hf

@[simp]
lemma copies_residue (i : Nat) (e : Tree) : e.residue.copies i = 0 := by
  rw [residue]
  split <;> rfl

@[simp]
lemma pruneAll_eq_map (es : List Tree) : pruneAll es = es.map prune := by
  induction es with
  | nil => rfl
  | cons e es ih => rw [pruneAll, ih, map_cons]

@[simp]
lemma prune_of_node? (h : e.node? = none) : e.prune = e := by
  cases e with
  | node tag span id children => cases h
  | _ => rfl

lemma node?_of_prune (h : e.prune.node? = none) : e.node? = none := by
  cases e with
  | node tag span id children => cases tag <;> cases h
  | _ => rfl

@[simp]
lemma is_prune (e : Tree) (t : Tag) : e.prune.is t = e.is t := by fun_cases prune e <;> rfl

lemma prune_assign (span : Span) (id : Nat) (target value : Tree) :
    (Tree.node .assign span id [target, value]).prune =
      .node .assign span id [target.prune.residue, value.prune] := by
  simp [prune]

end Tree

/-- The tags of nodes all of whose children count. -/
def Tag.isOpen (t : Tag) : Bool := t != .assign && t != .defined

lemma prune_node (h : t.isOpen) (span : Span) (id : Nat) (cs : List Tree) :
    (Tree.node t span id cs).prune = .node t span id (cs.map prune) := by
  rw [← pruneAll_eq_map]
  cases t with
  | assign => cases h
  | defined => cases h
  | _ => rfl

lemma prune_rebuild (h : n.tag.isOpen) (cs : List Tree) : (n.rebuild cs).prune = n.rebuild (cs.map prune) :=
  prune_node h n.span n.id cs

lemma children_prune (ht : t.isOpen) (h : e.is t) : e.prune.children = e.children.map prune := by
  cases e with
  | node tag span id children =>
    obtain rfl : tag = t := by simpa [Tree.is] using h
    rw [prune_node ht, Tree.children, Tree.children]
  | _ => cases h

noncomputable def Node.pruned (n : Node) : Node := ⟨n.tag, n.span, n.id, n.tree.prune.children⟩

lemma Node.tree_pruned (n : Node) : n.pruned.tree = n.tree.prune := by
  obtain ⟨tag, span, id, children⟩ := n
  simp only [pruned]
  cases tag <;> rfl

lemma Node.children_pruned (h : n.tag.isOpen) : n.pruned.children = n.children.map prune := by
  rw [pruned, tree, prune_node h, Tree.children]

lemma Node.child_pruned (h : n.tag.isOpen) (k : Nat) : n.pruned.child k = (n.child k).prune := by
  rw [child, child, children_pruned h, getElem?_map]
  cases n.children[k]? <;> rfl

lemma copies_prune_of_node? (i : Nat) (h : e.node? = none) : e.prune.copies i = 0 := by
  rw [prune_of_node? h, copies_of_node? i h]

lemma copiesIn_prune_of_node? (i : Nat) {cs : List Tree} (h : ∀ c ∈ cs, c.node? = none) :
    copiesIn i (cs.map prune) = 0 :=
  copiesIn_eq_zero i (forall_mem_map.mpr fun c hc => copies_prune_of_node? i (h c hc))

lemma copies_prune_le (i : Nat) (e : Tree) : e.prune.copies i ≤ e.copies i := by
  induction e using induction_on_nodes with
  | leaf e he => exact Nat.le_of_eq (congrArg _ (prune_of_node? he))
  | node n ih =>
    obtain ⟨tag, span, id, children⟩ := n
    have hall : copiesIn i (children.map prune) ≤ copiesIn i children := by
      induction children with
      | nil => exact Nat.le_refl _
      | cons c cs ihcs =>
        have hc := ih c mem_cons_self
        have hcs := ihcs fun d hd => ih d (mem_cons_of_mem c hd)
        exact Nat.add_le_add hc hcs
    have ht := copiesIn_sublist i (tail_sublist (children.map prune))
    simp only [Node.tree]
    cases ho : tag.isOpen with
    | true =>
      rw [prune_node ho, copies, copies]
      omega
    | false =>
      have htag : tag = .assign ∨ tag = .defined := by
        rcases Bool.and_eq_false_iff.mp ho with h | h
        · exact .inl (by simpa using h)
        · exact .inr (by simpa using h)
      rcases htag with rfl | rfl
      · rw [prune, copies, copies, pruneAll_eq_map, copiesIn_cons, copies_residue]
        omega
      · rw [prune, copies, copies, copiesIn_nil]
        omega

/-! ### What lowering gives -/

lemma Tree.isSimple_prune (e : Tree) : e.prune.isSimple = e.isSimple := by fun_cases prune e <;> rfl

/-- All nodes of the tree that count are those of a tree that names are resolved in. -/
abbrev Tree.IsLowered (e : Tree) : Prop := e.prune.Everywhere Node.IsLowered

lemma isLowered_of_hasParams (h : n.isFormed) (hp : n.tag.hasParams = false) : n.IsLowered := by
  refine ⟨h, fun htag => ?_⟩
  rw [hp] at htag
  cases htag

lemma isLowered_of_isPlain (h : n.isFormed) (hp : n.tag.isPlain) : n.IsLowered := by
  simp only [Tag.isPlain, Bool.and_eq_true, Bool.not_eq_true'] at hp
  exact isLowered_of_hasParams h hp.2

lemma isLowered_of_isFlat (hn : n.tree.IsSource) (hf : n.tag.isFlat) : n.tree.IsLowered := by
  obtain ⟨tag, span, id, children⟩ := n
  have hfor := (everywhere_node.mp hn).1.formed
  have ho : tag.isOpen := by cases tag <;> first | rfl | cases hf
  have hp : tag.hasParams = false := by cases tag <;> first | rfl | cases hf
  have hl : ∀ c ∈ children, c.node? = none := by
    simp only [Node.isFormed, Bool.and_eq_true, Bool.or_eq_true, Bool.not_eq_true'] at hfor
    rcases hfor.1.2 with h | h
    · exact absurd hf (Bool.eq_false_iff.mp h)
    · exact fun c hc => by simpa using all_eq_true.mp h c hc
  have hs : children.map prune = children :=
    (map_congr_left fun c hc => prune_of_node? (hl c hc)).trans (map_id _)
  rw [IsLowered, Node.tree, prune_node ho, hs]
  refine everywhere_node |>.mpr
    ⟨isLowered_of_hasParams hfor hp, fun c hc => everywhere_of_node? (hl c hc)⟩

lemma Tree.IsLowered.of_node? (h : e.node? = none) : e.IsLowered := by
  rw [IsLowered, prune_of_node? h]
  exact everywhere_of_node? h

lemma Tree.IsLowered.pruned (h : n.tree.IsLowered) :
    n.pruned.IsLowered ∧ ∀ c ∈ n.pruned.children, c.Everywhere Node.IsLowered := by
  rw [IsLowered, ← n.tree_pruned] at h
  exact everywhere_node.mp h

lemma Tree.IsLowered.is_args (h : n.tree.IsLowered) (ho : n.tag.isOpen) {k : Nat}
    (hk : n.tag.argsPlace? = some k) : (n.child k).is .args := by
  rw [← is_prune, ← Node.child_pruned ho]
  exact Node.isArgs_of_isFormed h.pruned.1.formed hk

lemma Tree.IsLowered.child (ho : n.tag.isOpen) (h : n.tree.IsLowered) (k : Nat) :
    (n.child k).IsLowered := by
  rw [IsLowered, ← n.tree_pruned] at h
  rw [IsLowered, ← Node.child_pruned ho]
  exact Everywhere.child h k

lemma Tree.IsLowered.children (ho : n.tag.isOpen) (h : n.tree.IsLowered) :
    ∀ c ∈ n.children, c.IsLowered := by
  have hc := h.pruned.2
  rwa [Node.children_pruned ho, forall_mem_map] at hc

lemma Tree.IsLowered.assign (h : n.tree.IsLowered) (htag : n.tag = .assign) :
    ∃ target value, n.children = [target, value] ∧ target.IsLowered ∧ value.IsLowered := by
  obtain ⟨tag, span, id, children⟩ := n
  cases htag
  obtain ⟨hn, hc⟩ := h.pruned
  have hlen := Node.length_of_isFormed hn.formed rfl
  simp only [Node.pruned, Node.tree, prune, pruneAll_eq_map, Tree.children, length_cons,
    length_tail, length_map] at hlen
  obtain ⟨target, value, rfl⟩ := length_eq_two.mp (show children.length = 2 by omega)
  rw [Node.pruned, Node.tree, prune_assign] at hc
  refine ⟨target, value, rfl, everywhere_of_residue ?_, ?_⟩
  · exact hc target.prune.residue (by simp [Tree.children])
  · exact hc value.prune (by simp [Tree.children])

lemma copies_prune_child_le (i : Nat) (ho : n.tag.isOpen) (k : Nat) :
    (n.child k).prune.copies i ≤ n.tree.prune.copies i := by
  rw [← Node.child_pruned ho, ← n.tree_pruned]
  exact copies_child_le i n.pruned k

/-- A pass builds the trees `outs`, which names are resolved in, out of the trees `ins`. -/
abbrev Lowers {α : Type} (ins : List Tree) (p : Pass α) (outs : α → List Tree) : Prop :=
  Builds (Everywhere Node.IsLowered) ins p fun a => (outs a).map prune

lemma Lowers.of_map {ins : List Tree} {p p' : Pass Tree} (hp : prune <$> p = p')
    (h : Builds (Everywhere Node.IsLowered) ins p' ([·])) : Lowers ins p ([·]) := by
  intro s e s' he hs
  have he' : p' s = .ok e.prune s' := by
    rw [← hp]
    exact bind_eq_ok.mpr ⟨e, s', he, rfl⟩
  exact h he' hs

namespace Lowers

variable {γ α β : Type} {ins u : List Tree} {p : Pass α} {k : α → Pass β} {mid : α → List Tree}
  {outs : β → List Tree}

lemma pure {a : β} (h : ∀ e ∈ outs a, e.IsLowered) (hd : Within ((outs a).map prune) ins) :
    Lowers ins (pure a) outs :=
  Builds.pure (forall_mem_map.mpr h) hd

lemma bindOf (r : List Tree) (hp : Lowers u p mid)
    (hk : ∀ a, Gives p a → (∀ e ∈ mid a, e.IsLowered) → Lowers ((mid a).map prune ++ r) (k a) outs)
    (hins : Within (u ++ r) ins) :
    Lowers ins (p >>= k) outs :=
  Builds.bindOf r hp (fun a ha h => hk a ha fun e he => h e.prune (mem_map_of_mem he)) hins

lemma bind (r : List Tree) (hp : Lowers u p mid)
    (hk : ∀ a, (∀ e ∈ mid a, e.IsLowered) → Lowers ((mid a).map prune ++ r) (k a) outs)
    (hins : Within (u ++ r) ins) :
    Lowers ins (p >>= k) outs :=
  bindOf r hp (fun a _ => hk a) hins

lemma after (hp : Lowers [] p mid)
    (hk : ∀ a, (∀ e ∈ mid a, e.IsLowered) → Lowers ((mid a).map prune ++ ins) (k a) outs) :
    Lowers ins (p >>= k) outs :=
  bind ins hp hk .rfl

lemma gather {f : γ → Pass α} {t : γ → List Tree} {as : List γ} (h : ∀ a ∈ as, Lowers (t a) (f a) mid) :
    Lowers (as.flatMap t) (as.mapM f) fun bs => bs.flatMap mid := by
  have hg := Builds.gather h
  simp only [← map_flatMap] at hg
  exact hg

lemma mapM {f : γ → Pass Tree} {t : γ → Tree} {as : List γ} (h : ∀ a ∈ as, Lowers [t a] (f a) ([·])) :
    Lowers (as.map t) (as.mapM f) id := by
  have hg := gather h
  simp only [flatMap_singleton', ← map_eq_flatMap] at hg
  exact hg

lemma mapTrees {cs : List Tree} (h : ∀ c ∈ cs, Lowers [c] (f c) ([·])) : Lowers cs (cs.mapM f) id := by
  have hmap := mapM (t := id) h
  rwa [map_id] at hmap

end Lowers

section

variable {name : String} {receiver value : Tree} {ins cs : List Tree} {span : Span}

lemma forall_isLowered (hcs : ∀ c ∈ cs, c.IsLowered) : ∀ c ∈ cs.map prune, c.Everywhere Node.IsLowered :=
  forall_mem_map.mpr hcs

lemma lowers_leaf (h : e.node? = none) : Lowers ins (pure e) ([·]) := by
  refine .pure (forall_mem_singleton.mpr (IsLowered.of_node? h)) fun i => ?_
  simp [copies_prune_of_node? i h]

lemma map_prune_node (h : t.isOpen) :
    prune <$> (Build.node t span cs : Pass Tree) = Build.node t span (cs.map prune) := by
  simp only [Build.node, map_bind, map_pure, prune_node h]

lemma lowers_node {tag : Tag} (hp : tag.hasParams = false) (ho : tag.isOpen)
    (hf : (Node.mk tag span 0 (cs.map prune)).isFormed) (hcs : ∀ c ∈ cs, c.IsLowered)
    (hd : Within (cs.map prune) ins) : Lowers ins (node tag span cs) ([·]) := by
  refine .of_map (map_prune_node ho) (Builds.node (fun id => ?_) hd)
  refine everywhere_node (n := ⟨tag, span, id, cs.map prune⟩) |>.mpr ⟨?_, forall_isLowered hcs⟩
  exact isLowered_of_hasParams hf hp

lemma lowers_rebuildNode (ho : n.tag.isOpen) (hn : (Node.mk n.tag n.span n.id (cs.map prune)).IsLowered)
    (hcs : ∀ c ∈ cs, c.IsLowered) (hd : Within (n.rebuild [] :: cs.map prune) ins) :
    Lowers ins (pure (n.rebuild cs)) ([·]) := by
  refine .pure (forall_mem_singleton.mpr ?_) fun i => ?_
  · rw [IsLowered, prune_rebuild ho]
    exact everywhere_node |>.mpr ⟨hn, forall_isLowered hcs⟩
  · have hi := hd i
    rw [map_singleton, prune_rebuild ho]
    simp only [Node.rebuild, copies, copiesIn_cons] at hi ⊢
    omega

lemma lowers_rebuild (hp : n.tag.hasParams = false) (ho : n.tag.isOpen)
    (hf : (Node.mk n.tag n.span n.id (cs.map prune)).isFormed) (hcs : ∀ c ∈ cs, c.IsLowered)
    (hd : Within (n.rebuild [] :: cs.map prune) ins) : Lowers ins (pure (n.rebuild cs)) ([·]) :=
  lowers_rebuildNode ho (isLowered_of_hasParams hf hp) hcs hd

lemma lowers_rebuildAs (htag : n.tag = t) (ht : t.hasParams = false ∧ t.isOpen ∧ t.isDefinition = false)
    (hf : (Node.mk t n.span n.id (cs.map prune)).isFormed) (hcs : ∀ c ∈ cs, c.IsLowered)
    (hd : Within (cs.map prune) ins) : Lowers ins (pure (n.rebuild cs)) ([·]) := by
  subst htag
  refine lowers_rebuild ht.1 ht.2.1 hf hcs fun i => ?_
  simpa [Node.rebuild, copies, ht.2.2] using hd i

theorem Tree.Like.prune {c : Tree} (h : c.Like e) : c.Like e.prune := by
  refine ⟨fun hc => ?_, fun {t} ht hc => ?_⟩
  · rw [h.leaf hc, prune_of_node? hc]
  · obtain ⟨htag, hlen⟩ := h.fixed ht hc
    have ho : t.isOpen := by cases t <;> first | rfl | cases ht
    rw [is_prune, children_prune ho htag, length_map]
    exact ⟨htag, hlen⟩

lemma lowers_mapChildren (hn : n.tree.IsSource) (hp : n.tag.hasParams = false) (ho : n.tag.isOpen)
    (hf : ∀ c ∈ n.children, Lowers [c] (f c) ([·]))
    (hl : ∀ c ∈ n.children, Carries Tree.Like c (f c)) :
    Lowers [n.tree] (n.mapChildren f) ([·]) := by
  have hfor := (everywhere_node.mp hn).1.formed
  refine .ofShell (k := range n.children.length) nodup_range ?_
  rw [n.map_child_range rfl]
  refine Lowers.bindOf [n.rebuild []] (.mapTrees hf) (fun cs hg hcs => ?_) (by grind)
  obtain ⟨_, _, -, hrun⟩ := hg
  refine lowers_rebuild hp ho (Node.isFormed_of_like hfor ?_) hcs (by grind)
  rw [forall₂_map_right_iff]
  exact (mapM_forall₂ hrun hl).imp fun _ _ h => h.prune

lemma lowers_seq (hcs : ∀ c ∈ cs, c.IsLowered) (hd : Within (cs.map prune) ins) :
    Lowers ins (seq span cs) ([·]) :=
  lowers_node rfl rfl rfl hcs hd

lemma map_prune_send : prune <$> (send span receiver name cs : Pass Tree) =
      send span receiver.prune name (cs.map prune) := by
  simp only [send, args, map_bind, map_prune_node (t := .send) rfl, map_cons,
    map_nil, prune_of_node?, node?_name, node?_absent, ← map_prune_node (t := .args) rfl, bind_map_left]

lemma lowers_send (hr : receiver.IsLowered) (hcs : ∀ c ∈ cs, c.IsLowered)
    (hd : Within (receiver.prune :: cs.map prune) ins) :
    Lowers ins (send span receiver name cs) ([·]) :=
  .of_map map_prune_send (builds_send isLowered_of_isPlain hr (forall_isLowered hcs) hd)

lemma lowers_selfCall (name : String) : Lowers ins (call span name []) ([·]) := by
  refine .bindOf ins (lowers_node rfl rfl rfl (by simp) .rfl) (fun args hg ha => ?_) .rfl
  obtain ⟨_, _, -, hg⟩ := hg
  have hl := (is_prune args .args).trans (Builds.is_of_node hg)
  exact lowers_node rfl rfl ‹_› (by simp_all) (fun i => by simp)

lemma lowers_cond {test yes no : Tree} (ht : test.IsLowered) (hyes : yes.IsLowered) (hno : no.IsLowered)
    (hd : Within [test.prune, yes.prune, no.prune] ins) : Lowers ins (cond span test yes no) ([·]) :=
  .of_map (map_prune_node rfl) (builds_plain isLowered_of_isPlain rfl rfl (by simp_all) hd)

lemma lowers_store {target : Tree} (ht : target.IsLowered) (hv : value.IsLowered)
    (hd : Within [value.prune] ins) :
    Lowers ins (Build.node .assign span [target, value]) ([·]) := by
  have hmap : prune <$> (Build.node .assign span [target, value] : Pass Tree) =
      Build.node .assign span [.absent, value.prune] := by
    simp only [Build.node, map_bind, map_pure, prune_assign, residue_of_everywhere ht]
  refine .of_map hmap (builds_plain isLowered_of_isPlain rfl rfl ?_ fun i => ?_)
  · simpa using hv
  · simpa using hd i

lemma lowers_setter (htag : n.tag = .send ∨ n.tag = .safeSend) (hn : n.tree.IsLowered)
    (hv : value.IsLowered) (hd : Within [n.tree.prune, value.prune] ins) :
    Lowers ins (do
        let items ← args span ((n.child 2).children ++ [value])
        node n.tag span [n.child 0, .name (setter name), items, .absent]) ([·]) := by
  have ho : n.tag.isOpen := by rcases htag with htag | htag <;> rw [htag] <;> rfl
  have ha := hn.is_args ho (k := 2) (by rcases htag with htag | htag <;> rw [htag] <;> rfl)
  rw [IsLowered, ← n.tree_pruned] at hn
  have hite : ((n.pruned.child 2).children ++ [value.prune]) =
      ((n.child 2).children ++ [value]).map prune := by
    rw [Node.child_pruned ho, children_prune rfl ha, map_append, map_singleton]
  have hb : Builds (Everywhere Node.IsLowered) ins (do
        let items ← args span ((n.pruned.child 2).children ++ [value.prune])
        node n.tag span [n.pruned.child 0, .name (setter name), items, .absent] : Pass Tree)
      ([·]) :=
    builds_setter isLowered_of_isPlain (n := n.pruned) htag hn hv fun i => n.tree_pruned ▸ hd i
  refine .of_map ?_ hb
  rw [hite, args, args, ← map_prune_node rfl, bind_map_left, map_bind]
  simp only [map_prune_node ho, Node.child_pruned ho, map_cons, map_nil, prune_of_node?, node?_name, node?_absent]

lemma lowers_assign {target : Tree} (ht : target.IsLowered) (hv : value.IsLowered)
    (hd : Within [target.prune, value.prune] ins) :
    Lowers ins (assign target value span) ([·]) := by
  have hs {target} (ht : target.IsLowered) :
      Lowers ins (node .assign span [target, value]) ([·]) :=
    lowers_store ht hv fun i => Nat.le_trans (Nat.le_add_left _ _) (hd i)
  have hc e (he : ∀ c ∈ [e], c.IsLowered) :
      Lowers ([e].map prune ++ []) (node .safeChain span [e]) ([·]) :=
    lowers_node rfl rfl rfl he .rfl
  fun_induction assign (m := Pass) target value span with
  | case1 s id inner tail ih =>
    rw [IsLowered] at ht
    refine .bind [] (ih ?_ fun i => ?_) hc (by grind)
    · exact ht.children inner.prune mem_cons_self
    · have hi := hd i
      simp only [prune_node (t := .safeChain) rfl, copies, map_cons, copiesIn_cons] at hi ⊢
      omega
  | case2 s id => exact .bind [] (hs (.of_node? rfl)) hc (by grind)
  | case3 s id children name _ _ n => exact lowers_setter (.inl rfl) ht hv hd
  | case4 s id children name _ _ n => exact lowers_setter (.inr rfl) ht hv hd
  | case5 tag s id children | case6 t => exact hs ht

end

end Garnet
