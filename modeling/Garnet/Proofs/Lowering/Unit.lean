import Garnet.Program.Transform
import Garnet.Proofs.Lowering.Folding
import Garnet.Proofs.Lowering.Sugar

/-!
# Lowered units

A unit as it is read stays well-formed up to where its names are resolved, and its definitions keep
distinct identities (`UnitTree.lower_distinct`).
-/

namespace Garnet

variable {f : Tree → Pass Tree}

open List Garnet.Tree Yield

/-! ### Folding -/

lemma inPlace_fold (e : Tree) : Structure.InPlace e (fold e) := by
  induction e using induction_on_nodes with
  | leaf e he =>
    rw [fold_of_node? he]
    exact ⟨.refl e, id⟩
  | node n ih =>
    obtain ⟨r, hr, hf⟩ | ⟨-, hf⟩ := fold_tree n
    · -- what is computed was a call, and is a literal
      have htag : n.tag = .send := hr.1
      rw [hf]
      refine ⟨⟨nofun, fun {t} ht hc => ?_⟩, fun _ => ?_⟩
      · cases (beq_iff_eq.mp hc).symm.trans htag
        cases ht
      · have hl := r.node?_tree
        cases hr : r.tree with
        | node tag span id children =>
          rw [hr] at hl
          cases hl
        | _ => rfl
    · rw [hf]
      obtain ⟨tag, span, id, children⟩ := n
      refine ⟨⟨nofun, fun ht hc => ⟨hc, length_map _⟩⟩, fun htar => ?_⟩
      cases tag with
      | safeChain =>
        cases children with
        | nil => rfl
        | cons inner tail => exact (ih inner mem_cons_self).2 htar
      | _ => exact htar

lemma isSource_fold {e : Tree} (he : e.IsSource) : (fold e).IsSource := by
  induction e using induction_on_nodes with
  | leaf e h =>
    rwa [fold_of_node? h]
  | node n ih =>
    obtain ⟨hn, hchi⟩ := everywhere_node.mp he
    obtain ⟨r, -, hf⟩ | ⟨-, hf⟩ := fold_tree n
    · rw [hf]
      exact everywhere_of_node? r.node?_tree
    · have hp : List.Forall₂ Structure.InPlace n.children (n.children.map fold) := by
        rw [forall₂_map_right_iff, forall₂_same]
        exact fun c _ => inPlace_fold c
      rw [hf]
      refine everywhere_node.mpr ⟨⟨?_, fun htag => ?_, fun htag => ?_⟩, ?_⟩
      · exact Node.isFormed_of_like hn.formed (hp.imp fun _ _ h => h.1)
      · exact (length_map fold).symm ▸ hn.clauses htag
      · exact (Node.child_forall₂ ⟨.refl _, id⟩ hp 0).2 (hn.target htag)
      · exact forall_mem_map.mpr fun c hc => ih c hc (hchi c hc)

lemma copies_fold_le (i : Nat) (e : Tree) : (fold e).copies i ≤ e.copies i := by
  induction e using induction_on_nodes with
  | leaf e h => exact Nat.le_of_eq (congrArg _ (fold_of_node? h))
  | node n ih =>
    obtain ⟨r, -, hf⟩ | ⟨-, hf⟩ := fold_tree n
    · rw [hf, copies_of_node? i r.node?_tree]
      exact Nat.zero_le _
    · obtain ⟨tag, span, id, children⟩ := n
      have hall : copiesIn i (children.map fold) ≤ copiesIn i children := by
        clear hf
        induction children with
        | nil => exact le_rfl
        | cons c cs ihcs =>
          exact Nat.add_le_add (ih c mem_cons_self) (ihcs fun d hd => ih d (mem_cons_of_mem c hd))
      rw [hf]
      exact Nat.add_le_add_right hall _

/-! ### Blocks of methods -/

/-- A pass gives out identities in order, whatever it builds. -/
abbrev Advances {α : Type} (p : Pass α) : Prop := Builds (fun _ => True) [] p fun _ => []

namespace Advances

variable {α : Type} {p : Pass α}

lemma of_builds {G : Tree → Prop} {ins : List Tree} {outs : α → List Tree} (h : Builds G ins p outs) :
    Advances p :=
  fun _ _ _ hp hs => ⟨(h hp hs).1, (h hp hs).2.1, by simp, fun _ => Nat.zero_le _⟩

lemma pure (a : α) : Advances (pure a) := Builds.pure (by simp) .rfl

lemma mapM {cs : List Tree} (hf : ∀ c ∈ cs, Advances (f c)) : Advances (cs.mapM f) :=
  of_builds (Builds.gather hf)

lemma mapChildren (hf : ∀ c, Advances (f c)) (n : Node) : Advances (n.mapChildren f) :=
  Builds.bind [] (mapM fun c _ => hf c) (fun _ _ => pure _) .rfl

lemma node (tag : Tag) (span : Span) (cs : List Tree) : Advances (Build.node tag span cs) :=
  of_builds (Builds.node (G := fun _ => True) (fun _ => trivial) .rfl)

lemma yieldStep {rec : Option String → Tree → Pass Tree} (hrec : ∀ b c, Advances (rec b c))
    (block : Option String) (e : Tree) : Advances (step rec block e) := by
  unfold step
  split
  · exact pure e
  · rename_i n _
    split
    iterate 5 exact mapChildren (hrec _) n
    · split
      · exact Builds.throw
      · exact Builds.bind [] (hrec _ _) (fun _ _ => node _ _ _) .rfl
    · split
      · split
        · exact node _ _ _
        · exact pure _
      · exact mapChildren (hrec _) n
    · exact mapChildren (hrec _) n

lemma recurse (block : Option String) (e : Tree) : Advances (Tree.recurse step block e) :=
  recurseOn_induction (fun _ => pure _)
    (fun _ p hrec => yieldStep (fun b c => hrec (b, c)) p.1 p.2) (block, e)

end Advances

/-- A tree in the place of another one, and with parameters for parameters. -/
structure Tree.Alike (c e : Tree) : Prop where
  like : c.Like e
  params : c.is .args → List.Forall₂ Tree.Like c.children e.children

lemma Tree.Like.isSimple {c e : Tree} (h : c.Like e) (hc : c.isSimple) : e.isSimple := by
  cases c with
  | node tag span id children =>
    have hf : tag.isFlat := hc
    have hfix : tag.isFixed := by cases tag <;> first | rfl | cases hf
    have htag := (h.fixed hfix (beq_self_eq_true tag)).1
    cases e with
    | node tag' span' id' children' =>
      cases beq_iff_eq.mp htag
      exact hf
    | _ => cases htag
  | _ =>
    rwa [h.leaf rfl]

lemma forall_isSimple_of_like {cs ds : List Tree} (h : List.Forall₂ Tree.Like cs ds)
    (hcs : ∀ c ∈ cs, c.isSimple) : ∀ d ∈ ds, d.isSimple := by
  induction h with
  | nil => exact hcs
  | cons hc _ ih =>
    obtain ⟨h, hcs⟩ := forall_mem_cons.mp hcs
    exact forall_mem_cons.mpr ⟨hc.isSimple h, ih hcs⟩

lemma Tree.Like.prune_prune {c e : Tree} (h : c.Like e) : c.prune.Like e.prune := by
  refine ⟨fun hc => ?_, fun {t} ht hc => ?_⟩
  · rw [h.leaf (node?_of_prune hc)]
  · rw [is_prune] at hc
    have ho : t.isOpen := by cases t <;> first | rfl | cases ht
    obtain ⟨htag, hlen⟩ := h.prune.fixed ht hc
    exact ⟨htag, by rw [hlen, children_prune ho hc, length_map]⟩

lemma Yield.step_leaf (rec : Option String → Tree → Pass Tree) (block : Option String) {e : Tree}
    (h : e.node? = none) : step rec block e = pure e := by
  simp only [step, h]

lemma Yield.step_fixed (rec : Option String → Tree → Pass Tree) (block : Option String) {n : Node}
    (h : n.tag.isFixed) : step rec block n.tree = n.mapChildren (rec block) := by
  obtain ⟨tag, span, id, children⟩ := n
  cases tag <;> first | rfl | cases h

lemma carries_lowerYields (block : Option String) (c : Tree) :
    Carries Tree.Alike c (Tree.recurse step block c) := by
  have hl := carries_recurse step_leaf (fun rec k n hn => ⟨k, step_fixed rec k hn⟩)
  refine fun s e s' h => ⟨hl block c h, fun ha => ?_⟩
  cases c with
  | node tag span id children =>
    cases beq_iff_eq.mp ha
    rw [Tree.recurse_eq] at h
    obtain ⟨cs, hcs, rfl⟩ := mapChildren_eq_ok
      ((step_fixed (n := ⟨.args, span, id, children⟩) _ block rfl).symm ▸ h)
    refine mapM_forall₂ hcs fun c hc => ?_
    have hlt : c.size < (Tree.node .args span id children).size :=
      Node.size_lt_of_mem (n := ⟨.args, span, id, children⟩) hc
    rw [if_pos hlt]
    exact hl block c
  | _ => cases ha

lemma lowers_mapKept {n : Node} (hn : n.tree.IsLowered) (ho : n.tag.isOpen)
    (hf : ∀ c ∈ n.children, c.IsLowered → Lowers [c.prune] (f c) ([·]))
    (hl : ∀ c ∈ n.children, Carries Tree.Alike c (f c)) :
    Lowers [n.tree.prune] (n.mapChildren f) ([·]) := by
  obtain ⟨hno, hchi⟩ := hn.pruned
  rw [Node.children_pruned ho] at hchi
  intro s e s' h hs
  obtain ⟨cs, hcs, rfl⟩ := mapChildren_eq_ok h
  have hp := mapM_forall₂ hcs hl
  have hke : List.Forall₂ Tree.Like n.pruned.children (cs.map prune) := by
    rw [Node.children_pruned ho, forall₂_map_right_iff, forall₂_map_left_iff]
    exact hp.imp fun _ _ h => h.like.prune_prune
  have hmap : Lowers (n.children.map prune) (n.children.mapM f) id :=
    .mapM fun c hc => hf c hc (hchi c.prune (mem_map_of_mem hc))
  obtain ⟨hs', hle, hall, hd⟩ := hmap hcs hs
  refine ⟨hs', hle, forall_mem_singleton.mpr ?_, fun i => ?_⟩
  · rw [prune_rebuild ho]
    refine everywhere_node (n := ⟨n.tag, n.span, n.id, cs.map prune⟩) |>.mpr ⟨⟨?_, fun hpar k hk => ?_⟩, hall⟩
    · exact Node.isFormed_of_like (n := n.pruned) hno.formed hke
    · have hold := hno.params hpar k hk
      have ha := hn.is_args ho hk
      rw [Node.child_pruned ho, children_prune rfl ha, forall_mem_map] at hold
      have hnew := Node.child_forall₂ ⟨.refl .absent, fun _ => .nil⟩ hp k
      have hsa := forall_isSimple_of_like (hnew.params ha)
        fun c hc => (isSimple_prune c).symm.trans (hold c hc)
      have hpla : (Node.mk n.tag n.span n.id (cs.map prune)).child k =
          ((Node.mk n.tag n.span n.id cs).child k).prune := by
        rw [Node.child, Node.child, getElem?_map]
        cases cs[k]? <;> rfl
      rw [hpla, children_prune rfl (hnew.like.fixed rfl ha).1]
      exact forall_mem_map.mpr fun c hc => (isSimple_prune c).trans (hsa c hc)
  · have hi : copiesIn i (cs.map prune) ≤ _ := hd i
    change copiesIn i [(n.rebuild cs).prune] ≤ _
    rw [prune_rebuild ho, Node.tree, prune_node ho]
    simp only [Node.rebuild, copies, copiesIn_cons] at hi ⊢
    omega

section

variable {rec : Option String → Tree → Pass Tree}
  (hrec : ∀ b (c : Tree), c.IsLowered → Lowers [c.prune] (rec b c) ([·])) {n : Node}
  (hn : n.tree.IsLowered)
  (hsmall : ∀ b (c : Tree), c.size < n.tree.size → Carries Tree.Alike c (rec b c) ∧ Advances (rec b c))
include hrec hn hsmall

lemma lowers_yieldAssign (htag : n.tag = .assign) (block : Option String) :
    Lowers [n.tree.prune] (n.mapChildren (rec block)) ([·]) := by
  obtain ⟨target, value, hc, ht, hv⟩ := hn.assign htag
  obtain ⟨tag, span, id, children⟩ := n
  cases htag
  cases hc
  have hadvances := (hsmall block target (Node.size_lt_of_mem (by simp))).2
  simp only [Node.mapChildren, mapM_cons, mapM_nil, bind_assoc]
  refine Builds.bindOf [Tree.node .assign span id [target.prune.residue, value.prune]]
    hadvances (fun target' hg _ => ?_) .rfl
  obtain ⟨s, s', hs, hrun⟩ := hg
  have ht' : target'.IsLowered := (hrec block target ht hrun hs).2.2.1 _ (mem_singleton_self _)
  have hprune value' : (Node.rebuild ⟨.assign, span, id, [target, value]⟩
      [target', value']).prune = .node .assign span id [.absent, value'.prune] := by
    rw [Node.rebuild, prune_assign, residue_of_everywhere ht']
  refine Lowers.bind [] (hrec block value hv) (fun value' hv' => .pure ?_ fun i => ?_) fun i => ?_
  · refine forall_mem_singleton.mpr ?_
    rw [IsLowered, hprune]
    exact everywhere_node (n := ⟨.assign, span, id, [.absent, value'.prune]⟩) |>.mpr
      ⟨isLowered_of_hasParams rfl rfl, by simpa using hv'⟩
  · simp [hprune, copies, Tag.isDefinition]
  · simp [copies]

omit hrec hn in
lemma lowers_yieldDefined (htag : n.tag = .defined) (block : Option String) :
    Lowers [n.tree.prune] (n.mapChildren (rec block)) ([·]) := by
  have hprune cs : (Node.rebuild n cs).prune = .node .defined n.span n.id [] := by
    rw [Node.rebuild, htag, prune]
  have hadvances : Advances (n.children.mapM (rec block)) :=
    .mapM fun c hc => (hsmall block c (Node.size_lt_of_mem hc)).2
  refine Builds.bind [n.tree.prune] hadvances (fun cs _ => Lowers.pure ?_ fun i => ?_) .rfl
  · refine forall_mem_singleton.mpr ?_
    rw [IsLowered, hprune]
    exact everywhere_node (n := ⟨.defined, n.span, n.id, []⟩) |>.mpr ⟨isLowered_of_hasParams rfl rfl, by simp⟩
  · simp [hprune, copies, Tag.isDefinition]

lemma lowers_yieldCall (htag : n.tag = .yield) (block : Option String) (b : String) : Lowers [n.tree.prune]
      (do
        let args ← rec block (n.child 0)
        Build.node .send n.span [.name b, .name "call", args, .absent]) ([·]) := by
  have ho : n.tag.isOpen := htag ▸ rfl
  have hl : (n.child 0).is .args := hn.is_args ho (htag ▸ rfl)
  refine .bindOf [] (hrec block _ (hn.child ho 0)) (fun args hg ha => ?_) fun i => ?_
  · obtain ⟨_, _, -, hg⟩ := hg
    have hk := (hsmall block _ (n.size_child_lt 0)).1 hg
    have hl := (is_prune args .args).trans (hk.like.fixed rfl hl).1
    exact lowers_node rfl rfl ‹_› (by simp_all) (fun i => by simp)
  · simpa using copies_prune_child_le i ho 0

lemma lowers_yieldStep (block : Option String) :
    Lowers [n.tree.prune] (step rec block n.tree) ([·]) := by
  have hmap (ho : n.tag.isOpen) block : Lowers [n.tree.prune] (n.mapChildren (rec block)) ([·]) :=
    lowers_mapKept hn ho (fun c _ hl => hrec block c hl)
      fun c hc => (hsmall block c (Node.size_lt_of_mem hc)).1
  have hno : n.tree.node? = some n := rfl
  simp only [step, hno]
  split
  case h_1 htag => exact hmap (htag ▸ rfl) _
  case h_2 htag => exact hmap (htag ▸ rfl) _
  case h_3 htag => exact hmap (htag ▸ rfl) _
  case h_4 htag => exact hmap (htag ▸ rfl) _
  case h_5 htag => exact hmap (htag ▸ rfl) _
  case h_6 htag =>
    split
    · exact .throw
    · exact lowers_yieldCall hrec hn hsmall htag _ _
  case h_7 htag =>
    refine .ite ?_ (hmap (htag ▸ rfl) _)
    split
    · exact lowers_cond (by simp) (by simp [Tree.bool]) (by simp [Tree.bool]) fun i => by simp [Tree.bool]
    · exact lowers_leaf rfl
  case h_8 =>
    cases ho : n.tag.isOpen with
    | true => exact hmap ho _
    | false =>
      rcases Bool.and_eq_false_iff.mp ho with h | h
      · exact lowers_yieldAssign hrec hn hsmall (by simpa using h) block
      · exact lowers_yieldDefined hsmall (by simpa using h) block

end

lemma lowerYields_builds {e : Tree} (he : e.IsLowered) : Lowers [e.prune] (lowerYields e) ([·]) :=
  Builds.recurse (C := fun c p => Carries Tree.Alike c p ∧ Advances p)
    (fun _ h => everywhere_of_node? h) (fun _ h => prune_of_node? h) step_leaf
    (fun k c => ⟨carries_lowerYields k c, Advances.recurse k c⟩)
    (fun _ _ hrec hsmall k hn => lowers_yieldStep hrec hn hsmall k) none he

/-! ### Units -/

/-- What is known of a unit whose definitions have distinct identities. -/
structure UnitTree.IsDistinct (u : UnitTree) : Prop where
  lowered : u.tree.IsLowered
  distinct : ∀ i, u.tree.prune.copies i ≤ if i < u.nextId then 1 else 0

lemma UnitTree.pass_eq_ok {u u' : UnitTree} (h : u.pass f = .ok u') :
    f u.tree u.nextId = .ok u'.tree u'.nextId := by
  unfold UnitTree.pass at h
  split at h
  · rename_i tree nextId hf
    cases h
    exact hf
  · cases h

theorem UnitTree.lower_distinct {u u' : UnitTree} {folding : Bool} (h : u.lower folding = .ok u')
    (hs : u.tree.IsSource) (hd : ∀ i, u.tree.copies i ≤ if i < u.nextId then 1 else 0) :
    u'.IsDistinct := by
  obtain ⟨v, hv, h⟩ := except_bind_eq_ok.mp h
  obtain ⟨-, hle, hsha, hc⟩ := lowerStructure_builds hs (UnitTree.pass_eq_ok hv) trivial
  obtain ⟨w, hw, hwso, hn, hwd⟩ : ∃ w : UnitTree,
      (w.pass lowerSugar >>= fun u => u.pass lowerYields) = .ok u' ∧ w.tree.IsSource ∧
        w.nextId = v.nextId ∧ ∀ i, w.tree.copies i ≤ v.tree.copies i := by
    refine ⟨_, h, ?_⟩
    have hvso := forall_mem_singleton.mp hsha
    split
    · exact ⟨isSource_fold hvso, rfl, fun i => copies_fold_le i v.tree⟩
    · exact ⟨hvso, rfl, fun i => Nat.le_refl _⟩
  obtain ⟨x, hx, hu⟩ := except_bind_eq_ok.mp hw
  obtain ⟨-, hle', hsug, hc'⟩ := lowerSugar_builds hwso (UnitTree.pass_eq_ok hx) trivial
  obtain ⟨-, hle'', hy, hc''⟩ :=
    lowerYields_builds (hsug _ mem_cons_self) (UnitTree.pass_eq_ok hu) trivial
  refine ⟨hy _ mem_cons_self, fun i => ?_⟩
  have h0 := hd i
  have h1 := hc i
  have h2 := hwd i
  have h3 := hc' i
  have h4 := hc'' i
  simp only [map_cons, copiesIn_cons, copiesIn_nil, Counter.next, id] at hle hle' hle'' h1 h3 h4
  split at h0 <;> split at h1 <;> split at h3 <;> split at h4 <;> split <;> omega

end Garnet
