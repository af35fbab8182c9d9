import Garnet.Proofs.Tree.Building
import Garnet.Storage.Context

/-!
# Well-formed nodes

The nodes of most tags have a fixed number of children, and some of these are names or argument lists.
`Node.isFormed` checks this of one node. The functions that build nodes keep it for whole trees, and
predicates that ask more of protected bodies and of blocks only.
-/

namespace Garnet

open List Build Bool Builds

variable {cs items : List Tree} {name : String} {α : Type} {R : Tree → Tree → Prop} {tag : Tag}
  {e receiver : Tree} {n : Node}

namespace Tag

/-- The number of children of a node, for tags that fix it. -/
def arity? : Tag → Option Nat
  | .redo | .retry | .numArgs => some 0
  | .implicitSuper | .ret | .leave | .proceed | .not | .safeChain | .splat | .rest | .blockArg
  | .topPath => some 1
  | .assign | .loop | .doLoop | .lambda | .super | .and | .or | .path | .default | .keywordArg
  | .singletonClass | .moduleBody => some 2
  | .call | .cond | .method | .classBody => some 3
  | .send | .safeSend | .singletonMethod => some 4
  | _ => none

def namePlace? : Tag → Option Nat
  | .call | .default | .keywordArg | .topPath | .method => some 0
  | .send | .safeSend | .path | .singletonMethod => some 1
  | _ => none

/-- The tags of trees whose names are not resolved. -/
def isSource : Tag → Bool
  | .const | .procNew | .index | .function => false
  | _ => true

def isFlat : Tag → Bool
  | .rest | .blockArg => true
  | _ => false

/-- The place of the arguments or of the parameters. -/
def argsPlace? : Tag → Option Nat
  | .lambda | .super | .yield => some 0
  | .method | .call => some 1
  | .singletonMethod | .send | .safeSend => some 2
  | _ => none

/-- The tags of classes and modules, whose first child is a path of constants. -/
def isClass : Tag → Bool
  | .classBody | .moduleBody => true
  | _ => false

/-- The tags of nodes with parameters: blocks and methods. -/
def hasParams : Tag → Bool
  | .lambda | .method | .singletonMethod => true
  | _ => false

/-- The tags of nodes of which all passes ask the same. -/
def isPlain (t : Tag) : Bool := t != .protect && t != .opAssign && !t.hasParams

end Tag

/-- The names of classes and of constants at the top level start with a capital letter. -/
def Node.namesConstant (n : Node) : Bool := (!n.tag.isClass || (n.child 0).isConstantPath)
    && (n.tag != .topPath || (n.name? 0).any VarName.isConstant)

/-- A node with the right number of children and with names and argument lists in their places. -/
def Node.isFormed (n : Node) : Bool :=
  n.tag.isSource && n.tag.arity?.all (· == n.children.length) && n.namesConstant
    && n.tag.namePlace?.all (fun i => (n.name? i).isSome)
    && (!n.tag.isFlat || n.children.all fun c => c.node?.isNone)
    && n.tag.argsPlace?.all fun i => (n.child i).is .args

lemma Node.isFormed_mark (htag : tag = .rest ∨ tag = .blockArg) (span : Span) (id : Nat)
    (h : e.node? = none) : (Node.mk tag span id [e]).isFormed := by
  have hf : [e].all (fun c => c.node?.isNone) = true := by simp [h]
  rw [Node.isFormed, and_eq_true, and_eq_true]
  rcases htag with rfl | rfl <;> exact ⟨⟨rfl, hf⟩, rfl⟩

lemma Node.isFormed_topPath (h : VarName.isConstant name) {span : Span} {id : Nat} :
    (Node.mk .topPath span id [.name name]).isFormed := by
  simp [isFormed, namesConstant, child, name?, Tree.name?, Tag.isSource, Tag.arity?, Tag.isClass,
    Tag.namePlace?, Tag.isFlat, Tag.argsPlace?, h]

lemma Node.isFormed_class (htag : n.tag = .classBody ∨ n.tag = .moduleBody)
    (ha : n.tag.arity? = some n.children.length) (h : (n.child 0).isConstantPath) : n.isFormed := by
  rcases htag with htag | htag
  all_goals
    rw [htag] at ha
    simp [isFormed, namesConstant, htag, ha, Tag.isSource, Tag.namePlace?, Tag.isFlat, Tag.argsPlace?, h]

lemma Tree.node?_of_name? {v : String} (h : e.name? = some v) : e.node? = none := by
  cases e with
  | name v => rfl
  | _ => cases h

lemma Tree.eq_of_like {cs' : List Tree} (h : List.Forall₂ Tree.Like cs cs')
    (hl : ∀ c ∈ cs, c.node? = none) : cs' = cs := by
  induction h with
  | nil => rfl
  | cons hc _ ih =>
    rw [forall_mem_cons] at hl
    rw [hc.leaf hl.1, ih hl.2]

lemma Tree.Like.isConstantPath {c : Tree} (h : c.Like e) (hc : c.isConstantPath) : e.isConstantPath := by
  cases c with
  | node tag span id children =>
    have hp {e : Tree} (he : e.is .path || e.is .topPath) : e.isConstantPath := by
      cases e with
      | node => exact he
      | _ => cases he
    rcases Bool.or_eq_true _ _ |>.mp hc with hc | hc
    · exact hp (by rw [(h.fixed rfl hc).1]; rfl)
    · exact hp (by rw [(h.fixed rfl hc).1, Bool.or_true])
  | _ => exact h.leaf rfl ▸ hc

namespace Node

variable {n : Node} {k : Nat}

variable (h : n.isFormed)
include h

lemma length_of_isFormed (hk : n.tag.arity? = some k) : n.children.length = k := by
  simp only [isFormed, hk, Option.all_some, and_eq_true, beq_iff_eq] at h
  exact h.1.1.1.1.2.symm

lemma isSome_name?_of_isFormed (hk : n.tag.namePlace? = some k) : (n.name? k).isSome := by
  simp only [isFormed, hk, and_eq_true] at h
  exact h.1.1.2

lemma isArgs_of_isFormed (hk : n.tag.argsPlace? = some k) : (n.child k).is .args := by
  simp only [isFormed, hk, and_eq_true] at h
  exact h.2

lemma namesConstant_of_isFormed : n.namesConstant := by
  simp only [isFormed, and_eq_true] at h
  exact h.1.1.1.2

/-- A node stays well-formed with as many children and the same names, and with lists for lists. -/
lemma isFormed_of_names (hlen : cs.length = n.children.length)
    (hname : ∀ k, n.tag.namePlace? = some k → (Node.mk n.tag n.span n.id cs).name? k = n.name? k)
    (hf : n.tag.isFlat = false) (hc : (Node.mk n.tag n.span n.id cs).namesConstant)
    (ha : ∀ k, n.tag.argsPlace? = some k → ((Node.mk n.tag n.span n.id cs).child k).is .args) :
    (Node.mk n.tag n.span n.id cs).isFormed := by
  simp only [isFormed, and_eq_true] at h ⊢
  obtain ⟨⟨⟨⟨⟨hs, hari⟩, -⟩, hn⟩, -⟩, -⟩ := h
  refine ⟨⟨⟨⟨⟨hs, hlen ▸ hari⟩, hc⟩, ?_⟩, ?_⟩, ?_⟩
  · cases hp : n.tag.namePlace? with
    | none => rfl
    | some k =>
      rw [hp] at hn
      rwa [Option.all_some, hname k hp]
  · rw [hf]
    rfl
  · cases hp : n.tag.argsPlace? with
    | none => rfl
    | some k => exact ha k hp

omit h in
lemma child_forall₂ (habsent : R .absent .absent) (h : List.Forall₂ R n.children cs) (k : Nat) :
    R (n.child k) ((Node.mk n.tag n.span n.id cs).child k) := by
  obtain ⟨tag, span, id, children⟩ := n
  simp only [child] at h ⊢
  induction h generalizing k with
  | nil => exact habsent
  | cons hc _ ih =>
    cases k with
    | zero => exact hc
    | succ k => exact ih k

omit h in
lemma namesConstant_of_like (h : n.namesConstant)
    (hchild : (n.child 0).Like ((Node.mk n.tag n.span n.id cs).child 0)) :
    (Node.mk n.tag n.span n.id cs).namesConstant := by
  simp only [namesConstant, and_eq_true, or_eq_true] at h ⊢
  refine ⟨h.1.imp_right hchild.isConstantPath, h.2.imp_right fun hname => ?_⟩
  cases hv : n.name? 0 with
  | none =>
    rw [hv] at hname
    cases hname
  | some v =>
    rwa [name?, hchild.leaf (Tree.node?_of_name? hv)]

/-- A node stays well-formed with children that stand in the places of its own. -/
lemma isFormed_of_like (hcs : List.Forall₂ Tree.Like n.children cs) :
    (Node.mk n.tag n.span n.id cs).isFormed := by
  have hlen := hcs.length_eq
  have hchild := child_forall₂ (.refl .absent) hcs
  simp only [isFormed, Bool.and_eq_true] at h ⊢
  obtain ⟨⟨⟨⟨⟨hsou, hari⟩, hcon⟩, hname⟩, hfl⟩, ha⟩ := h
  refine ⟨⟨⟨⟨⟨hsou, hlen ▸ hari⟩, namesConstant_of_like hcon (hchild 0)⟩, ?_⟩, ?_⟩, ?_⟩
  · cases hp : n.tag.namePlace? with
    | none => rfl
    | some k =>
      rw [hp, Option.all_some, Option.isSome_iff_exists] at hname
      obtain ⟨v, hv⟩ := hname
      have hs := (hchild k).leaf (Tree.node?_of_name? hv)
      rw [Option.all_some, name?, hs]
      exact Option.isSome_of_eq_some hv
  · cases hf : n.tag.isFlat with
    | false => rfl
    | true =>
      rw [hf, Bool.not_true, Bool.false_or, all_eq_true] at hfl
      have hs : cs = n.children :=
        Tree.eq_of_like hcs fun c hc => Option.isNone_iff_eq_none.mp (hfl c hc)
      rwa [Bool.not_true, Bool.false_or, all_eq_true, hs]
  · cases hp : n.tag.argsPlace? with
    | none => rfl
    | some k =>
      rw [hp] at ha
      exact ((hchild k).fixed rfl ha).1

end Node

/-! ### Trees before any pass -/

/-- What the parser takes as the target of an assignment. -/
def Tree.isTarget : Tree → Bool
  | .node .safeChain _ _ (inner :: _) => inner.isTarget
  | .node tag _ _ _ =>
    [Tag.send, .safeSend, .path, .topPath, .splat, .safeChain].contains tag
  | _ => true

/-- A node of a tree before any pass. -/
structure Node.IsSource (n : Node) : Prop where
  formed : n.isFormed
  clauses : n.tag = .protect → 3 ≤ n.children.length
  target : n.tag = .opAssign → (n.child 0).isTarget

/-- The tags of nodes that need no more than the right children. -/
def Tag.isFree (t : Tag) : Bool := t != .protect && t != .opAssign

/-- All nodes of the tree are those of a tree before any pass. -/
abbrev Tree.IsSource (e : Tree) : Prop := e.Everywhere Node.IsSource

open Garnet.Tree

/-! ### Nodes with new children -/

section

variable {k : List Nat} {ε σ : Type} [Counts] [Counter σ] {G : Tree → Prop} {n : Node}
  {f : Tree → EStateM ε σ Tree} {p : EStateM ε σ α} {outs : α → List Tree} {G : Tree → Prop}

lemma builds_mapChildren (h : ∀ c ∈ n.children, Builds G [c] (f c) ([·]))
    (hl : ∀ c ∈ n.children, Carries R c (f c))
    (hG : ∀ cs : List Tree, List.Forall₂ R n.children cs → (∀ c ∈ cs, G c) → G (n.rebuild cs)) :
    Builds G [n.tree] (n.mapChildren f) ([·]) := by
  intro s e s' he hs
  obtain ⟨cs, hcs, rfl⟩ := mapChildren_eq_ok he
  obtain ⟨hs', hle, hall, hd⟩ := mapM h hcs hs
  refine ⟨hs', hle, forall_mem_singleton.mpr (hG cs (mapM_forall₂ hcs hl) hall), fun i => ?_⟩
  have hi := hd i
  simp only [copiesIn_cons, Node.rebuild, Node.tree, copies, id] at hi ⊢
  omega

lemma Builds.ofAll (h : Builds G n.children p outs) : Builds G [n.tree] p outs := by
  refine h.mono fun i => ?_
  have hle := copiesIn_children_le i n.tree
  exact Nat.le_trans hle (Nat.le_add_right _ _)

lemma Builds.ofChildren (hk : k.Nodup) (h : Builds G (k.map n.child) p outs) : Builds G [n.tree] p outs :=
  .ofAll (h.mono fun i => copiesIn_map_child i n hk)

lemma Builds.ofShell (hk : k.Nodup) (h : Builds G (n.rebuild [] :: k.map n.child) p outs) :
    Builds G [n.tree] p outs := by
  refine h.mono fun i => ?_
  have hle := copiesIn_map_child i n hk
  simp only [copiesIn_cons, Node.rebuild, Node.tree, copies]
  omega

lemma builds_rebuild {ins : List Tree} (h : G (n.rebuild cs)) (hd : Within (n.rebuild [] :: cs) ins) :
    Builds G ins (pure (n.rebuild cs) : EStateM ε σ Tree) ([·]) := by
  refine .pure (forall_mem_singleton.mpr h) fun i => ?_
  have hi := hd i
  simp only [Node.rebuild, copies, copiesIn_cons] at hi ⊢
  omega

end

/-! ### New nodes -/

lemma isSource_node (h : n.isFormed) (htag : n.tag.isFree)
    (hcs : ∀ c ∈ n.children, c.IsSource) : n.tree.IsSource := by
  refine everywhere_node.mpr ⟨⟨h, fun hp => ?_, fun ha => ?_⟩, hcs⟩
  · rw [hp] at htag
    cases htag
  · rw [ha] at htag
    cases htag

lemma isSource_rebuild (h : n.tree.IsSource) {t : Tag} (htag : n.tag = t) (hfr : t.isFree)
    (hfl : t.isFlat = false) (ha : t.arity? = some cs.length)
    (hc : (Node.mk t n.span n.id cs).namesConstant) (hcs : ∀ c ∈ cs, c.IsSource)
    (hname : ∀ k, t.namePlace? = some k → (Node.mk n.tag n.span n.id cs).name? k = n.name? k)
    (har : ∀ k, t.argsPlace? = some k → (cs[k]?.getD .absent).is .args) :
    (n.rebuild cs).IsSource := by
  subst htag
  have hf := (everywhere_node.mp h).1.formed
  have hlen := (Node.length_of_isFormed hf ha).symm
  exact isSource_node (Node.isFormed_of_names hf hlen hname hfl hc har) hfr hcs

lemma isSource_of_isPlain (h : n.isFormed) (hp : n.tag.isPlain) : n.IsSource := by
  simp only [Tag.isPlain, and_eq_true, bne_iff_ne] at hp
  exact ⟨h, fun htag => absurd htag hp.1.1, fun htag => absurd htag hp.1.2⟩

lemma copies_of_send {ε σ : Type} [Fresh (EStateM ε σ)] {span : Span} {s s' : σ}
    (h : (send span receiver name items : EStateM ε σ Tree) s = .ok e s') (i : Nat) :
    e.copies i = receiver.copies i + copiesIn i items := by
  obtain ⟨args, t, ha, he⟩ := bind_eq_ok.mp h
  rw [copies_of_node he rfl]
  simp [copies_of_node ha rfl]

section

variable {stem : String} {ε σ : Type} [Counts] [Counter σ] [Fresh (EStateM ε σ)] [LawfulFresh ε σ]
  {G : Tree → Prop} {ins : List Tree} {span : Span}

lemma builds_fresh : Builds G ins (Fresh.fresh : EStateM ε σ Nat) fun _ => [] := by
  intro s a s' h hs
  obtain ⟨t, ht, hn, hok⟩ := @LawfulFresh.fresh_eq ε σ _ _ _ s
  cases ht.symm.trans h
  exact ⟨hok hs, by omega, fun e he => (by cases he), fun i => Nat.zero_le _⟩

lemma Builds.withTemp {k : String → EStateM ε σ α} {outs : α → List Tree}
    (h : ∀ name, Builds G ins (k name) outs) :
    Builds G ins (temp stem >>= k) outs := by
  have ht : Builds G [] (temp stem : EStateM ε σ String) fun _ => [] :=
    .bind [] (u := []) (H := G) builds_fresh (fun a _ => .pure (by simp) .rfl) .rfl
  exact .bind ins ht (fun name _ => h name) .rfl

lemma Builds.withTempName {k : Tree → EStateM ε σ α} {outs : α → List Tree}
    (h : ∀ name, Builds G ins (k (.name name)) outs) :
    Builds G ins (Tree.name <$> temp stem >>= k) outs := by
  rw [bind_map_left]
  exact .withTemp h

lemma builds_source (htag : tag.isFree) (hf : (Node.mk tag span 0 cs).isFormed)
    (hcs : ∀ c ∈ cs, c.IsSource) (hd : Within cs ins) :
    Builds Tree.IsSource ins (node tag span cs : EStateM ε σ Tree) ([·]) :=
  node (fun id => isSource_node (n := ⟨tag, span, id, cs⟩) hf htag hcs) hd

lemma builds_protect (hcs : ∀ c ∈ cs, c.IsSource) (hlen : 3 ≤ cs.length) (hd : Within cs ins) :
    Builds Tree.IsSource ins (node .protect span cs : EStateM ε σ Tree) ([·]) :=
  node (fun id => everywhere_node (n := ⟨.protect, span, id, cs⟩) |>.mpr
    ⟨⟨rfl, fun _ => hlen, nofun⟩, hcs⟩) hd

variable {P : Node → Prop} (hP : ∀ {n : Node}, n.isFormed → n.tag.isPlain → P n)
include hP

lemma builds_plain (hp : tag.isPlain) (hf : (Node.mk tag span 0 cs).isFormed)
    (hcs : ∀ c ∈ cs, c.Everywhere P) (hd : Within cs ins) :
    Builds (Everywhere P) ins (node tag span cs : EStateM ε σ Tree) ([·]) :=
  node (fun id => everywhere_node (n := ⟨tag, span, id, cs⟩) |>.mpr ⟨hP hf hp, hcs⟩) hd

lemma builds_args (hite : ∀ c ∈ items, c.Everywhere P) (hd : Within items ins) :
    Builds (fun e => e.Everywhere P ∧ e.is .args) ins (args span items : EStateM ε σ Tree) ([·]) := by
  refine (builds_plain hP rfl rfl hite hd).also fun _ ⟨_, _, _, h⟩ => ?_
  exact forall_mem_singleton.mpr (is_of_node h)

lemma builds_send (hr : receiver.Everywhere P) (hite : ∀ c ∈ items, c.Everywhere P)
    (hd : Within (receiver :: items) ins) :
    Builds (Everywhere P) ins (send span receiver name items : EStateM ε σ Tree) ([·]) := by
  refine bind [receiver] (builds_args hP hite .rfl) (fun args ha => ?_) (by grind)
  obtain ⟨ha, hl⟩ := forall_mem_singleton.mp ha
  refine builds_plain hP rfl hl ?_ (by grind)
  simp_all

lemma builds_seq {stmts : List Tree} (hs : ∀ c ∈ stmts, c.Everywhere P) (hd : Within stmts ins) :
    Builds (Everywhere P) ins (seq span stmts : EStateM ε σ Tree) ([·]) :=
  builds_plain hP rfl rfl hs hd

lemma builds_setter {n : Node} (htag : n.tag = .send ∨ n.tag = .safeSend) {value : Tree}
    (hn : n.tree.Everywhere P) (hv : value.Everywhere P)
    (hd : Within [n.tree, value] ins) :
    Builds (Everywhere P) ins (do
        let items ← args span ((n.child 2).children ++ [value])
        node n.tag span [n.child 0, .name (setter name), items, .absent] : EStateM ε σ Tree)
      ([·]) := by
  refine bind [n.child 0] (builds_args hP ?_ .rfl) (fun items hite => ?_) fun i => ?_
  · exact forall_mem_append.mpr ⟨(hn.child 2).children, forall_mem_singleton.mpr hv⟩
  · obtain ⟨hite, hl⟩ := forall_mem_singleton.mp hite
    refine builds_plain hP ?_ ?_ ?_ (by grind)
    · rcases htag with htag | htag <;> rw [htag] <;> rfl
    · rcases htag with htag | htag <;> rw [htag] <;> exact hl
    · have hr := hn.child 0
      simp_all
  · have hi := hd i
    have hle := copiesIn_children_le i (n.child 2)
    have hp := copies_child_add_le i n (show 0 ≠ 2 by decide)
    simp at hi ⊢
    omega

lemma builds_assign {target value : Tree} (ht : target.Everywhere P) (hv : value.Everywhere P)
    (hd : Within [target, value] ins) :
    Builds (Everywhere P) ins (assign target value span : EStateM ε σ Tree) ([·]) := by
  have hn {target} (ht : target.Everywhere P) (hd : Within [target, value] ins) :
      Builds (Everywhere P) ins (node .assign span [target, value] : EStateM ε σ Tree) ([·]) := by
    refine builds_plain hP rfl rfl ?_ hd
    simp_all
  have hc e (he : ∀ c ∈ [e], c.Everywhere P) :
      Builds (Everywhere P) ([e] ++ []) (node .safeChain span [e] : EStateM ε σ Tree) ([·]) :=
    builds_plain hP rfl rfl he .rfl
  fun_induction assign (m := EStateM ε σ) target value span with
  | case1 s id inner tail ih =>
    refine bind [] (ih ?_ fun i => ?_) hc (by grind)
    · exact ht.children inner mem_cons_self
    · have hi := hd i
      simp only [copies, copiesIn_cons] at hi ⊢
      omega
  | case2 s id =>
    refine bind [] (hn (everywhere_of_node? rfl) fun i => ?_) hc (by grind)
    have hi := hd i
    simp only [copiesIn_cons, copies_absent] at hi ⊢
    omega
  | case3 s id children name _ _ n =>
    exact builds_setter hP (.inl rfl) ht hv hd
  | case4 s id children name _ _ n =>
    exact builds_setter hP (.inr rfl) ht hv hd
  | case5 tag s id children | case6 t => exact hn ht hd

end

end Garnet
