import Garnet.Lowering.Pass
import Garnet.Proofs.Outcome
import Garnet.Proofs.Tree.Everywhere
import Mathlib.Data.List.Perm.Subperm

/-!
# Building trees

Passes build trees out of trees, and take a new identity for each node they make. `Builds` says that the trees a
computation gives satisfy a predicate, and that it uses each node it is given once at most: the nodes with one
identity become more only by those made on the way, each with an identity of its own.

Which nodes are counted is a matter of the pass (`Counts`). The parser uses every node once. The passes behind it
copy parts of trees, but no definitions, which keep distinct identities and are known by them later. These are
counted unless something else is said.
-/

namespace Garnet

open List

variable {e : Tree} {γ κ : Type} {n : Node}

def Tag.isDefinition : Tag → Bool
  | .method | .singletonMethod | .classBody | .moduleBody | .singletonClass => true
  | _ => false

/-- Which nodes are counted, by their tags. -/
class Counts where
  isCounted : Tag → Bool

instance Counts.definitions : Counts := ⟨Tag.isDefinition⟩

@[simp]
lemma Counts.isCounted_definitions (t : Tag) : Counts.isCounted t = t.isDefinition := rfl

lemma Node.map_child_range (n : Node) {k : Nat} (h : n.children.length = k) :
    (range k).map n.child = n.children := by
  subst h
  refine ext_getElem (by simp) fun k hk hk' => ?_
  simp [Node.child, getElem?_eq_getElem hk']

lemma Node.mem_of_is {k : Nat} {t : Tag} (h : (n.child k).is t) : n.child k ∈ n.children := by
  rw [Node.child] at h ⊢
  cases hc : n.children[k]? with
  | none =>
    rw [hc] at h
    cases h
  | some c => exact mem_of_getElem? hc

namespace Tree

mutual

/-- How many nodes with identity `i` a tree holds, of those that are counted. -/
def copies [Counts] (i : Nat) : Tree → Nat
  | .node tag _ id children =>
    copiesIn i children + if Counts.isCounted tag && id == i then 1 else 0
  | _ => 0

/-- How many nodes with identity `i` the trees of a list hold, of those that are counted. -/
def copiesIn [Counts] (i : Nat) : List Tree → Nat
  | [] => 0
  | e :: es => copies i e + copiesIn i es

end

section

variable {es : List Tree} [Counts] (i : Nat)

@[simp, grind =]
lemma copiesIn_nil : copiesIn i [] = 0 := rfl

@[simp, grind =]
lemma copiesIn_cons (e : Tree) (es : List Tree) : copiesIn i (e :: es) = copies i e + copiesIn i es := rfl

@[simp, grind =]
lemma copiesIn_append (es es' : List Tree) : copiesIn i (es ++ es') = copiesIn i es + copiesIn i es' := by
  induction es with
  | nil => simp
  | cons e es ih => simp [ih, Nat.add_assoc]

@[simp, grind =]
lemma copiesIn_reverse : copiesIn i es.reverse = copiesIn i es := by
  induction es with
  | nil => rfl
  | cons e es ih => simp [ih, Nat.add_comm]

@[simp, grind =]
lemma copies_absent : copies i .absent = 0 := rfl

@[simp, grind =]
lemma copies_name (v : String) : copies i (.name v) = 0 := rfl

@[simp, grind =]
lemma copies_sym (s : String) : copies i (.sym s) = 0 := rfl

@[simp, grind =]
lemma copies_str (b : Bytes) : copies i (.str b) = 0 := rfl

@[simp, grind =]
lemma copies_int (n : Int) : copies i (.int n) = 0 := rfl

lemma copies_of_node? (h : e.node? = none) : e.copies i = 0 := by
  cases e with
  | node tag span id children => cases h
  | _ => rfl

lemma copiesIn_eq_zero (h : ∀ e ∈ es, e.copies i = 0) : copiesIn i es = 0 := by
  induction es with
  | nil => rfl
  | cons e es ih => rw [copiesIn_cons, h e mem_cons_self, ih fun c hc => h c (mem_cons_of_mem e hc)]

lemma copiesIn_eraseIdx {k : Nat} (h : es[k]? = some e) :
    copiesIn i es = copies i e + copiesIn i (es.eraseIdx k) := by
  induction es generalizing k with
  | nil => cases h
  | cons c cs ih =>
    cases k with
    | zero =>
      cases h
      rfl
    | succ k =>
      rw [eraseIdx_cons_succ, copiesIn_cons, copiesIn_cons, ih h]
      omega

lemma copies_le_of_mem (h : e ∈ es) : e.copies i ≤ copiesIn i es := by
  obtain ⟨k, hk⟩ := mem_iff_getElem?.mp h
  rw [copiesIn_eraseIdx i hk]
  omega

lemma copiesIn_perm {es' : List Tree} (h : es.Perm es') : copiesIn i es = copiesIn i es' := by
  induction h with
  | nil => rfl
  | cons e _ ih => simp [ih]
  | swap a b es =>
    simp only [copiesIn_cons]
    omega
  | trans _ _ ih ih' => exact ih.trans ih'

lemma copiesIn_sublist {es' : List Tree} (h : es.Sublist es') : copiesIn i es ≤ copiesIn i es' := by
  induction h with
  | slnil => exact Nat.le_refl _
  | cons a _ ih =>
    rw [copiesIn_cons]
    omega
  | cons_cons a _ ih =>
    rw [copiesIn_cons, copiesIn_cons]
    omega

lemma copiesIn_filterMap_node? :
    copiesIn i ((es.filterMap node?).map Node.tree) = copiesIn i es := by
  induction es with
  | nil => rfl
  | cons e es ih =>
    cases hn : e.node? with
    | none => rw [filterMap_cons_none hn, copiesIn_cons, copies_of_node? i hn, ih, Nat.zero_add]
    | some n =>
      rw [filterMap_cons_some hn, map_cons, copiesIn_cons, copiesIn_cons, ih, tree_of_node? hn]

lemma copiesIn_child_zero_add_tail (n : Node) :
    (n.child 0).copies i + copiesIn i n.children.tail = copiesIn i n.children := by
  obtain ⟨tag, span, id, children⟩ := n
  cases children with
  | nil => rfl
  | cons c cs => rfl

lemma copiesIn_children_le (e : Tree) : copiesIn i e.children ≤ e.copies i := by
  cases e with
  | node tag span id children => exact Nat.le_add_right _ _
  | _ => exact Nat.zero_le _

lemma copies_bare_add (n : Node) :
    (node n.tag n.span n.id []).copies i + copiesIn i n.children = n.tree.copies i := by
  simp [copies, Node.tree, Nat.add_comm]

lemma copiesIn_map_child (n : Node) {ks : List Nat} (h : ks.Nodup) :
    copiesIn i (ks.map n.child) ≤ copiesIn i n.children := by
  have hw : copiesIn i (ks.map n.child) =
      copiesIn i ((ks.filter (· < n.children.length)).map n.child) := by
    clear h
    induction ks with
    | nil => rfl
    | cons k ks ih =>
      rw [map_cons, copiesIn_cons, ih, filter_cons]
      split
      · rw [map_cons, copiesIn_cons]
      · rename_i hk
        have ha : n.child k = .absent := by
          rw [Node.child, getElem?_eq_none (by simpa using hk), Option.getD_none]
        rw [ha, copies_absent, Nat.zero_add]
  have hsub : (ks.filter (· < n.children.length)).Subperm (range n.children.length) := by
    refine subperm_of_subset (h.filter _) fun k hk => ?_
    simpa using (mem_filter.mp hk).2
  obtain ⟨places, hp, hpla⟩ := hsub
  rw [hw, ← copiesIn_perm i (hp.map n.child)]
  have hes := hpla.map n.child
  rw [n.map_child_range rfl] at hes
  exact copiesIn_sublist i hes

lemma copies_child_le (n : Node) (k : Nat) : (n.child k).copies i ≤ n.tree.copies i := by
  have hk := copiesIn_map_child i n (pairwise_singleton _ k)
  have hn := copiesIn_children_le i n.tree
  exact Nat.le_trans hk hn

lemma copies_child_add_le (n : Node) {k l : Nat} (h : k ≠ l) :
    (n.child k).copies i + (n.child l).copies i ≤ n.tree.copies i := by
  have hk := copiesIn_map_child i n (show [k, l].Nodup by simp [h])
  have hn := copiesIn_children_le i n.tree
  exact Nat.le_trans hk hn

end

end Tree

/-! ### What a walk keeps -/

/-- The tags of nodes that every pass keeps, with as many children. -/
def Tag.isFixed : Tag → Bool
  | .args | .rest | .blockArg | .rescue | .path | .topPath | .splat => true
  | _ => false

/-- A tree in the place of another one: a name or a literal stays what it is, and a node with a fixed
tag keeps its tag and the number of its children. -/
structure Tree.Like (c e : Tree) : Prop where
  leaf : c.node? = none → e = c
  fixed : ∀ {t : Tag}, t.isFixed → c.is t → e.is t ∧ e.children.length = c.children.length

lemma Tree.Like.refl (c : Tree) : c.Like c := ⟨fun _ => rfl, fun _ h => ⟨h, rfl⟩⟩

section

variable {ε σ : Type}

/-- The computation gives a tree that is related to `c`. -/
def Carries (R : γ → Tree → Prop) (c : γ) (p : EStateM ε σ Tree) : Prop := ∀ ⦃s e s'⦄, p s = .ok e s' → R c e

lemma mapM_forall₂ {R : γ → Tree → Prop} {cs : List γ} {cs' : List Tree} {f : γ → EStateM ε σ Tree}
    {s s' : σ} (h : cs.mapM f s = .ok cs' s') (hf : ∀ c ∈ cs, Carries R c (f c)) :
    List.Forall₂ R cs cs' := by
  induction cs generalizing cs' s with
  | nil =>
    cases h
    exact .nil
  | cons c cs ih =>
    rw [mapM_cons] at h
    obtain ⟨c', t, hc, h⟩ := bind_eq_ok.mp h
    obtain ⟨cs', t', hcs, h⟩ := bind_eq_ok.mp h
    cases h
    exact .cons (hf c mem_cons_self hc) (ih hcs fun d hd => hf d (mem_cons_of_mem c hd))

lemma mapChildren_eq_ok {f : Tree → EStateM ε σ Tree} {s s' : σ} (h : n.mapChildren f s = .ok e s') :
    ∃ cs, n.children.mapM f s = .ok cs s' ∧ e = n.rebuild cs := by
  obtain ⟨cs, t, hcs, h⟩ := bind_eq_ok.mp h
  cases h
  exact ⟨cs, hcs, rfl⟩

lemma carries_mapChildren (n : Node) (f : Tree → EStateM ε σ Tree) :
    Carries Tree.Like n.tree (n.mapChildren f) := by
  intro s e s' h
  obtain ⟨cs, hcs, rfl⟩ := mapChildren_eq_ok h
  refine ⟨nofun, fun _ ht => ⟨ht, ?_⟩⟩
  exact (mapM_forall₂ hcs fun _ _ _ _ _ _ => trivial).length_eq.symm

/-- A walk that keeps names and literals, and treats nodes with fixed tags child by child. -/
lemma carries_recurse {step : (κ → Tree → EStateM ε σ Tree) → κ → Tree → EStateM ε σ Tree}
    (hle : ∀ rec k e, e.node? = none → step rec k e = pure e)
    (hf : ∀ rec k (n : Node), n.tag.isFixed → ∃ l, step rec k n.tree = n.mapChildren (rec l)) (k : κ)
    (c : Tree) : Carries Tree.Like c (Tree.recurse step k c) := by
  rw [Tree.recurse_eq]
  cases hno : c.node? with
  | none =>
    rw [hle _ _ _ hno]
    intro s e s' h
    cases h
    exact .refl c
  | some n =>
    cases Tree.tree_of_node? hno
    cases hn : n.tag.isFixed with
    | true =>
      obtain ⟨l, hl⟩ := hf _ k n hn
      rw [hl]
      exact carries_mapChildren n _
    | false =>
      refine fun s e s' _ => ⟨nofun, fun {t} ht htag => ?_⟩
      rw [← beq_iff_eq.mp htag, hn] at ht
      cases ht

end

/-! ### Computations that build trees -/

namespace Tree

variable [Counts]

/-- No identity counts more often in the trees `cs` than in the trees `ins`. -/
def Within (cs ins : List Tree) : Prop := ∀ i, copiesIn i cs ≤ copiesIn i ins

@[grind =]
lemma within_iff {cs ins : List Tree} : Within cs ins ↔ ∀ i, copiesIn i cs ≤ copiesIn i ins := Iff.rfl

lemma Within.rfl {cs : List Tree} : Within cs cs := fun _ => Nat.le_refl _

end Tree

/-- The states of passes say which identity comes next. What `Ok` says of a state is kept. -/
class Counter (σ : Type) where
  next : σ → Nat
  Ok : σ → Prop

/-- New identities are given out in order. -/
class LawfulFresh (ε σ : Type) [Counter σ] [Fresh (EStateM ε σ)] : Prop where
  fresh_eq : ∀ s : σ, ∃ s', (Fresh.fresh : EStateM ε σ Nat) s = .ok (Counter.next s) s' ∧
    Counter.next s' = Counter.next s + 1 ∧ (Counter.Ok s → Counter.Ok s')

open Counter Garnet.Tree

section

variable {c : Prop} {ε σ α β : Type} [Counts] [Counter σ]

/-- The computation takes no identity. -/
class Quiet (p : EStateM ε σ α) : Prop where
  next_eq : ∀ ⦃s a s'⦄, p s = .ok a s' → Ok s → Ok s' ∧ next s' = next s

/-- The computation builds the trees `outs` out of the trees `ins`, and what it gives satisfies `Q`. -/
def BuildsAs (Q : α → Prop) (ins : List Tree) (p : EStateM ε σ α) (outs : α → List Tree) : Prop :=
  ∀ ⦃s a s'⦄, p s = .ok a s' → Ok s → Ok s' ∧ next s ≤ next s' ∧ Q a ∧
    ∀ i, copiesIn i (outs a) ≤ copiesIn i ins + if next s ≤ i ∧ i < next s' then 1 else 0

/-- The computation builds the trees `outs`, which satisfy `G`, out of the trees `ins`. -/
def Builds (G : Tree → Prop) (ins : List Tree) (p : EStateM ε σ α) (outs : α → List Tree) : Prop :=
  BuildsAs (fun a => ∀ e ∈ outs a, G e) ins p outs

/-- The computation can give `a`. -/
def Gives (p : EStateM ε σ α) (a : α) : Prop := ∃ s s', Ok s ∧ p s = .ok a s'

namespace BuildsAs

variable {R : α → Prop} {Q : β → Prop} {ins u : List Tree} {p : EStateM ε σ α} {k : α → EStateM ε σ β}
  {mid : α → List Tree} {outs : β → List Tree}

lemma pure {b : β} (hQ : Q b) (hd : Within (outs b) ins) :
    BuildsAs Q ins (pure b : EStateM ε σ β) outs := by
  intro s b s' h hs
  cases h
  exact ⟨hs, Nat.le_refl _, hQ, fun i => Nat.le_trans (hd i) (Nat.le_add_right _ _)⟩

lemma ite [Decidable c] {p q : EStateM ε σ α} (hp : BuildsAs R ins p mid) (hq : BuildsAs R ins q mid) :
    BuildsAs R ins (if c then p else q) mid := by
  split
  · exact hp
  · exact hq

lemma bindOf (r : List Tree) (hp : BuildsAs R u p mid)
    (hk : ∀ a, Gives p a → R a → BuildsAs Q (mid a ++ r) (k a) outs)
    (hins : Within (u ++ r) ins) :
    BuildsAs Q ins (p >>= k) outs := by
  intro s b s' h hs
  obtain ⟨a, t, ha, hb⟩ := bind_eq_ok.mp h
  obtain ⟨ht, hle, hR, hd⟩ := hp ha hs
  obtain ⟨hs', hle', hQ, hd'⟩ := hk a ⟨s, t, hs, ha⟩ hR hb ht
  refine ⟨hs', Nat.le_trans hle hle', hQ, fun i => ?_⟩
  have hmid := hd i
  have hout := hd' i
  have hin := hins i
  rw [copiesIn_append] at hin hout
  -- an identity is taken in one of the two at most
  split at hmid <;> split at hout <;> split <;> omega

lemma after (hp : BuildsAs R [] p mid) (hk : ∀ a, R a → BuildsAs Q (mid a ++ ins) (k a) outs) :
    BuildsAs Q ins (p >>= k) outs :=
  bindOf ins hp (fun a _ => hk a) .rfl

lemma quietOf (hp : Quiet p) (hk : ∀ a, Gives p a → BuildsAs Q ins (k a) outs) :
    BuildsAs Q ins (p >>= k) outs := by
  intro s b s' h hs
  obtain ⟨a, t, ha, hb⟩ := bind_eq_ok.mp h
  obtain ⟨ht, hn⟩ := hp.next_eq ha hs
  rw [← hn]
  exact hk a ⟨s, t, hs, ha⟩ hb ht

lemma quiet [hp : Quiet p] (hk : ∀ a, BuildsAs Q ins (k a) outs) : BuildsAs Q ins (p >>= k) outs :=
  quietOf hp fun a _ => hk a

end BuildsAs

namespace Builds

variable {cs ins u r : List Tree} {G H : Tree → Prop} {p : EStateM ε σ α} {k : α → EStateM ε σ β}
  {mid : α → List Tree} {outs : β → List Tree}

lemma pure {a : β} (hG : ∀ e ∈ outs a, G e) (hd : Within (outs a) ins) :
    Builds G ins (pure a : EStateM ε σ β) outs :=
  BuildsAs.pure hG hd

lemma throw {e : ε} : Builds G ins (throw e : EStateM ε σ β) outs := fun _ _ _ h _ => absurd h throw_ne_ok

lemma throw_bind {e : ε} : Builds G ins ((MonadExcept.throw e : EStateM ε σ α) >>= k) outs := by
  intro s b s' h
  obtain ⟨a, t, ha, -⟩ := bind_eq_ok.mp h
  cases ha

lemma ite [Decidable c] {p q : EStateM ε σ α} (hp : Builds G ins p mid) (hq : Builds G ins q mid) :
    Builds G ins (if c then p else q) mid :=
  BuildsAs.ite hp hq

lemma mono {ins' : List Tree} (h : Builds G ins p mid) (hins : Within ins ins') : Builds G ins' p mid := by
  intro s a s' hp hs
  obtain ⟨hs', hle, hG, hd⟩ := h hp hs
  exact ⟨hs', hle, hG, fun i => Nat.le_trans (hd i) (Nat.add_le_add_right (hins i) _)⟩

lemma weaken (h : Builds G ins p mid) (hGH : ∀ e, G e → H e) : Builds H ins p mid := by
  intro s a s' hp hs
  obtain ⟨hs', hle, hG, hd⟩ := h hp hs
  exact ⟨hs', hle, fun e he => hGH e (hG e he), hd⟩

lemma bindOf (r : List Tree) (hp : Builds H u p mid)
    (hk : ∀ a, Gives p a → (∀ e ∈ mid a, H e) → Builds G (mid a ++ r) (k a) outs)
    (hins : Within (u ++ r) ins) :
    Builds G ins (p >>= k) outs :=
  BuildsAs.bindOf r hp hk hins

lemma bind (r : List Tree) (hp : Builds H u p mid)
    (hk : ∀ a, (∀ e ∈ mid a, H e) → Builds G (mid a ++ r) (k a) outs)
    (hins : Within (u ++ r) ins) :
    Builds G ins (p >>= k) outs :=
  bindOf r hp (fun a _ => hk a) hins

lemma after (hp : Builds H [] p mid) (hk : ∀ a, (∀ e ∈ mid a, H e) → Builds G (mid a ++ ins) (k a) outs) :
    Builds G ins (p >>= k) outs :=
  bind ins hp hk .rfl

lemma quietOf (hp : Quiet p) (hk : ∀ a, Gives p a → Builds G ins (k a) outs) :
    Builds G ins (p >>= k) outs :=
  BuildsAs.quietOf hp hk

lemma quiet [hp : Quiet p] (hk : ∀ a, Builds G ins (k a) outs) : Builds G ins (p >>= k) outs :=
  quietOf hp fun a _ => hk a

lemma also (h : Builds G ins p mid) (hH : ∀ a, Gives p a → ∀ e ∈ mid a, H e) :
    Builds (fun e => G e ∧ H e) ins p mid := by
  intro s a s' hp hs
  obtain ⟨hs', hle, hG, hd⟩ := h hp hs
  exact ⟨hs', hle, fun e he => ⟨hG e he, hH a ⟨s, s', hs, hp⟩ e he⟩, hd⟩

lemma gather {f : γ → EStateM ε σ α} {u : γ → List Tree} {as : List γ}
    (h : ∀ a ∈ as, Builds G (u a) (f a) mid) :
    Builds G (as.flatMap u) (as.mapM f) fun bs => bs.flatMap mid := by
  induction as with
  | nil => exact pure (fun e he => by cases he) .rfl
  | cons a as ih =>
    rw [mapM_cons]
    refine bind (as.flatMap u) (h a mem_cons_self) (fun b hb => ?_) .rfl
    refine bind (mid b) (ih fun c hc => h c (mem_cons_of_mem a hc)) (fun bs hbs => ?_) (by grind)
    refine pure (fun e he => ?_) (by grind)
    exact (mem_append.mp he).elim (hb e) (hbs e)

lemma mapM {f : Tree → EStateM ε σ Tree} (h : ∀ c ∈ cs, Builds G [c] (f c) ([·])) :
    Builds G cs (cs.mapM f) id := by
  have hg := gather h
  simp only [flatMap_singleton'] at hg
  exact hg

lemma each {f : γ → EStateM ε σ Tree} (h : ∀ a, Builds G [] (f a) ([·])) (as : List γ) :
    Builds G [] (as.mapM f) id := by
  have hg : Builds G (as.flatMap fun _ => []) (as.mapM f) fun es => es.flatMap ([·]) :=
    gather fun a _ => h a
  rw [flatMap_eq_nil_iff.mpr fun _ _ => rfl] at hg
  simp only [flatMap_singleton'] at hg
  exact hg

lemma foldlM {f : α → Tree → EStateM ε σ α}
    (h : ∀ a, ∀ c ∈ cs, (∀ e ∈ mid a, G e) → Builds G (mid a ++ [c]) (f a c) mid) {a : α}
    (ha : ∀ e ∈ mid a, G e) : Builds G (mid a ++ cs) (cs.foldlM f a) mid := by
  induction cs generalizing a with
  | nil => exact pure ha (by grind)
  | cons c cs ih =>
    refine bind cs (h a c mem_cons_self ha) (fun b hb => ?_) (by grind)
    exact ih (fun a d hd => h a d (mem_cons_of_mem c hd)) hb

/-- A walk over a tree, by what its rule makes of walks over smaller trees, of which `C` is known.
Names and literals stay what they are. What counts of a tree is `v` before the walk and `w` behind it. -/
lemma recurse {P : Tree → Prop} {C : Tree → EStateM ε σ Tree → Prop} {v w : Tree → Tree}
    {step : (κ → Tree → EStateM ε σ Tree) → κ → Tree → EStateM ε σ Tree}
    (hG : ∀ e : Tree, e.node? = none → G e) (hw : ∀ e : Tree, e.node? = none → w e = e)
    (hl : ∀ rec k e, e.node? = none → step rec k e = Pure.pure e)
    (hC : ∀ k c, C c (Tree.recurse step k c))
    (hs : ∀ rec (n : Node), (∀ k c, P c → Builds G [v c] (rec k c) fun e => [w e]) →
      (∀ k c, c.size < n.tree.size → C c (rec k c)) →
      ∀ k, P n.tree → Builds G [v n.tree] (step rec k n.tree) fun e => [w e])
    (k : κ) (he : P e) : Builds G [v e] (Tree.recurse step k e) fun e => [w e] := by
  have hp {c} (hc : c.node? = none) ins :
      Builds G ins (Pure.pure c : EStateM ε σ Tree) fun e => [w e] := by
    refine pure (fun e he => ?_) fun i => ?_
    · rw [mem_singleton.mp he, hw c hc]
      exact hG c hc
    · rw [hw c hc, copiesIn_cons, copies_of_node? i hc]
      exact Nat.zero_le _
  induction hn : e.size using Nat.strongRecOn generalizing k e with
  | ind size ih =>
    cases hno : e.node? with
    | none =>
      rw [Tree.recurse_eq, hl _ _ _ hno]
      exact hp hno _
    | some n =>
      cases tree_of_node? hno
      rw [Tree.recurse_eq]
      refine hs _ n (fun k c hc => ?_) (fun k c hc => ?_) k he
      · -- a tree that is not smaller is dropped
        split
        · rename_i hlt
          exact ih _ (hn ▸ hlt) k hc rfl
        · exact hp rfl _
      · rw [if_pos hc]
        exact hC k c

section

variable {span : Span} {tag : Tag} [Fresh (EStateM ε σ)] [LawfulFresh ε σ]

omit [Counts] [Counter σ] [LawfulFresh ε σ] in
lemma is_of_node {s s' : σ} (h : (Build.node tag span cs : EStateM ε σ Tree) s = .ok e s') : e.is tag := by
  obtain ⟨id, t, -, he⟩ := bind_eq_ok.mp h
  cases he
  exact beq_self_eq_true tag

omit [Counter σ] [LawfulFresh ε σ] in
lemma copies_of_node {s s' : σ} (h : (Build.node tag span cs : EStateM ε σ Tree) s = .ok e s')
    (htag : Counts.isCounted tag = false) (i : Nat) : e.copies i = copiesIn i cs := by
  obtain ⟨id, t, -, he⟩ := bind_eq_ok.mp h
  cases he
  simp [copies, htag]

lemma node (hG : ∀ id, G (.node tag span id cs)) (hd : Within cs ins) :
    Builds G ins (Build.node tag span cs : EStateM ε σ Tree) ([·]) := by
  intro s a s' h hs
  obtain ⟨id, t, hid, ha⟩ := bind_eq_ok.mp h
  obtain ⟨t', ht', hn, hok⟩ := @LawfulFresh.fresh_eq ε σ _ _ _ s
  cases ht'.symm.trans hid
  cases ha
  refine ⟨hok hs, by omega, forall_mem_singleton.mpr (hG _), fun i => ?_⟩
  have hi := hd i
  simp only [copiesIn_cons, copiesIn_nil, copies]
  split
  · rename_i hdef
    simp only [Bool.and_eq_true, beq_iff_eq] at hdef
    rw [if_pos (by omega)]
    omega
  · omega

end

end Builds

end

end Garnet
