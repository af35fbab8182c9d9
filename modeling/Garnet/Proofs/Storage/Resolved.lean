import Garnet.Proofs.Closure.Rules
import Garnet.Proofs.Storage.Collected

/-!
# Resolved trees

A unit whose names are resolved can be cut into routines: its ways out have one value, and whatever opens a scope
is found along the parts and the bodies of nodes. The walk makes nothing twice. A label stands in the tree as often
as definitions with its place stood in the unit, and the class bodies get numbers one after another. The instance
variables of instances turn into words of `self`, in their order. `resolves_recurse` says this of every lowered
unit whose classes are known.
-/

namespace Garnet

variable {home : Option ClassId} {es : List Tree} {id : Nat}

open List Garnet.Tree Bool Resolver Node

/-! ### Nodes that open scopes -/

namespace Tree

def definers (e : Tree) : List Node := (e.subtrees.filterMap node?).filter fun n => n.body?.isSome

lemma definers_tree (n : Node) :
    n.tree.definers = (if n.body?.isSome then [n] else []) ++ n.children.flatMap definers := by
  rw [definers, nodes_subtrees, filter_cons, filter_flatMap]
  split <;> rfl

@[simp]
lemma definers_of_node? {e : Tree} (h : e.node? = none) : e.definers = [] := by
  cases e with
  | node tag span id children => cases h
  | _ => rfl

lemma flatMap_definers_eq_nil (h : ∀ e ∈ es, e.definers = []) : es.flatMap definers = [] :=
  flatMap_eq_nil_iff.mpr h

end Tree

/-- The label of the method that a node of a resolved tree defines. -/
def Node.methodLabel? (n : Node) : Option String := match n.tag with
  | .method => some ((n.name? 1).getD "")
  | .singletonMethod => some ((n.name? 2).getD "")
  | _ => none

/-- The number of the class body that a node of a resolved tree is. -/
def Node.siteNumber? (n : Node) : Option Int := match n.tag, n.child 1 with
  | .classBody, .int k => some k
  | _, _ => none

/-- A node of a tree whose names are resolved. What opens a scope below it does so in a part or in the
body. -/
structure Node.IsResolved (n : Node) : Prop where
  singleExit : n.SingleExit
  unlifted : n.tag ≠ .procNew
  covered : (n.children.flatMap definers).Perm ((n.parts ++ n.body?.toList).flatMap definers)
  site : n.tag = .classBody → ∃ k : Nat, n.child 1 = .int k

/-- All nodes of the tree are those of a tree whose names are resolved. -/
abbrev Tree.IsResolved (e : Tree) : Prop := e.Everywhere Node.IsResolved

/-- The tags of nodes that are treated child by child when routines are cut out. -/
def Tag.isPlainCode (t : Tag) : Bool := Closure.Tag.isUniform t && t != .procNew

lemma isResolved_of_parts {n : Node} (hex : n.SingleExit) (htag : n.tag ≠ .procNew)
    (hp : (n.children.flatMap definers).Perm (n.parts.flatMap definers)) (hb : n.body? = none) :
    n.IsResolved := by
  refine ⟨hex, htag, ?_, fun h => ?_⟩
  · rwa [hb, Option.toList_none, append_nil]
  · rw [body?, h] at hb
    cases hb

lemma isResolved_of_body {n : Node} {b : Tree} (hb : n.body? = some b) (htag : n.tag ≠ .procNew)
    (hc : (n.children.flatMap definers).Perm ((n.parts ++ [b]).flatMap definers))
    (hs : n.tag = .classBody → ∃ k : Nat, n.child 1 = .int k) : n.IsResolved := by
  refine ⟨fun hex => ?_, htag, by rwa [hb], hs⟩
  rw [body?] at hb
  rcases hex with heq | heq | heq <;> rw [heq] at hb <;> cases hb

lemma flatMap_definers_eraseIdx {cs : List Tree} {k : Nat}
    (h : ∀ e, cs[k]? = some e → e.definers = []) :
    (cs.eraseIdx k).flatMap definers = cs.flatMap definers := by
  induction cs generalizing k with
  | nil => rfl
  | cons c cs ih =>
    cases k with
    | zero => rw [eraseIdx_cons_zero, flatMap_cons, h c rfl, nil_append]
    | succ k => rw [eraseIdx_cons_succ, flatMap_cons, flatMap_cons, ih h]

lemma isResolved_of_callee {n : Node} {k : Nat} (hp : n.tag.calleePlace? = some k)
    (hk : ∀ c, n.children[k]? = some c → c.definers = []) : n.IsResolved ∧ n.body? = none := by
  have hb : n.body? = none := by
    obtain ⟨tag, span, id, children⟩ := n
    cases tag <;> first | rfl | cases hp
  refine ⟨isResolved_of_parts (fun hex => ?_) (fun htag => ?_) ?_ hb, hb⟩
  · rcases hex with heq | heq | heq <;> rw [heq] at hp <;> cases hp
  · rw [htag] at hp
    cases hp
  · simp only [parts, hp]
    rw [flatMap_definers_eraseIdx hk]

/-! ### What is made of a unit -/

namespace Resolver

/-- While a unit is resolved, only the next identity and the number of class bodies change. -/
def During (u r : Resolver) : Prop := r = { u with sites := r.sites, nextId := r.nextId }

/-- A definition of the unit at hand with the label `label` has the identity `i`. -/
def Claims (u : Resolver) (label : String) (i : Nat) : Prop :=
  ∀ j site, u.methodSites[(⟨u.unit, j⟩ : SiteKey)]? = some site → site.label = label → j = i

variable {u r : Resolver}

variable (h : u.During r)
include h

lemma During.methodSites_eq : r.methodSites = u.methodSites := by rw [h]

lemma During.classSites_eq : r.classSites = u.classSites := by rw [h]

lemma During.classes_eq : r.classes = u.classes := by rw [h]

lemma During.unit_eq : r.unit = u.unit := by rw [h]

lemma During.withNextId (i : Nat) : u.During { r with nextId := i } := by
  rw [During, h]

lemma During.withSites (k : Nat) : u.During { r with sites := k } := by
  rw [During, h]

end Resolver

/-- Between the states `r` and `r'` the trees `outs` were made of the trees `ins` of a unit. -/
structure Made (u : Resolver) (ins : List Spot) (r : Resolver) (outs : List Tree) (r' : Resolver) :
    Prop where
  during : u.During r'
  sites_le : r.sites ≤ r'.sites
  resolved : ∀ e ∈ outs, e.IsResolved
  labels : ∀ label i, u.Claims label i →
    ((outs.flatMap definers).filterMap methodLabel?).count label ≤ copiesIn i (prunedOf ins)
  sites : ∀ k : Nat, ((outs.flatMap definers).filterMap siteNumber?).count (k : Int) ≤
    if r.sites ≤ k ∧ k < r'.sites then 1 else 0
  stored : ∀ p ∈ ins, Storage.Stored u p.2
  fields : outs.flatMap Tree.fields = (ins.flatMap fun p => p.2.uses u p.1).filterMap u.word?

namespace Made

variable {n : Node} {u r r' r'' : Resolver} {ins ins' : List Spot} {outs outs' : List Tree}

lemma nil (h : u.During r) : Made u [] r [] r where
  during := h
  sites_le := le_rfl
  resolved := by simp
  labels := by simp
  sites := by simp
  stored := by simp
  fields := rfl

lemma widen (h : Made u [] r outs r') {p : Spot} (hp : p.2.node? = none)
    (hu : (p.2.uses u p.1).filterMap u.word? = []) : Made u [p] r outs r' :=
  { h with
    labels := fun label i hi => Nat.le_trans (h.labels label i hi) (Nat.zero_le _)
    stored := forall_mem_singleton.mpr (.leaf hp)
    fields := by rw [h.fields, flatMap_singleton, hu, flatMap_nil, filterMap_nil] }

section

variable (h : Made u ins r outs r')
include h

lemma append (h' : Made u ins' r' outs' r'') : Made u (ins ++ ins') r (outs ++ outs') r'' where
  during := h'.during
  sites_le := Nat.le_trans h.sites_le h'.sites_le
  resolved := forall_mem_append.mpr ⟨h.resolved, h'.resolved⟩
  labels label i hi := by
    have hf := h.labels label i hi
    have hs := h'.labels label i hi
    rw [flatMap_append, filterMap_append, count_append, prunedOf_append, copiesIn_append]
    omega
  sites k := by
    have hle := h.sites_le
    have hle' := h'.sites_le
    have hf := h.sites k
    have hs := h'.sites k
    rw [flatMap_append, filterMap_append, count_append]
    -- a number is given in one of the two at most
    split at hf <;> split at hs <;> split <;> omega
  stored := forall_mem_append.mpr ⟨h.stored, h'.stored⟩
  fields := by
    rw [flatMap_append, flatMap_append, filterMap_append, h.fields, h'.fields]

lemma cross (h' : Made u ins' r' outs' r'') : Made u (ins' ++ ins) r (outs' ++ outs) r'' := by
  have hb := h.append h'
  have hp : ((outs' ++ outs).flatMap definers).Perm ((outs ++ outs').flatMap definers) :=
    perm_append_comm.flatMap_right _
  refine ⟨hb.during, hb.sites_le, ?_, fun label i hi => ?_, fun k => ?_, ?_, ?_⟩
  · exact forall_mem_append.mpr ⟨h'.resolved, h.resolved⟩
  · have hl := hb.labels label i hi
    rw [(hp.filterMap _).count_eq]
    simp only [prunedOf_append, copiesIn_append] at hl ⊢
    omega
  · rw [(hp.filterMap _).count_eq]
    exact hb.sites k
  · exact forall_mem_append.mpr ⟨h'.stored, h.stored⟩
  · rw [flatMap_append, flatMap_append, filterMap_append, h.fields, h'.fields]

lemma fresh (i : Nat) : Made u ins r outs { r' with nextId := i } :=
  { h with during := h.during.withNextId i }

lemma among {p : List Tree} (hcs : ∀ c ∈ p, c.IsResolved)
    (hp : (p.flatMap definers).Perm (outs.flatMap definers))
    (hf : p.flatMap Tree.fields = outs.flatMap Tree.fields) : Made u ins r p r' :=
  { h with
    resolved := hcs
    labels := fun label i hi => by
      rw [(hp.filterMap _).count_eq]
      exact h.labels label i hi
    sites := fun k => by
      rw [(hp.filterMap _).count_eq]
      exact h.sites k
    fields := hf.trans h.fields }

end

lemma words {cs : List Tree} (h : u.During r) (hcs : ∀ c ∈ cs, c.node? = none) : Made u [] r cs r := by
  refine (nil h).among (fun c hc => everywhere_of_node? (hcs c hc)) ?_ ?_
  · rw [flatMap_definers_eq_nil fun c hc => definers_of_node? (hcs c hc)]
    exact .nil
  · exact flatMap_eq_nil_iff.mpr fun c hc => fields_of_node? (hcs c hc)

lemma node (h : Made u ins r n.children r') (hn : n.IsResolved) (hind : n.tag ≠ .index)
    (hl : n.methodLabel? = none) (hs : n.siteNumber? = none) : Made u ins r [n.tree] r' := by
  have hown {α} (f : Node → Option α) (hf : f n = none) :
      ([n.tree].flatMap definers).filterMap f = (n.children.flatMap definers).filterMap f := by
    rw [flatMap_singleton, definers_tree]
    split <;> simp [hf]
  refine ⟨h.during, h.sites_le, ?_, fun label i hi => ?_, fun k => ?_, h.stored, ?_⟩
  · exact forall_mem_singleton.mpr (everywhere_node.mpr ⟨hn, h.resolved⟩)
  · rw [hown _ hl]
    exact h.labels label i hi
  · rw [hown _ hs]
    exact h.sites k
  · rw [flatMap_singleton, fields_of_ne hind, h.fields]

/-- What was made of the trees that a node was visited at was made of the node. -/
lemma close (h : Made u (n.visits u home) r outs r') (hn : n.tree.IsLowered) (hp : n.IsPlaced) :
    Made u [(home, n.tree)] r outs r' where
  during := h.during
  sites_le := h.sites_le
  resolved := h.resolved
  labels label i hi := by
    have hle := copiesIn_visits_add (u := u) hn home i
    have hl := h.labels label i hi
    simp only [prunedOf_cons, prunedOf_nil, copiesIn_cons, copiesIn_nil]
    omega
  sites := h.sites
  stored := by
    refine forall_mem_singleton.mpr (.node hp ?_)
    rw [← map_snd_visits _ home]
    exact forall_mem_map.mpr h.stored
  fields := by rw [h.fields, flatMap_singleton, uses_tree]

end Made

/-- A computation makes a tree of the trees `ins`. -/
def Resolves (u : Resolver) (ins : List Spot) (p : Resolve Tree) : Prop :=
  ∀ ⦃r e r'⦄, p r = .ok e r' → u.During r → Made u ins r [e] r'

lemma buildNode_eq {tag : Tag} {span : Span} {cs : List Tree} {r r' : Resolver} {e : Tree}
    (h : (Build.node tag span cs : Resolve Tree) r = .ok e r') :
    e = .node tag span r.nextId cs ∧ r' = { r with nextId := r.nextId + 1 } := by
  cases h
  exact ⟨rfl, rfl⟩

section

variable {name : String} {u r r' r'' : Resolver} {ins : List Spot} {outs cs : List Tree} {span : Span}
  {tag : Tag} {e : Tree} {n : Node}

lemma isResolved_of_isPlainCode (h : n.tag.isPlainCode) : n.IsResolved ∧ n.body? = none := by
  obtain ⟨hu, hp⟩ := and_eq_true_iff.mp h
  obtain ⟨hpar, hb⟩ := Closure.parts_of_isUniform hu
  refine ⟨isResolved_of_parts (fun hex => ?_) (bne_iff_ne.mp hp) (by rw [hpar]) hb, hb⟩
  rcases hex with heq | heq | heq <;> rw [heq] at hu <;> cases hu

lemma Made.plain (h : Made u ins r n.children r') (hn : n.IsResolved ∧ n.body? = none)
    (hind : n.tag ≠ .index) : Made u ins r [n.tree] r' := by
  obtain ⟨hn, hb⟩ := hn
  refine h.node hn hind ?_ ?_
  all_goals
    obtain ⟨tag, span, id, children⟩ := n
    cases tag <;> first | rfl | cases hb

lemma Made.build (h : Made u ins r cs r') (hb : (Build.node tag span cs : Resolve Tree) r' = .ok e r'')
    (htag : tag.isPlainCode) (hind : tag ≠ .index) : Made u ins r [e] r'' := by
  obtain ⟨rfl, rfl⟩ := buildNode_eq hb
  exact (h.plain (n := ⟨tag, span, r'.nextId, cs⟩) (isResolved_of_isPlainCode htag) hind).fresh _

lemma resolves_leaf (he : e.node? = none) : Resolves u [] (pure e) := by
  intro r e' r' h hr
  cases h
  exact .words hr (forall_mem_singleton.mpr he)

lemma resolves_fail {cause : TransformCause} : Resolves u ins (Resolve.fail cause span) :=
  fun _ _ _ h => absurd h throw_ne_ok

lemma Made.send {receiver : Tree} (h : Made u ins r (receiver :: cs) r')
    (hb : (Build.send span receiver name cs : Resolve Tree) r' = .ok e r'') : Made u ins r [e] r'' := by
  obtain ⟨args, t, ha, hb⟩ := bind_eq_ok.mp hb
  obtain ⟨rfl, rfl⟩ := buildNode_eq ha
  obtain ⟨rfl, rfl⟩ := buildNode_eq hb
  obtain ⟨hr, hcs⟩ := forall_mem_cons.mp h.resolved
  have hl : (Tree.node .args span r'.nextId cs).IsResolved :=
    everywhere_node (n := ⟨.args, span, r'.nextId, cs⟩) |>.mpr ⟨(isResolved_of_isPlainCode rfl).1, hcs⟩
  have hlis : (Tree.node .args span r'.nextId cs).definers = cs.flatMap definers :=
    definers_tree ⟨.args, span, r'.nextId, cs⟩
  have hli : (Tree.node .args span r'.nextId cs).fields = cs.flatMap Tree.fields :=
    fields_of_ne (n := ⟨.args, span, r'.nextId, cs⟩) nofun
  have hp := h.among (p := [receiver, .name name, .node .args span r'.nextId cs, .absent])
    (by simp [hr, hl]) (by simp [hlis]) (by simp [hli])
  exact (hp.plain (n := ⟨.send, span, r'.nextId + 1, _⟩) (isResolved_of_callee rfl (by simp))
    nofun).fresh (r'.nextId + 2)

/-! ### Names -/

lemma resolves_word (label kind : String) :
    Resolves u [] (Build.node .const span [.name label, .name kind]) := by
  intro r e r' hb hr
  obtain ⟨rfl, rfl⟩ := buildNode_eq hb
  refine (Made.plain (n := ⟨.const, span, r.nextId, [.name label, .name kind]⟩)
    (.words hr (by simp)) ⟨?_, rfl⟩ (by simp)).fresh _
  exact isResolved_of_parts (by rintro (h | h | h) <;> cases h) nofun
    (by simp [parts, Tag.calleePlace?]) rfl

namespace Storage

lemma resolves_constant (c : ConstRef) : Resolves u [] (constant c span) := by
  cases c with
  | cls id =>
    intro r e r' h hr
    exact resolves_word _ _ h hr
  | value label => exact resolves_word _ _

lemma resolves_instanceVariable (hn : VarName.isInstance name) (ctx : Context) :
    Resolves u [(ctx.home, .name name)] (instanceVariable name ctx span) := by
  intro r e r' h hr
  have hu (home : Option ClassId) : (Tree.name name).uses u home = home.toList.map (·, name) := by
    rw [Tree.uses, if_pos hn]
  unfold instanceVariable at h
  rw [Context.home]
  cases hh : ctx.instanceVars with
  | field id =>
    rw [hh] at h
    dsimp only at h
    rw [get_bind_eq, hr.classes_eq] at h
    cases hk : u.classes.variableOffset? id name with
    | some k =>
      rw [hk] at h
      obtain ⟨rfl, rfl⟩ := buildNode_eq h
      have hd : (Tree.node .index span r.nextId [.name "self", .int k]).definers = [] := rfl
      refine ⟨hr.withNextId _, le_rfl, forall_mem_singleton.mpr ?_, ?_, ?_, ?_, ?_⟩
      · exact everywhere_node (n := ⟨.index, span, r.nextId, [.name "self", .int k]⟩) |>.mpr
          ⟨(isResolved_of_isPlainCode rfl).1, by simp⟩
      · simp [hd]
      · simp [hd]
      · exact forall_mem_singleton.mpr (.leaf rfl)
      · have hf : (Tree.node .index span r.nextId [.name "self", .int k]).fields = [(k : Int)] := rfl
        simp [hf, hu, word?, hk]
    | none =>
      rw [hk] at h
      exact (resolves_leaf rfl h hr).widen rfl (by simp [hu, word?, hk])
  | word stem =>
    rw [hh] at h
    exact (resolves_word _ _ h hr).widen rfl (by simp [hu])
  | dynamic =>
    rw [hh] at h
    exact (Made.send (.words hr (by simp)) h).widen rfl (by simp [hu])

lemma resolves_readName (name : String) (ctx : Context) :
    Resolves u [(ctx.home, .name name)] (readName name ctx span) := by
  intro r e r' h hr
  unfold readName at h
  by_cases hn : VarName.isInstance name
  · obtain ⟨hcon, hs, hat⟩ := VarName.isInstance_iff.mp hn
    rw [hcon, hs, hat] at h
    exact resolves_instanceVariable hn ctx h hr
  · refine Made.widen ?_ rfl (by simp [Tree.uses, hn])
    split at h
    · rw [get_bind_eq] at h
      cases hc : r.constant? ctx.lexical name with
      | some c =>
        rw [hc] at h
        exact resolves_constant c h hr
      | none =>
        rw [hc] at h
        exact resolves_fail h hr
    · rename_i hcon
      split at h
      · exact resolves_word _ _ h hr
      · rename_i hs
        split at h
        · rename_i hat
          rw [not_eq_true] at hcon hs
          exact absurd (VarName.isInstance_iff.mpr ⟨hcon, hs, hat⟩) hn
        · exact resolves_leaf rfl h hr

lemma resolves_nameTarget (name : String) (ctx : Context) :
    Resolves u [(ctx.home, .name name)] (nameTarget name ctx span) := by
  intro r e r' h hr
  unfold nameTarget at h
  split at h
  · rename_i hc
    refine (resolves_word _ _ h hr).widen rfl ?_
    rw [Tree.uses, if_neg fun hn => ?_, filterMap_nil]
    rw [(VarName.isInstance_iff.mp hn).1] at hc
    cases hc
  · exact resolves_readName name ctx h hr

/-! ### Assignment -/

lemma made_store {storage value : Tree} (h : Made u ins r [storage, value] r')
    (hb : store storage value span r' = .ok e r'') : Made u ins r [e] r'' := by
  have ha (hb : (Build.node .assign span [storage, value] : Resolve Tree) r' = .ok e r'') :
      Made u ins r [e] r'' :=
    h.build hb rfl (by simp)
  unfold store at hb
  split at hb
  · split at hb
    · cases hb
    · exact ha hb
  · split at hb
    · exact ha hb
    · cases hb

lemma made_assign {target value : Tree} {ctx : Context} (h : Made u ins r [value] r')
    (hb : assign target value ctx span r' = .ok e r'') : target.isPlace ∧
      Made u ((if target.name?.isSome then [(ctx.home, target)] else []) ++ ins) r [e] r'' := by
  have hs ins' {p} (hp : Resolves u ins' p) {span}
      (hb : (do store (← p) value span : Resolve Tree) r' = .ok e r'') :
      Made u (ins' ++ ins) r [e] r'' := by
    obtain ⟨storage, t, hsto, hb⟩ := bind_eq_ok.mp hb
    exact made_store (h.cross (hp hsto h.during)) hb
  unfold assign at hb
  split at hb
  · rename_i name
    refine ⟨rfl, ?_⟩
    split at hb
    · rename_i hd
      simp only [and_eq_true, beq_iff_eq] at hd
      have hse := Made.send (h.among (by simpa using h.resolved) (by simp) (by simp)) hb
      refine hse.cross ((Made.nil hse.during).widen rfl ?_)
      simp [Tree.uses, Context.home, hd.2]
    · exact hs _ (resolves_nameTarget name ctx) hb
  · obtain ⟨cls, -, hb⟩ := ofExcept_bind_eq_ok.mp hb
    exact ⟨rfl, hs [] (resolves_word _ _) hb⟩
  · exact ⟨rfl, hs [] (fun _ _ _ hp hr => resolves_word _ _ hp hr) hb⟩
  · cases hb

/-! ### Calls of the next method -/

lemma resolves_forwarded (params : Tree) : Resolves u [] (forwarded params span) := by
  intro r e r' h hr
  have hp : ∀ c ∈ params.children.filter fun p => p.name?.isSome, c.node? = none := by
    intro c hc
    obtain ⟨v, hv⟩ := Option.isSome_iff_exists.mp (mem_filter.mp hc).2
    exact Tree.node?_of_name? hv
  unfold forwarded at h
  cases hre : ((params.children.filter (·.is .rest)).filterMap fun p =>
      p.children.head?.bind Tree.name?).getLast? with
  | none =>
    rw [hre] at h
    exact (Made.words hr hp).build h rfl (by simp)
  | some rest =>
    rw [hre] at h
    obtain ⟨head, s, hh, h⟩ := bind_eq_ok.mp h
    obtain ⟨tail, t, ht, h⟩ := bind_eq_ok.mp h
    obtain ⟨all, s', hall, h⟩ := bind_eq_ok.mp h
    obtain ⟨splat, t', hs, h⟩ := bind_eq_ok.mp h
    have hf := (Made.words hr hp).build hh rfl (by simp)
    have hsec := Made.send (.words hf.during (by simp)) ht
    have hsum := (hf.append hsec).send hall
    exact (hsum.build hs rfl (by simp)).build h rfl (by simp)

end Storage

/-! ### Nodes -/

/-- A tree that is left as it is. -/
structure Tree.Bare (u : Resolver) (e : Tree) : Prop where
  resolved : e.IsResolved
  definers : e.definers = []
  fields : e.fields = []
  stored : Storage.Stored u e

lemma Tree.Bare.leaf (h : e.node? = none) : e.Bare u :=
  ⟨everywhere_of_node? h, definers_of_node? h, fields_of_node? h, .leaf h⟩

lemma Tree.Bare.node (htag : n.tag.isPlainCode)
    (hne : n.tag ≠ .index ∧ n.tag ≠ .assign ∧ n.tag ≠ .path) (h : ∀ c ∈ n.children, c.Bare u) :
    n.tree.Bare u where
  resolved := everywhere_node.mpr ⟨(isResolved_of_isPlainCode htag).1, fun c hc => (h c hc).resolved⟩
  definers := by
    rw [definers_tree, (isResolved_of_isPlainCode htag).2,
      flatMap_definers_eq_nil fun c hc => (h c hc).definers]
    rfl
  fields := by rw [fields_of_ne hne.1, flatMap_eq_nil_iff.mpr fun c hc => (h c hc).fields]
  stored := .node (isPlaced_of_ne hne.2) fun c hc =>
    (mem_reached hc).elim (fun hmem => (h c hmem).stored) .leaf

lemma bare_params (hn : n.tree.IsLowered) (htag : n.tag.hasParams) {k : Nat}
    (hk : n.tag.argsPlace? = some k) : (n.child k).Bare u := by
  have ho : n.tag.isOpen := by
    obtain ⟨tag, span, id, children⟩ := n
    cases tag <;> first | rfl | cases htag
  have hl := hn.child ho k
  have ha := hn.is_args ho hk
  have hs := hn.pruned.1.params htag k hk
  rw [child_pruned ho, children_prune rfl ha, forall_mem_map] at hs
  cases hc : n.child k with
  | node tag span id children =>
    rw [hc] at ha hs hl
    cases beq_iff_eq.mp ha
    refine .node (n := ⟨.args, span, id, children⟩) rfl (by simp) fun c hc => ?_
    have hlow : c.IsLowered := hl.children (n := ⟨.args, span, id, children⟩) rfl c hc
    have hf : c.isSimple := (isSimple_prune c).symm.trans (hs c hc)
    cases c with
    | node tag span id children =>
      have hf : tag.isFlat := hf
      have ho : tag.isOpen := by cases tag <;> first | rfl | cases hf
      refine .node (n := ⟨tag, span, id, children⟩) (by cases tag <;> first | rfl | cases hf)
        (by cases tag <;> simp <;> cases hf) fun c hc => .leaf ?_
      rw [Tree.IsLowered, prune_node ho] at hlow
      have hfor := (everywhere_node (n := ⟨tag, span, id, children.map prune⟩).mp hlow).1.formed
      simp only [Node.isFormed, hf, Bool.and_eq_true, Bool.not_true, Bool.false_or,
        all_eq_true, forall_mem_map, Option.isNone_iff_eq_none] at hfor
      exact node?_of_prune (hfor.1.2 c hc)
    | _ => exact .leaf rfl
  | _ =>
    rw [hc] at ha
    cases ha

lemma Made.mapM {γ : Type} {f : γ → Resolve Tree} {t : γ → Spot} {as : List γ}
    (hf : ∀ a ∈ as, Resolves u [t a] (f a)) (hr : u.During r) (h : as.mapM f r = .ok es r') :
    Made u (as.map t) r es r' := by
  induction as generalizing r es with
  | nil =>
    cases h
    exact .nil hr
  | cons a as ih =>
    rw [mapM_cons] at h
    obtain ⟨e, s, he, h⟩ := bind_eq_ok.mp h
    obtain ⟨es, s', hes, h⟩ := bind_eq_ok.mp h
    cases h
    have hfir := hf a mem_cons_self he hr
    exact hfir.append (ih (fun b hb => hf b (mem_cons_of_mem a hb)) hfir.during hes)

lemma definers_of_body? (h : n.body?.isSome) :
    [n.tree].flatMap definers = n :: n.children.flatMap definers := by
  rw [flatMap_singleton, definers_tree, if_pos h]
  rfl

lemma Made.method {m : Node} (h : Made u (m.visits u home) r n.children r') (hm : m.tree.IsLowered)
    (hdef : m.tag.isDefinition) (hn : n.IsResolved) (htag : n.tag = .method ∨ n.tag = .singletonMethod)
    {site : MethodSite} (hs : u.methodSites[(⟨u.unit, m.id⟩ : SiteKey)]? = some site)
    (hl : n.methodLabel? = some site.label) : Made u [(home, m.tree)] r [n.tree] r' := by
  have hc := h.close hm
    (isPlaced_of_ne (by constructor <;> rintro heq <;> rw [heq] at hdef <;> cases hdef))
  have hd := definers_of_body? (n := n) (by rcases htag with htag | htag <;> simp [body?, htag])
  refine ⟨h.during, h.sites_le, ?_, fun label i hi => ?_, fun k => ?_, hc.stored, ?_⟩
  · exact forall_mem_singleton.mpr (everywhere_node.mpr ⟨hn, h.resolved⟩)
  · have hin := copiesIn_visits_add (u := u) hm home i
    have hold := h.labels label i hi
    rw [hd, filterMap_cons_some hl, count_cons]
    simp only [prunedOf_cons, copiesIn_cons]
    split
    · rename_i heq
      have hid : m.id = i := hi m.id site hs (beq_iff_eq.mp heq)
      rw [hdef, Bool.true_and, if_pos (beq_iff_eq.mpr hid)] at hin
      omega
    · omega
  · have hno : n.siteNumber? = none := by
      rw [siteNumber?]
      rcases htag with htag | htag <;> rw [htag]
    rw [hd, filterMap_cons_none hno]
    exact h.sites k
  · rw [flatMap_singleton, fields_of_ne (by rcases htag with htag | htag <;> simp [htag]), hc.fields]

lemma Made.classBody {k : Nat} (hk : k = r.sites)
    (h : Made u ins { r with sites := k + 1 } n.children r') (hn : n.IsResolved)
    (htag : n.tag = .classBody) (hs : n.child 1 = .int k) : Made u ins r [n.tree] r' := by
  have hd := definers_of_body? (n := n) (by simp [body?, htag])
  have hle : k + 1 ≤ r'.sites := h.sites_le
  refine ⟨h.during, by omega, ?_, fun label i hi => ?_, fun l => ?_, h.stored, ?_⟩
  · exact forall_mem_singleton.mpr (everywhere_node.mpr ⟨hn, h.resolved⟩)
  · have hno : n.methodLabel? = none := by rw [methodLabel?, htag]
    rw [hd, filterMap_cons_none hno]
    exact h.labels label i hi
  · have hown : n.siteNumber? = some (k : Int) := by rw [siteNumber?, htag, hs]
    have hold := h.sites l
    rw [hd, filterMap_cons_some hown, count_cons]
    -- the numbers below are those behind this one
    have hkl : ((k : Int) == (l : Int)) = true ↔ k = l := by
      rw [beq_iff_eq, Int.ofNat_inj]
    simp only [hkl]
    simp only at hold
    split at hold <;> split <;> split <;> omega
  · rw [flatMap_singleton, fields_of_ne (by simp [htag]), h.fields]

namespace Storage
section

variable {rec : Place → Tree → Resolve Tree} {n : Node}
  (hrec : ∀ place (c : Tree), c.size < n.tree.size → c.IsLowered → Known u c →
    Resolves u [(place.1.home, c)] (rec place c))
  (hn : n.tree.IsLowered) (hknown : Known u n.tree) (ctx : Context)
include hrec hn hknown

lemma resolves_child (ho : n.tag.isOpen) {k : Nat} (hk : n.child k ∈ n.reached u) (place : Place) :
    Resolves u [(place.1.home, n.child k)] (rec place (n.child k)) :=
  hrec place _ (n.size_child_lt k) (hn.child ho k) (hknown.reached hn hk)

lemma made_superBlock (ho : n.tag.isOpen) {k : Nat} (hk : n.child k ∈ n.reached u) {args : Tree}
    {label own : String} (h : Made u ins r [args] r')
    (hb : (if (n.child k).isAbsent then do
        let block ← pure (.name own)
        Build.node .super n.span [.name label, args, block]
      else do
        let block ← inner rec ctx (n.child k)
        Build.node .super n.span [.name label, args, block] : Resolve Tree) r' = .ok e r'') :
    Made u (ins ++ [(ctx.home, n.child k)]) r [e] r'' := by
  have hblo {p} (hp : Resolves u [(ctx.home, n.child k)] p)
      (hb : (do Build.node .super n.span [.name label, args, ← p] : Resolve Tree) r' = .ok e r'') :
      Made u (ins ++ [(ctx.home, n.child k)]) r [e] r'' := by
    obtain ⟨block, t, hblo, hb⟩ := bind_eq_ok.mp hb
    have hbo := h.append (hp hblo h.during)
    obtain ⟨rfl, rfl⟩ := buildNode_eq hb
    exact ((hbo.among (by simpa using hbo.resolved) (by simp) (by simp)).plain
      (n := ⟨.super, n.span, t.nextId, [.name label, args, block]⟩) (isResolved_of_callee rfl (by simp))
      nofun).fresh _
  split at hb
  · rename_i ha
    have hchi : n.child k = .absent := by
      cases hc : n.child k <;> first | rfl | (rw [hc] at ha; cases ha)
    exact hblo (fun r e r' h hr => (resolves_leaf rfl h hr).widen (hchi ▸ rfl)
      (by simp [hchi, Tree.uses])) hb
  · exact hblo (resolves_child hrec hn hknown ho hk _) hb

lemma resolves_superCall (htag : n.tag = .super ∨ n.tag = .implicitSuper) :
    Resolves u [(ctx.home, n.tree)] (superCall rec ctx n (n.tag == .super)) := by
  have hop : n.tag.isOpen := by rcases htag with htag | htag <;> rw [htag] <;> rfl
  intro r e r' h hr
  unfold superCall at h
  cases hm : ctx.method with
  | none =>
    rw [hm] at h
    cases h
  | some m =>
    rw [hm] at h
    cases ho : m.owner with
    | none =>
      simp only [ho] at h
      cases h
    | some owner =>
      simp only [ho] at h
      rw [get_bind_eq] at h
      split at h
      · cases h
      · obtain ⟨label, t, hl, h⟩ := bind_eq_ok.mp h
        cases hl
        refine Made.close ?_ hn (isPlaced_of_ne (by rcases htag with htag | htag <;> simp [htag]))
        rcases htag with htag | htag
        · simp only [htag] at h
          obtain ⟨args, t, ha, h⟩ := bind_eq_ok.mp h
          have hf := resolves_child hrec hn hknown hop (k := 0)
            (by simp [reached, visits, places, htag]) _ ha hr
          have hma := made_superBlock hrec hn hknown ctx hop
            (by simp [reached, visits, places, htag]) hf h
          simpa [visits, places, htag] using hma
        · have hne : (n.tag == Tag.super) = false := htag ▸ rfl
          simp only [hne] at h
          obtain ⟨args, t, ha, h⟩ := bind_eq_ok.mp h
          have hma := made_superBlock hrec hn hknown ctx hop (k := 0)
            (by simp [reached, visits, places, htag])
            (resolves_forwarded m.params ha hr) h
          simpa [visits, places, htag] using hma

lemma resolves_methodAt {i : Nat} (htag : n.tag = .method ∧ i = 0 ∨ n.tag = .singletonMethod ∧ i = 1) :
    Resolves u [(ctx.home, n.tree)] (methodAt rec ctx n i) := by
  have hdef : n.tag.isDefinition := by
    rcases htag with ⟨htag, -⟩ | ⟨htag, -⟩ <;> rw [htag] <;> rfl
  have ho : n.tag.isOpen := by
    rcases htag with ⟨htag, -⟩ | ⟨htag, -⟩ <;> rw [htag] <;> rfl
  have hp : (n.child (i + 1)).Bare u := bare_params hn
    (by rcases htag with ⟨htag, -⟩ | ⟨htag, -⟩ <;> rw [htag] <;> rfl)
    (by rcases htag with ⟨htag, rfl⟩ | ⟨htag, rfl⟩ <;> rw [htag] <;> rfl)
  obtain ⟨v, hna⟩ := hn.exists_name ho (k := i)
    (by rcases htag with ⟨htag, rfl⟩ | ⟨htag, rfl⟩ <;> rw [htag] <;> rfl)
  intro r e r' h hr
  unfold methodAt at h
  rw [get_bind_eq] at h
  cases hs : r.methodSites[(⟨r.unit, n.id⟩ : SiteKey)]? with
  | none =>
    rw [hs] at h
    cases h
  | some site =>
    rw [hs] at h
    rw [hr.methodSites_eq, hr.unit_eq] at hs
    obtain ⟨body, t, hbody, h⟩ := bind_eq_ok.mp h
    have hf := resolves_child hrec hn hknown ho (by rcases htag with ⟨htag, rfl⟩ | ⟨htag, rfl⟩ <;>
        simp [reached, visits, places, htag]) _ hbody hr
    have hh : (r.methodContext ctx ((n.child i).name?.getD "") site.owner (n.child (i + 1))).home =
        u.fieldsOf? n.id := by
      rw [home_methodContext, fieldsOf?, hs, Option.bind_some, instanceClass?,
        instanceClass?, hr.classes_eq]
    rw [hh] at hf
    have hb := forall_mem_singleton.mp hf.resolved
    split at h
    · rename_i hsin
      replace htag : n.tag = .singletonMethod ∧ i = 1 := by
        refine htag.resolve_left fun hm => ?_
        simp [hm.1] at hsin
      obtain ⟨htag, rfl⟩ := htag
      rw [and_eq_true] at hsin
      have hv (home : Option ClassId) : n.visits u home =
          [(home, n.child 0)] ++ [(u.fieldsOf? n.id, n.child 3)] := by
        simp [visits, places, htag, hs, hsin.1]
      obtain ⟨receiver, t', hre, h⟩ := bind_eq_ok.mp h
      have hsec := resolves_child hrec hn hknown ho
        (by simp [reached, hv]) _ hre hf.during
      have hreceiverResolved := forall_mem_singleton.mp hsec.resolved
      have hbo := hf.cross hsec
      rw [← hv] at hbo
      obtain ⟨rfl, rfl⟩ := buildNode_eq h
      have hpe : ([receiver, n.child 1, .name site.label, n.child 2, body].flatMap definers).Perm
          (([receiver] ++ [body]).flatMap definers) := by
        simp [hna, hp.definers]
      exact ((hbo.among (by simp [hna, hp.resolved, hb, hreceiverResolved]) hpe
        (by simp [hna, hp.fields])).method (n := ⟨.singletonMethod, n.span, t'.nextId, _⟩) hn hdef
        (isResolved_of_body rfl (by simp) hpe (by simp)) (.inr rfl) hs rfl).fresh _
    · have hv : n.visits u ctx.home = [(u.fieldsOf? n.id, n.child (i + 2))] := by
        rcases htag with ⟨htag, rfl⟩ | ⟨htag, rfl⟩
        · simp [visits, places, htag]
        · simp_all [visits, places]
      rw [← hv] at hf
      obtain ⟨rfl, rfl⟩ := buildNode_eq h
      have hpe : ([n.child i, .name site.label, .name site.install.text, n.child (i + 1), body].flatMap
          definers).Perm ([body].flatMap definers) := by
        simp [hna, hp.definers]
      exact ((hf.among (by simp [hna, hp.resolved, hb]) hpe
        (by simp [hna, hp.fields])).method (n := ⟨.method, n.span, t.nextId, _⟩) hn hdef
        (isResolved_of_body rfl (by simp) hpe (by simp)) (.inl rfl) hs rfl).fresh _

/-- The body of a class, after what is made of the part `first`. -/
lemma resolves_classBody (ho : n.tag.isOpen) (hp : n.tag ≠ .assign ∧ n.tag ≠ .path)
    (first : List Spot) (hf : ∀ ⦃r⦄, u.During r → Made u first r [] r)
    (hv : n.visits u ctx.home = first ++ [(none, n.child (if n.tag == .classBody then 2 else 1))])
    (id : ClassId) : Resolves u [(ctx.home, n.tree)] (classBody rec ctx n id) := by
  intro r e r' h hr
  unfold classBody at h
  rw [get_bind_eq, modify_bind_eq, get_bind_eq] at h
  obtain ⟨body, t, hbo, h⟩ := bind_eq_ok.mp h
  have hrea : n.child (if n.tag == .classBody then 2 else 1) ∈ n.reached u := by
    rw [← map_snd_visits _ ctx.home, hv]
    simp
  have hinn := resolves_child hrec hn hknown ho hrea _ hbo (hr.withSites _)
  have hh {r : Resolver} : (if n.tag == .singletonClass then r.singletonContext ctx id
      else r.bodyContext ctx id).home = none := by
    split <;> rfl
  rw [hh] at hinn
  have hb := (hf (hr.withSites _)).append hinn
  rw [← hv] at hb
  obtain ⟨rfl, rfl⟩ := buildNode_eq h
  have hc := (hb.close hn (isPlaced_of_ne hp)).among
    (p := [.name (t.classes.label id), .int r.sites, body]) (by simpa using hinn.resolved) (by simp)
    (by simp)
  exact (hc.classBody rfl (n := ⟨.classBody, n.span, t.nextId, _⟩)
    (isResolved_of_body rfl nofun (.refl _) fun _ => ⟨r.sites, rfl⟩) rfl rfl).fresh _

lemma resolves_childrenBut {k : Nat} (hpla : n.tag.calleePlace? = some k)
    (hna : n.tag.namePlace? = some k)
    (hvis : n.visits u ctx.home = (n.children.mapIdx fun i c => (i, c)).map fun p =>
      (if p.1 = k then none else ctx.home, p.2)) :
    Resolves u [(ctx.home, n.tree)] (childrenBut rec ctx n k) := by
  have ho : n.tag.isOpen := by
    obtain ⟨tag, span, id, children⟩ := n
    cases tag <;> first | rfl | cases hpla
  have hl c (hc : n.children[k]? = some c) : ∃ v, c = .name v := by
    obtain ⟨v, hv⟩ := hn.exists_name ho hna
    rw [child, hc] at hv
    exact ⟨v, hv⟩
  intro r e r' h hr
  obtain ⟨cs, t, hcs, h⟩ := bind_eq_ok.mp h
  cases h
  have hm := Made.mapM (t := fun p : Nat × Tree => (if p.1 = k then none else ctx.home, p.2))
    (fun p hp => ?_) hr hcs
  · have hke : ∀ c, cs[k]? = some c → c.definers = [] := by
      have hpai := mapM_forall₂ (R := fun (p : Nat × Tree) c => p.1 = k → c = p.2) hcs
        fun p _ s c s' hrun hk => ?_
      · intro c hc
        obtain ⟨hlt, hget⟩ := List.getElem?_eq_some_iff.mp hc
        have hlen := hpai.length_eq
        rw [length_mapIdx] at hlen
        have hpa := forall₂_iff_get.mp hpai |>.2 k (by simpa using hlen ▸ hlt) hlt
        simp only [get_eq_getElem, getElem_mapIdx, forall_const] at hpa
        obtain ⟨v, hv⟩ := hl _ (List.getElem?_eq_getElem (hlen ▸ hlt))
        rw [← hget, hpa, hv]
        rfl
      · obtain ⟨i, c⟩ := p
        rw [show i = k from hk] at hrun
        simp only [if_true] at hrun
        exact (pure_eq_ok.mp hrun).1.symm
    rw [← hvis] at hm
    refine (hm.plain (n := ⟨n.tag, n.span, n.id, cs⟩) (isResolved_of_callee hpla hke)
      fun heq => ?_).close hn (isPlaced_of_ne ?_)
    · rw [show n.tag = _ from heq] at hpla
      cases hpla
    · constructor <;> rintro heq <;> rw [heq] at hpla <;> cases hpla
  · obtain ⟨i, hi⟩ := mem_iff_getElem?.mp hp
    rw [getElem?_mapIdx, Option.map_eq_some_iff] at hi
    obtain ⟨c, hc, rfl⟩ := hi
    dsimp only
    split
    · rename_i hik
      subst hik
      obtain ⟨v, rfl⟩ := hl c hc
      exact fun r e r' h hr => (resolves_leaf rfl h hr).widen rfl (by simp [Tree.uses])
    · have hchi : n.child i = c := by rw [child, hc, Option.getD_some]
      rw [← hchi]
      refine resolves_child hrec hn hknown ho ?_ _
      rw [hchi, ← map_snd_visits _ ctx.home, hvis, map_map]
      exact mem_map_of_mem hp

lemma resolves_lambda (htag : n.tag = .lambda) : Resolves u [(ctx.home, n.tree)] (do
      let body ← inner rec ctx (n.child 1)
      return n.rebuild [n.child 0, body]) := by
  have ho : n.tag.isOpen := htag ▸ rfl
  have hv (home : Option ClassId) : n.visits u home = [(home, n.child 1)] := by
    simp [visits, places, htag]
  have hp : (n.child 0).Bare u := bare_params hn (htag ▸ rfl) (htag ▸ rfl)
  intro r e r' h hr
  obtain ⟨body, t, hb, h⟩ := bind_eq_ok.mp h
  cases h
  have hinn := resolves_child hrec hn hknown ho (by simp [reached, hv]) _ hb hr
  rw [rebuild, htag]
  have hpe : ([n.child 0, body].flatMap definers).Perm ([body].flatMap definers) := by
    simp [hp.definers]
  have hbo := hinn.among (by simpa [hp.resolved] using hinn.resolved) hpe
    (by simp [hp.fields])
  exact Made.close (hv ctx.home ▸ hbo.node (n := ⟨.lambda, n.span, n.id, _⟩)
    (isResolved_of_body rfl (by simp) hpe (by simp)) (by simp) rfl rfl) hn (isPlaced_of_ne (by simp [htag]))

lemma resolves_singletonClass (htag : n.tag = .singletonClass) :
    Resolves u [(ctx.home, n.tree)] (singletonClass rec ctx n) := by
  have ho : n.tag.isOpen := htag ▸ rfl
  have hv (home : Option ClassId) : n.visits u home = [(home, n.child 0)] ++ [(none, n.child 1)] := by
    simp [visits, places, htag]
  intro r e r' h hr
  unfold singletonClass at h
  rw [get_bind_eq] at h
  cases hid : r.openedSingleton? ctx (n.child 0) with
  | some id =>
    rw [hid] at h
    have hs : n.child 0 = .name "self" := by
      cases hc : n.child 0 with
      | name v => simp_all [openedSingleton?, Tree.name?]
      | _ => simp [openedSingleton?, hc, Tree.name?] at hid
    refine resolves_classBody hrec hn hknown ctx ho (by simp [htag]) [(ctx.home, n.child 0)]
      (fun r hr => (Made.nil hr).widen (hs ▸ rfl) ?_) (by rw [hv, htag]; rfl) id h hr
    rw [hs, Tree.uses, if_neg (by decide), filterMap_nil]
  | none =>
    rw [hid] at h
    obtain ⟨object, t, hobj, h⟩ := bind_eq_ok.mp h
    obtain ⟨body, t', hb, h⟩ := bind_eq_ok.mp h
    cases h
    have hf := resolves_child hrec hn hknown ho (by simp [reached, hv]) _ hobj hr
    have hsec := resolves_child hrec hn hknown ho (by simp [reached, hv]) _ hb
      hf.during
    have hbo := hf.append hsec
    rw [rebuild, htag]
    exact Made.close (hv ctx.home ▸ hbo.node (n := ⟨.singletonClass, n.span, n.id, [object, body]⟩)
      (isResolved_of_body rfl (by simp) (.refl _) (by simp)) (by simp) rfl rfl) hn (isPlaced_of_ne (by simp [htag]))

lemma resolves_mapChildren (ho : n.tag.isOpen)
    (hv : ∀ home, n.visits u home = (n.children.mapIdx fun i c => (i, c)).map fun p => (home, p.2))
    (htag : n.tag.isPlainCode || [Tag.loop, .doLoop, .ret, .leave, .proceed].contains n.tag)
    (hne : n.tag ≠ .index ∧ n.tag ≠ .assign ∧ n.tag ≠ .path) (span : Span) :
    Resolves u [(ctx.home, n.tree)] (n.mapChildren (rec (ctx, span))) := by
  intro r e r' h hr
  obtain ⟨cs, hcs, rfl⟩ := mapChildren_eq_ok h
  have hlen : cs.length = n.children.length := (mapM_forall₂ hcs fun _ _ _ _ _ _ => trivial).length_eq.symm
  have ha {k} (hk : n.tag.arity? = some k) : cs.length = k := hlen.trans (hn.length_children ho hk)
  have hmap (home : Option ClassId) : n.visits u home = n.children.map fun c => (home, c) := by
    rw [hv]
    exact ext_getElem (by simp) (by simp)
  have hm := Made.mapM (t := fun c => (ctx.home, c)) (fun c hc => ?_) hr hcs
  · have hres : (Node.mk n.tag n.span n.id cs).IsResolved ∧
        (Node.mk n.tag n.span n.id cs).body? = none := by
      rcases Bool.or_eq_true _ _ |>.mp htag with hco | hl
      · exact isResolved_of_isPlainCode hco
      · simp only [contains_cons, contains_nil, Bool.or_false, Bool.or_eq_true, beq_iff_eq] at hl
        rcases hl with heq | heq | heq | heq | heq
        all_goals
          rw [heq] at ha ⊢
          refine ⟨isResolved_of_parts (fun hex => ?_) nofun ?_ rfl, rfl⟩
        · simp at hex
        · obtain ⟨a, b, rfl⟩ := length_eq_two.mp (ha rfl)
          simp [parts, Tag.calleePlace?, child]
        · simp at hex
        · obtain ⟨a, b, rfl⟩ := length_eq_two.mp (ha rfl)
          simp [parts, Tag.calleePlace?, child]
        all_goals first | exact Nat.le_of_eq (ha rfl) | exact .refl _
    rw [← hmap] at hm
    exact (hm.plain (n := ⟨n.tag, n.span, n.id, cs⟩) hres hne.1).close hn (isPlaced_of_ne hne.2)
  · refine hrec (ctx, span) c (size_lt_of_mem hc) (hn.children ho c hc) (hknown.reached hn ?_)
    simpa [reached, hmap] using hc

lemma resolves_assignment (htag : n.tag = .assign) (span : Span) : Resolves u [(ctx.home, n.tree)] (do
      let value ← rec (ctx, span) (n.child 1)
      assign (n.child 0) value ctx span) := by
  obtain ⟨target, value, hc, -, hval⟩ := hn.assign htag
  have hchi : n.child 1 = value := by simp [child, hc]
  intro r e r' h hr
  obtain ⟨v, t, hv, h⟩ := bind_eq_ok.mp h
  have hm := hrec _ (n.child 1) (n.size_child_lt 1) (hchi ▸ hval)
    (hknown.reached hn (by simp [reached, visits, places, htag])) hv hr
  obtain ⟨hp, hm⟩ := made_assign hm h
  refine Made.close ?_ hn ⟨fun _ => hp, fun heq => by rw [htag] at heq; cases heq⟩
  convert hm using 1
  simp only [visits, places, htag]
  split <;> rfl

lemma resolves_class (htag : n.tag = .classBody ∨ n.tag = .moduleBody) (p : Resolve Tree) :
    Resolves u [(ctx.home, n.tree)] (do
      let r ← get
      match r.classSites[(⟨r.unit, n.id⟩ : SiteKey)]? with
      | some cls => classBody rec ctx n cls
      | none => p) := by
  intro r e r' h hr
  rw [get_bind_eq, hr.classSites_eq, hr.unit_eq] at h
  obtain ⟨cls, hcls⟩ := Option.isSome_iff_exists.mp
    ((through_tree hknown).1 (by rcases htag with htag | htag <;> rw [htag] <;> rfl))
  rw [hcls] at h
  refine resolves_classBody hrec hn hknown ctx (by rcases htag with htag | htag <;> rw [htag] <;> rfl)
    (by rcases htag with htag | htag <;> simp [htag]) [] (fun r hr => .nil hr) ?_ cls h hr
  rcases htag with htag | htag <;> simp [visits, places, htag]

lemma resolves_step (place : Place) : Resolves u [(place.1.home, n.tree)] (step rec place n.tree) := by
  obtain ⟨ctx, around⟩ := place
  obtain ⟨tag, span, id, children⟩ := n
  have hget {p : Resolver → Resolve Tree} {ins} (hp : ∀ r, Resolves u ins (p r)) :
      Resolves u ins (do p (← get)) := fun r e r' h hr => hp r h hr
  have hd {p} (hp : Resolves u [] p) (htag : tag ≠ .assign ∧ tag ≠ .path)
      (hv : visits u ctx.home ⟨tag, span, id, children⟩ = []) :
      Resolves u [(ctx.home, .node tag span id children)] p := fun r e r' h hr =>
    Made.close (hv ▸ hp h hr) hn (isPlaced_of_ne htag)
  have hcon x : Resolves u [] (do constant (← Resolve.ofExcept x) span) := by
    intro r e r' h hr
    cases x with
    | ok c => exact resolves_constant c h hr
    | error err => cases h
  have hf := hn.pruned.1.formed
  cases tag with
  | classBody => exact resolves_class hrec hn hknown ctx (.inl rfl) _
  | moduleBody => exact resolves_class hrec hn hknown ctx (.inr rfl) _
  | singletonClass => exact hget fun r => resolves_singletonClass hrec hn hknown ctx rfl
  | method => exact hget fun r => resolves_methodAt hrec hn hknown ctx (.inl ⟨rfl, rfl⟩)
  | singletonMethod => exact hget fun r => resolves_methodAt hrec hn hknown ctx (.inr ⟨rfl, rfl⟩)
  | inclusion | aliasing => exact hget fun r => hd (resolves_leaf rfl) (by simp) rfl
  | super => exact hget fun r => resolves_superCall hrec hn hknown ctx (.inl rfl)
  | implicitSuper => exact hget fun r => resolves_superCall hrec hn hknown ctx (.inr rfl)
  | assign => exact hget fun r => resolves_assignment hrec hn hknown ctx rfl span
  | path =>
    intro r e r' h hr
    obtain ⟨c, hc, -⟩ := ofExcept_bind_eq_ok.mp h
    exact Made.close (hcon _ h hr) hn ⟨nofun, fun _ => isChain_of_constantPath hn hc⟩
  | topPath => exact hget fun r => hd (hcon _) (by simp) rfl
  | defined => exact hget fun r => hd (resolves_leaf (by split <;> rfl)) (by simp) rfl
  | lambda => exact hget fun r => resolves_lambda hrec hn hknown ctx rfl
  | call =>
    refine hget fun r => ?_
    dsimp only
    split
    · rename_i hdir
      exact hd (resolves_leaf rfl) (by simp) (by simp [visits, places, hdir])
    · rename_i hdir
      refine resolves_childrenBut hrec hn hknown ctx rfl rfl ?_
      simp only [visits, places, if_neg hdir]
      exact visits_all _ _
  | send | safeSend =>
    exact hget fun r => resolves_childrenBut hrec hn hknown ctx rfl rfl (visits_all _ _)
  | const | procNew | index => exact absurd hf (by simp [isFormed, pruned, Tag.isSource])
  | _ =>
    exact hget fun r => resolves_mapChildren hrec hn hknown ctx rfl (fun _ => visits_all _ _) rfl
      (by simp) _

end

/-- Resolving the names of a unit makes nothing twice, and makes a field of every instance variable. -/
theorem resolves_recurse (place : Place) (he : e.IsLowered) (hknown : Known u e) :
    Resolves u [(place.1.home, e)] (Tree.recurse step place e) := by
  induction hs : e.size using Nat.strongRecOn generalizing place e with
  | ind k ih =>
    rw [recurse_eq]
    cases hn : e.node? with
    | some n =>
      cases tree_of_node? hn
      refine resolves_step (fun place c hc hl hknown => ?_) he hknown place
      rw [if_pos hc]
      exact ih _ (hs ▸ hc) place hl hknown rfl
    | none =>
      cases e with
      | node tag span id children => cases hn
      | name v => exact resolves_readName v _
      | _ => exact fun r e r' h hr => (resolves_leaf rfl h hr).widen rfl (by simp [Tree.uses])

end Storage

end

end Garnet
