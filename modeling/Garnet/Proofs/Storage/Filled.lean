import Garnet.Proofs.Lowering.Unit
import Garnet.Proofs.Storage.Classes

/-!
# Instance variables have their words

Collecting a unit looks at every place at which its names are resolved later, and it knows which class
holds the instance variables there. So when the classes get their layouts, each instance variable that is
read or written in an instance method is one of the variables of its class: this is `Visits.fills`. That
the two walks agree on the class is a matter of the method definitions: they have distinct identities, so
none is entered in place of another.
-/

namespace Garnet

open List Resolver Garnet.Tree Node

section

variable {home owner : Option ClassId} {es' objects es : List Tree} {s u r r' : Resolver} {ctx : Context}
  {n : Node} {e : Tree}

/-! ### What is looked into -/

lemma stored_of_isChain (h : e.isChain) : Storage.Stored u e := by
  fun_induction Tree.isChain e with
  | case1 => exact .leaf rfl
  | case2 span id => exact .node (n := ⟨.topPath, span, id, _⟩) (isPlaced_of_ne (by simp)) nofun
  | case3 span id scope => exact .node (n := ⟨.path, span, id, _⟩) ⟨nofun, fun _ => h⟩ nofun
  | case4 => cases h

/-- Whatever is looked into is a place where names are resolved, or nothing is assigned to in it. -/
lemma Storage.Stored.shown (h : Stored u n.tree) (hn : n.tree.IsLowered)
    (ho : n.tag = .singletonMethod → (n.child 0).node? = none ∨
      u.methodSites[(⟨u.unit, n.id⟩ : SiteKey)]?.any (·.install = .onObject)) :
    ∀ c ∈ n.shown, Stored u c := by
  obtain ⟨hp, hr⟩ := through_tree h
  have hall (home : Nat → Option ClassId)
      (hvis : n.places u none = (range n.children.length).map fun i => (home i, i)) :
      ∀ c ∈ n.children, Stored u c := by
    have hchi : n.reached u = n.children := by
      rw [← n.map_child_range rfl, reached, visits, hvis]
      simp [Function.comp_def]
    rwa [← hchi]
  have hl {k} (hop : n.tag.isOpen) (hk : n.tag.arity? = some k)
      (hchi : ∀ i < k, Stored u (n.child i)) : ∀ c ∈ n.children, Stored u c := by
    rw [← n.map_child_range (hn.length_children hop hk)]
    simpa using hchi
  obtain ⟨tag, span, id, children⟩ := n
  cases tag with
  | classBody | moduleBody | singletonClass | method | inclusion | aliasing | defined => exact hr
  | singletonMethod =>
    refine forall_mem_cons.mpr ⟨?_, fun c hc => hr c
      (by simp_all [reached, visits, places])⟩
    rcases ho rfl with hle | ho
    · exact .leaf hle
    · exact hr _ (by simp [reached, visits, places, ho])
  | call =>
    simp only [shown]
    split
    · exact forall_mem_nil _
    · rename_i hd
      exact fun c hc => hall (fun i => if i = 0 then none else none)
        (by simp only [places, if_neg hd]) c (mem_of_mem_tail hc)
  | assign =>
    have hpla := hp.1 rfl
    refine forall_mem_append.mpr ⟨fun c hc => ?_, ?_⟩
    · split at hc
      · cases hc
      · rename_i hcon
        cases mem_singleton.mp hc
        cases hch : (mk .assign span id children).child 0 with
        | node tag s i cs =>
          rw [hch] at hpla hcon
          exact absurd hpla hcon
        | _ => exact .leaf rfl
    · exact forall_mem_singleton.mpr (hr _ (by simp [reached, visits, places]))
  | lambda =>
    refine hl rfl rfl fun i hi => ?_
    rcases i with _ | _ | i
    · exact (bare_params hn rfl rfl).stored
    · exact hr _ (by simp [reached, visits, places])
    · omega
  | super =>
    refine hl rfl rfl fun i hi => hr _ ?_
    rcases i with _ | _ | i <;> first | omega | simp [reached, visits, places]
  | implicitSuper =>
    refine hl rfl rfl fun i hi => hr _ ?_
    cases Nat.lt_one_iff.mp hi
    simp [reached, visits, places]
  | path =>
    have hcha := hp.2 rfl
    obtain ⟨v, hv⟩ := hn.exists_name rfl rfl
    obtain ⟨scope, _, rfl⟩ := length_eq_two.mp (hn.length_children rfl rfl)
    cases hv
    exact forall_mem_cons.mpr ⟨stored_of_isChain hcha, forall_mem_singleton.mpr (.leaf rfl)⟩
  | topPath =>
    refine hl rfl rfl fun i hi => ?_
    cases Nat.lt_one_iff.mp hi
    obtain ⟨v, hv⟩ := hn.exists_name rfl rfl
    exact .leaf (hv ▸ rfl)
  | send | safeSend => exact hall (fun i => if i = 1 then none else none) rfl
  | _ => exact hall (fun _ => none) rfl

/-- What is looked into counts at most as much as the node, and the node itself counts too. -/
lemma copiesIn_shown_add (hn : n.tree.IsLowered) (hpla : n.IsPlaced) (i : Nat) :
    (copiesIn i (n.shown.map prune) + if n.tag.isDefinition && n.id == i then 1 else 0) ≤
      n.tree.prune.copies i := by
  cases ho : n.tag.isOpen with
  | true =>
    obtain ⟨ks, hks, hs⟩ := n.exists_shown
    rw [hs]
    exact copiesIn_map_prune_child_add ho hks i
  | false =>
    obtain ⟨tag, span, id, children⟩ := n
    cases tag with
    | assign =>
      obtain ⟨target, value, rfl, -, -⟩ := hn.assign rfl
      have hp : target.isPlace := hpla.1 rfl
      rw [tree, prune_assign]
      cases target with
      | node tag s i cs =>
        have hc : (Tree.node tag s i cs).isConstantPath := hp
        simp [shown, child, hc, copies]
      | name v =>
        cases hc : VarName.isConstant v <;>
          simp [shown, child, isConstantPath, hc, copies]
      | _ => cases hp
    | defined => simp [shown, Tag.isDefinition]
    | _ => cases ho

/-! ### The walk -/

/-- The trees `es` were collected up to the state `r`, and `u` is what is known when their names are
resolved. -/
structure Awaits (u : Resolver) (es : List Tree) (r : Resolver) : Prop where
  lowered : ∀ e ∈ es, e.IsLowered
  stored : ∀ e ∈ es, Storage.Stored u e
  distinct : ∀ i, copiesIn i (es.map prune) ≤ 1
  sites : ∀ i, copiesIn i (es.map prune) ≠ 0 →
    u.methodSites[(⟨u.unit, i⟩ : SiteKey)]? = r.methodSites[(⟨u.unit, i⟩ : SiteKey)]?
  classes : r.classes.Extends u.classes

/-- Between two states no other methods were entered than those of the trees `es`, and the instance
variables of `es` are variables of their classes. -/
structure Fills (u : Resolver) (home : Option ClassId) (es : List Tree) (r r' : Resolver) : Prop where
  kept : ∀ i, copiesIn i (es.map prune) = 0 →
    r'.methodSites[(⟨u.unit, i⟩ : SiteKey)]? = r.methodSites[(⟨u.unit, i⟩ : SiteKey)]?
  filled : ∀ e ∈ es, ∀ p ∈ e.uses u home, p.2 ∈ (u.classes.info p.1).instanceVars

/-- Some of the trees, at an earlier state since which their methods are as they were. -/
lemma Awaits.earlier (h : Awaits u es r') (hl : ∀ e ∈ es', e.IsLowered)
    (hs : ∀ e ∈ es', Storage.Stored u e)
    (hle : ∀ i, copiesIn i (es'.map prune) ≤ copiesIn i (es.map prune))
    (hk : ∀ i, copiesIn i (es'.map prune) ≠ 0 →
      r'.methodSites[(⟨u.unit, i⟩ : SiteKey)]? = s.methodSites[(⟨u.unit, i⟩ : SiteKey)]?)
    (hc : s.classes.Extends r'.classes) : Awaits u es' s where
  lowered := hl
  stored := hs
  distinct i := Nat.le_trans (hle i) (h.distinct i)
  sites i hi := (h.sites i (Nat.pos_iff_ne_zero.mp
    (Nat.lt_of_lt_of_le (Nat.pos_of_ne_zero hi) (hle i)))).trans (hk i hi)
  classes := hc.trans h.classes

lemma fills_variableName {v : String} {span : Span} (h : Collect.variableName v ctx span r = .ok () r')
    (hh : ∀ id ∈ ctx.home, id < r.classes.classes.size) (hext : r'.classes.Extends u.classes) :
    Fills u ctx.home [.name v] r r' := by
  have henters := enters_variableName h
  refine ⟨fun i _ => by rw [henters.methodSites], forall_mem_singleton.mpr ?_⟩
  intro p hp
  rw [Tree.uses] at hp
  split at hp
  · rename_i hins
    obtain ⟨id, hid, rfl⟩ := mem_map.mp hp
    rw [Option.mem_toList] at hid
    have hf : ctx.instanceVars = .field id := by
      rw [Context.home] at hid
      split at hid
      · cases hid
        assumption
      · cases hid
    obtain ⟨-, ho, hat⟩ := VarName.isInstance_iff.mp hins
    rw [Collect.variableName, ho, hat, hf] at h
    cases h
    have hlt := hh id hid
    have hin := hext.info id (by simpa [ClassTable.addVariable, ClassTable.modify] using hlt)
    refine hin.vars ?_
    simp only [ClassTable.addVariable, ClassTable.info_modify, hlt, and_self, if_true]
    split
    · exact contains_iff_mem.mp ‹_›
    · simp
  · cases hp

lemma fills_tree
    (hk : ∀ i, copiesIn i (n.shown.map prune) = 0 → (n.tag.isDefinition && n.id == i) = false →
      r'.methodSites[(⟨u.unit, i⟩ : SiteKey)]? = r.methodSites[(⟨u.unit, i⟩ : SiteKey)]?)
    (hf : ∀ q ∈ n.visits u home, ∀ p ∈ q.2.uses u q.1, p.2 ∈ (u.classes.info p.1).instanceVars)
    (hn : n.tree.IsLowered) (hpla : n.IsPlaced) : Fills u home [n.tree] r r' where
  kept i hi := by
    have hle := copiesIn_shown_add hn hpla i
    simp only [map_cons, map_nil, copiesIn_cons, copiesIn_nil] at hi
    refine hk i (by omega) (Bool.eq_false_iff.mpr fun hown => ?_)
    rw [hown, if_pos rfl] at hle
    omega
  filled := by
    refine forall_mem_singleton.mpr fun p hp => ?_
    rw [uses_tree] at hp
    obtain ⟨q, hq, hp⟩ := mem_flatMap.mp hp
    exact hf q hq p hp

lemma Fills.append (h : Fills u home es r s) (h' : Fills u home es' s r') :
    Fills u home (es ++ es') r r' where
  kept i hi := by
    rw [map_append, copiesIn_append] at hi
    exact (h'.kept i (by omega)).trans (h.kept i (by omega))
  filled := forall_mem_append.mpr ⟨h.filled, h'.filled⟩

lemma Awaits.tree (h : Awaits u [n.tree] r) : n.tree.IsLowered ∧ n.IsPlaced :=
  ⟨h.lowered _ mem_cons_self, (through_tree (h.stored _ mem_cons_self)).1⟩

lemma Awaits.shown (h : Awaits u [n.tree] r)
    (ho : n.tag = .singletonMethod → (n.child 0).node? = none ∨
      u.methodSites[(⟨u.unit, n.id⟩ : SiteKey)]?.any (·.install = .onObject)) : Awaits u n.shown r := by
  have hn := h.lowered _ mem_cons_self
  have hs := h.stored _ mem_cons_self
  refine h.earlier hn.shown (hs.shown hn ho) (fun i => ?_) (fun _ _ => rfl) (.refl _)
  have hle := copiesIn_shown_add hn (through_tree hs).1 i
  simp only [map_cons, copiesIn_cons]
  omega

/-- The trees behind others are seen last, so what is known of them is up to date; and they enter no
methods of those in front. -/
lemma Awaits.append (es : List Tree) (h : Awaits u (es ++ es') r') :
    Awaits u es' r' ∧ ∀ {home s}, Fills u home es' s r' → s.classes.Extends r'.classes → Awaits u es s := by
  have hl := forall_mem_append.mp h.lowered
  have hs := forall_mem_append.mp h.stored
  have hsum i : copiesIn i ((es ++ es').map prune) =
      copiesIn i (es.map prune) + copiesIn i (es'.map prune) := by
    rw [map_append, copiesIn_append]
  refine ⟨h.earlier hl.2 hs.2 (fun i => by rw [hsum]; omega) (fun _ _ => rfl) (.refl _), ?_⟩
  intro home s hf hext
  refine h.earlier hl.1 hs.1 (fun i => by rw [hsum]; omega) (fun i hi => hf.kept i ?_) hext
  have hone := h.distinct i
  rw [hsum] at hone
  omega

lemma instanceClass?_eq (h : r.classes.Extends u.classes) (hlt : ∀ id ∈ owner, id < r.classes.classes.size) :
    u.instanceClass? owner = r.instanceClass? owner := by
  cases owner with
  | none => rfl
  | some id =>
    have hin := h.info id (hlt id rfl)
    rw [instanceClass?, instanceClass?, Option.filter_some, Option.filter_some, hin.kind, hin.builtin]

lemma Node.mem_visits_method {i : Nat}
    (htag : n.tag = .method ∧ i = 0 ∧ objects = [] ∨ n.tag = .singletonMethod ∧ i = 1 ∧ objects = [n.child 0])
    {q : Spot} (hq : q ∈ n.visits u home) :
    q.1 = home ∧ q.2 ∈ objects ∨ q = (u.fieldsOf? n.id, n.child (i + 2)) := by
  rw [visits, places] at hq
  rcases htag with ⟨htag, rfl, rfl⟩ | ⟨htag, rfl, rfl⟩
  · rw [htag] at hq
    exact .inr (mem_singleton.mp hq)
  · rw [htag, map_append] at hq
    rcases mem_append.mp hq with hq | hq
    · split at hq
      · rw [mem_singleton.mp hq]
        exact .inl ⟨rfl, mem_cons_self⟩
      · cases hq
    · exact .inr (mem_singleton.mp hq)

/-- A method definition: the objects before it, the definition itself, and its body, which are
different parts of what counts. -/
lemma fills_method {i : Nat} {name : String} {install : Install} {labels : LabelTable}
    (htag : n.tag = .method ∧ i = 0 ∧ objects = [] ∨ n.tag = .singletonMethod ∧ i = 1 ∧ objects = [n.child 0])
    (hpl : ∀ e ∈ objects, e.node? = none ∨ install = .onObject) (hun : u.unit = s.unit)
    (hlt : ∀ id ∈ owner, id < (s.addMethod labels n.id name owner install).classes.classes.size)
    (hg : s.classes.Extends (s.addMethod labels n.id name owner install).classes)
    (hext : (s.addMethod labels n.id name owner install).classes.Extends r'.classes)
    (hu : Awaits u [n.tree] r') (ho : Awaits u objects s → Fills u home objects r s)
    (hb : Awaits u [n.child (i + 2)] r' →
      Fills u ((s.addMethod labels n.id name owner install).instanceClass? owner) [n.child (i + 2)]
        (s.addMethod labels n.id name owner install) r') :
    Fills u home [n.tree] r r' := by
  obtain ⟨hn, hpla⟩ := hu.tree
  have hdef : n.tag.isDefinition := by rcases htag with ⟨htag, -⟩ | ⟨htag, -⟩ <;> rw [htag] <;> rfl
  have hs : n.shown = objects ++ [n.child (i + 2)] := by
    rcases htag with ⟨htag, rfl, rfl⟩ | ⟨htag, rfl, rfl⟩ <;> rw [shown, htag] <;> rfl
  have hc j : (copiesIn j (objects.map prune) + copiesIn j ([n.child (i + 2)].map prune) +
      if n.id = j then 1 else 0) ≤ copiesIn j ([n.tree].map prune) := by
    have hle := copiesIn_shown_add hn hpla j
    rw [hs, map_append, hdef] at hle
    simpa using hle
  have hins j : (s.addMethod labels n.id name owner install).methodSites[
      (⟨u.unit, j⟩ : SiteKey)]? = if n.id = j then some ⟨s.nextLabel owner name, install, owner⟩
        else s.methodSites[(⟨u.unit, j⟩ : SiteKey)]? := by
    refine Std.HashMap.getElem?_insert.trans ?_
    simp [hun]
  have hlow := hn.shown
  rw [hs, forall_mem_append] at hlow
  -- the body is seen last, and the definition stays as it was entered
  have hl := hb (hu.earlier hlow.2 (forall_mem_singleton.mpr
    ((through_tree (hu.stored _ mem_cons_self)).2 _ (by
      rcases htag with ⟨htag, rfl, -⟩ | ⟨htag, rfl, -⟩ <;>
        simp [reached, visits, places, htag])))
    (fun j => by have := hc j; omega) (fun _ _ => rfl) (.refl _))
  have hsi : u.methodSites[(⟨u.unit, n.id⟩ : SiteKey)]? =
      some ⟨s.nextLabel owner name, install, owner⟩ := by
    have hown := hc n.id
    have hone := hu.distinct n.id
    rw [if_pos rfl] at hown
    rw [hu.sites n.id (by omega), hl.kept n.id (by omega), hins, if_pos rfl]
  have hfie : u.fieldsOf? n.id = (s.addMethod labels n.id name owner install).instanceClass? owner := by
    rw [fieldsOf?, hsi, Option.bind_some, instanceClass?_eq (hext.trans hu.classes) hlt]
  have hpar := hu.shown fun hsin => ?_
  · rw [hs] at hpar
    have hsto := forall_mem_append.mp hpar.stored
    have hf := ho (hu.earlier hlow.1 hsto.1 (fun j => by have := hc j; omega)
      (fun j hj => ?_) (hg.trans hext))
    · refine fills_tree (fun j hj hne => ?_) ?_ hn hpla
      · rw [hs, map_append, copiesIn_append] at hj
        rw [hdef, Bool.true_and, beq_eq_false_iff_ne] at hne
        rw [hl.kept j (by omega), hins, if_neg hne, hf.kept j (by omega)]
      · intro q hq p hp
        rcases mem_visits_method htag hq with ⟨hh, hq⟩ | rfl
        · exact hf.filled _ hq p (hh ▸ hp)
        · exact hl.filled _ mem_cons_self p (hfie ▸ hp)
    · have hsum := hc j
      have hone := hu.distinct j
      rw [hl.kept j (by omega), hins, if_neg]
      rintro rfl
      rw [if_pos rfl] at hsum
      omega
  · rcases htag with ⟨htag, -⟩ | ⟨htag, rfl, rfl⟩
    · rw [htag] at hsin
      cases hsin
    · refine (hpl _ mem_cons_self).imp_right fun hin => ?_
      simp [hsi, hin]

/-- Every instance variable that is looked at in a place where the instances of a class hold it is a
variable of that class. -/
theorem Visits.fills (h : Visits ctx es r r') (hs : r.Sound) (hctx : ctx.Within r.classes)
    (hh : ∀ id ∈ ctx.home, id < r.classes.classes.size) (hun : u.unit = r.unit)
    (hu : Awaits u es r') : Fills u ctx.home es r r' := by
  induction h with
  | nil => exact ⟨fun _ _ => rfl, by simp⟩
  | @leaf _ e _ hnode hna =>
    refine ⟨fun _ _ => rfl, forall_mem_singleton.mpr ?_⟩
    cases e <;> simp_all [Tree.uses, Tree.node?, Tree.name?]
  | name h => exact fills_variableName h hh hu.classes
  | @cons ctx e es _ _ _ first rest ih ih' =>
    have hste := first.changes hs hctx
    obtain ⟨hs', hctx'⟩ := hste.within hs hctx
    have hext := (hste.sound hs).2.classes
    have hext' := ((rest.changes hs' hctx').sound hs').2.classes
    obtain ⟨hr, hf⟩ := hu.append [e]
    have hl := ih' hs' hctx' (fun id hid => Nat.lt_of_lt_of_le (hh id hid) hext.size_le)
      (hun.trans first.unit_eq.symm) hr
    exact (ih hs hctx hh hun (hf hl hext')).append hl
  | @node ctx n _ _ _ hdef henters _ _ ih =>
    obtain ⟨hn, hpla⟩ := hu.tree
    have hste := henters.changes hs hctx
    obtain ⟨hs', hctx'⟩ := hste.within hs hctx
    have hext := (hste.sound hs).2.classes
    have hsho := ih hs' hctx' (fun id hid => Nat.lt_of_lt_of_le (hh id hid) hext.size_le)
      (hun.trans henters.unit.symm)
      (hu.shown fun htag => by rw [htag] at hdef; cases hdef)
    refine fills_tree (fun i hi _ => (hsho.kept i hi).trans (by rw [henters.methodSites])) ?_ hn hpla
    intro q hq p hp
    rcases mem_shown hn hq with ⟨hmem, hsa⟩ | ⟨-, hno⟩
    · exact hsho.filled q.2 hmem p (hsa hdef ▸ hp)
    · rw [hno] at hp
      cases hp
  | @cls ctx n _ _ _ id t labels r r' htag hki _ hsup hd hlab _ ih =>
    obtain ⟨hn, hpla⟩ := hu.tree
    have hste := changes_addClass hki hsup hd hlab n.id
    obtain ⟨hs', hctx'⟩ := hste.within hs hctx
    have hsho := ih hs' (hctx'.body (ClassTable.define_spec hs.apart.regular hki hsup hd).2.2)
      (by simp [Context.home, bodyContext]) hun
      (hu.shown fun heq => by rw [heq] at htag; cases htag)
    refine fills_tree (fun i hi _ => hsho.kept i hi) (fun q hq => ?_) hn hpla
    obtain ⟨k, hk, hv⟩ : ∃ k, n.shown = [n.child k] ∧ n.visits u ctx.home = [(none, n.child k)] := by
      obtain ⟨tag, _, _, _⟩ := n
      cases tag with
      | classBody => exact ⟨2, rfl, rfl⟩
      | moduleBody => exact ⟨1, rfl, rfl⟩
      | _ => cases htag
    rw [hv, mem_singleton] at hq
    subst hq
    exact hsho.filled (n.child k) (by simp [hk])
  | @singletonClass ctx n _ s _ htag object body ih ih' =>
    obtain ⟨hn, hpla⟩ := hu.tree
    have hste := object.changes hs hctx
    obtain ⟨hs', hctx'⟩ := hste.within hs hctx
    have hctx'' := hctx'.object hs' (n.child 0)
    have hext := ((body.changes hs' hctx'').sound hs').2.classes
    have hpar := hu.shown fun heq => by rw [htag] at heq; cases heq
    have hsho : n.shown = [n.child 0] ++ [n.child 1] := by rw [shown, htag]; rfl
    have hno : (s.objectContext ctx (n.child 0)).home = none := by
      rw [objectContext]
      split <;> rfl
    rw [hsho] at hpar
    obtain ⟨hr, hf⟩ := hpar.append [n.child 0]
    have hl := ih' hs' hctx'' (by simp [hno]) (hun.trans object.unit_eq.symm) hr
    rw [hno] at hl
    have hfro := ih hs hctx hh hun (hf hl hext)
    refine fills_tree (fun i hi _ => ?_) ?_ hn hpla
    · rw [hsho, map_append, copiesIn_append] at hi
      exact (hl.kept i (by omega)).trans (hfro.kept i (by omega))
    · have hv : n.visits u ctx.home = [(ctx.home, n.child 0), (none, n.child 1)] := by
        rw [visits, places, htag]
        rfl
      rw [hv]
      exact forall_mem_cons.mpr ⟨hfro.filled _ mem_cons_self,
        forall_mem_singleton.mpr (hl.filled _ mem_cons_self)⟩
  | @method ctx n i _ name owner install labels _ s _ htag before hpl hval hlab body ih ih' =>
    obtain ⟨hs', hctx'⟩ := (before.changes hs hctx).within hs hctx
    have hm : s.Change (s.addMethod labels n.id name owner install) :=
      .method _ (hval hs' hctx') hlab
    obtain ⟨hs'', hg⟩ := hm.sound hs'
    have hlt := hval hs' hctx'
    have hlt' id (hid : id ∈ owner) := Nat.lt_of_lt_of_le (hlt id hid) hg.classes.size_le
    have hctx'' := (hctx'.mono hg.classes).method hs'' hlt' name (n.child (i + 1))
    have hext := ((body.changes hs'' hctx'').sound hs'').2.classes
    have hu' : u.unit = s.unit := hun.trans before.unit_eq.symm
    refine fills_method htag hpl hu' hlt' hg.classes hext hu (ih hs hctx hh hun) fun hb => ?_
    rw [← home_methodContext _ ctx name owner (n.child (i + 1))]
    refine ih' hs'' hctx'' (fun id hid => hlt' id ?_) hu' hb
    rw [home_methodContext, instanceClass?, Option.mem_filter_iff] at hid
    exact hid.1

end

/-! ### Units -/

/-- What is known when units are collected: their classes, and the variables of these. -/
structure Collected (units : List (Nat × UnitTree)) (r r' : Resolver) : Prop where
  capital : r'.Capital
  slots : r.classes.slots.Grows r'.classes.slots
  classSites : ∀ key : SiteKey, (r.classSites[key]?).isSome → (r'.classSites[key]?).isSome
  methodSites : ∀ key : SiteKey, key.unit ∉ units.map Prod.fst → r'.methodSites[key]? = r.methodSites[key]?
  known : ∀ p ∈ units, Storage.Known { r' with unit := p.1 } p.2.tree
  filled : ∀ p ∈ units, ∀ u : Resolver, u.unit = p.1 → u.methodSites = r'.methodSites →
    r'.classes.Extends u.classes → Storage.Stored u p.2.tree →
    ∀ q ∈ p.2.tree.uses u none, q.2 ∈ (u.classes.info q.1).instanceVars

section

variable {r r' : Resolver}

lemma collectUnits_collected {units : List (Nat × UnitTree)} (hs : r.Sound) (hr : r.Capital)
    (hu : ∀ p ∈ units, p.2.IsDistinct) (hn : (units.map Prod.fst).Nodup)
    (h : (units.forM fun (i, u) => collect i u.tree : Resolve Unit) r = .ok () r') :
    Collected units r r' := by
  induction units generalizing r with
  | nil =>
    cases h
    exact ⟨hr, .refl _, fun _ hkey => hkey, fun _ _ => rfl, by simp, by simp⟩
  | cons p units ih =>
    obtain ⟨i, u⟩ := p
    rw [forall_mem_cons] at hu
    rw [map_cons, nodup_cons] at hn
    obtain ⟨_, t, hone, hre⟩ := bind_eq_ok.mp h
    have hone : collect i u.tree r = .ok () t := hone
    have hc := collect_changes hs hone
    have hsou := (hc.sound hs).1
    have hg := ((collectUnits_changes hsou hre).sound hsou).2
    have hv := visits_recurse hone
    have hs' := ((Change.unit i).sound hs).1
    obtain ⟨hl, hk⟩ := hv.later hs' (.top hs') hr (forall_mem_singleton.mpr hu.1.lowered)
    have hall := ih hsou hl.capital hu.2 hn.2 hre
    refine ⟨hall.capital, hl.slots.trans hall.slots,
      fun key hkey => hall.classSites key (hl.classSites key hkey), fun key hkey => ?_,
      forall_mem_cons.mpr ⟨?_, hall.known⟩, forall_mem_cons.mpr ⟨?_, hall.filled⟩⟩
    · rw [map_cons, mem_cons, not_or] at hkey
      exact (hall.methodSites key hkey.2).trans (hl.methodSites key hkey.1)
    · exact (forall_mem_singleton.mp hk).mono hl.unit.symm hall.classSites
    · intro w hun hsit hext hsto
      refine (hv.fills hs' (.top hs') (by simp [Context.home, topContext]) hun ?_).filled _
        mem_cons_self
      refine ⟨forall_mem_singleton.mpr hu.1.lowered, forall_mem_singleton.mpr hsto,
        fun j => ?_, fun j _ => ?_, hg.classes.trans hext⟩
      · have hle : u.tree.prune.copies j ≤ if j < u.nextId then 1 else 0 := hu.1.distinct j
        simp only [map_cons, map_nil, copiesIn_cons, copiesIn_nil]
        split at hle <;> omega
      · rw [hsit, hall.methodSites _ (hun ▸ hn.1)]

end

end Garnet
