import Garnet.Proofs.Closure.Labels

/-!
# Places that `break` goes to

A block that a `break` leaves gets a number for the place behind its call, and the node that creates the
block carries it. The numbers are given out by a counter of the unit, one for each block, so within one
unit no two nodes carry the same number (`nodup_breakIds`). The counter starts at zero in every unit, so
nothing of the kind holds across units.
-/

namespace Garnet

open List Garnet.Tree

variable {e : Tree} {tag : Tag}

/-- The number of the place that `break` goes to, in a node that creates a block. -/
def Node.breakId? (n : Node) : Option Nat := match n.tag, n.child 2 with
  | .procNew, .int (.ofNat b) => some b
  | _, _ => none

namespace Tree

mutual

/-- The numbers of the places that `break` goes to, in all nodes of a tree that create blocks. -/
def breakIds : Tree → List Nat
  | .node tag span id children =>
    breakIdsIn children ++ (Node.breakId? ⟨tag, span, id, children⟩).toList
  | _ => []

def breakIdsIn : List Tree → List Nat
  | [] => []
  | e :: es => breakIds e ++ breakIdsIn es

end

lemma breakIdsIn_eq (es : List Tree) : breakIdsIn es = es.flatMap breakIds := by
  induction es with
  | nil => rfl
  | cons e es ih => rw [breakIdsIn, ih, flatMap_cons]

lemma breakIds_node (htag : tag ≠ .procNew) (span : Span) (id : Nat) (cs : List Tree) :
    (node tag span id cs).breakIds = cs.flatMap breakIds := by
  have hn : (Node.mk tag span id cs).breakId? = none := by
    unfold Node.breakId?
    split
    · rename_i htag' _
      exact absurd htag' htag
    · rfl
  rw [breakIds, breakIdsIn_eq, hn, Option.toList_none, append_nil]

lemma breakIds_of_node? (h : e.node? = none) : e.breakIds = [] := by
  cases e with
  | node tag span id children => cases h
  | _ => rfl

/-- No node of the tree creates a block, as it is before lifting. -/
abbrev IsUnlifted (e : Tree) : Prop := e.Everywhere fun n => n.tag ≠ .procNew

lemma breakIds_of_isUnlifted (h : e.IsUnlifted) : e.breakIds = [] := by
  induction e using induction_on_nodes with
  | leaf e he => exact breakIds_of_node? he
  | node n ih =>
    obtain ⟨hn, hchi⟩ := everywhere_node.mp h
    rw [Node.tree, breakIds_node hn, flatMap_eq_nil_iff]
    exact fun c hc => ih c hc (hchi c hc)

end Tree

/-- The numbers of the places that `break` goes to, in the nodes of a routine that create blocks. -/
def Routine.breakIds (r : Routine) : List Nat := r.body.breakIds

namespace Closure

variable {span : Span}

/-! ### Giving out numbers -/

lemma breakId_settle (ss : Scopes) (i : Nat) : (ss.settle.get i).breakId = (ss.get i).breakId :=
  ((Scopes.captures_captureAll _ _).breakId i).trans ((Scopes.declares_declareAll ss _).breakId i)

lemma breakId_unique (unit : String) (he : e.Everywhere Node.SingleExit) {i j b : Nat}
    (hi : ((analyse unit e).get i).breakId = some b) (hj : ((analyse unit e).get j).breakId = some b) :
    i = j := by
  have hn i : ((opening unit e).scopes.get i).breakId = none := by
    have hget : (opening unit e).scopes.get i = if i = 0 then mainScope unit e else default :=
      Scopes.get_push #[] (mainScope unit e) i
    rw [hget]
    split <;> rfl
  have hnum := (walks_opening unit he).numbered
    ⟨fun hi => (by cases (hn _).symm.trans hi), fun hi => (by cases (hn _).symm.trans hi)⟩
  rw [analyse_eq, breakId_settle] at hi hj
  exact hnum.unique hi hj

/-! ### Lifting -/

section

variable (ss : Scopes)

/-- The numbers of the first `n` scopes. -/
def numbersBelow (n : Nat) : List Nat := (range n).filterMap fun i => (ss.get i).breakId

def Lifting.breakIds (s : Lifting) : List Nat := s.routines.flatMap fun q => q.2.breakIds

/-- The step of the walk puts each number of a scope that it takes into one node at most. The numbers of
the trees `ins` may be in the trees `outs`. -/
def Places {α : Type} (ins : List Tree) (p : Lift α) (outs : α → List Tree) : Prop :=
  ∀ ⦃s a s'⦄, p s = .ok a s' → ∀ b,
    ((outs a).flatMap breakIds).count b + s'.breakIds.count b + (numbersBelow ss s.nextScope).count b ≤
      (ins.flatMap breakIds).count b + s.breakIds.count b + (numbersBelow ss s'.nextScope).count b

end

namespace Places

variable {cs ins u r : List Tree} {n : Node} {ss : Scopes} {α β : Type} {p : Lift α} {k : α → Lift β}
  {mid : α → List Tree} {outs : β → List Tree}

lemma pure {a : β} (h : ∀ b, ((outs a).flatMap breakIds).count b ≤ (ins.flatMap breakIds).count b) :
    Places ss ins (pure a) outs := by
  intro s a' s' hp b
  cases hp
  have hb := h b
  omega

lemma bind (r : List Tree) (hp : Places ss u p mid) (hk : ∀ a, Places ss (mid a ++ r) (k a) outs)
    (hins : ∀ b, (u.flatMap breakIds).count b + (r.flatMap breakIds).count b ≤
      (ins.flatMap breakIds).count b) : Places ss ins (p >>= k) outs := by
  intro s c s' h b
  obtain ⟨a, t, ha, hc⟩ := bind_eq_ok.mp h
  have hf := hp ha b
  have hr := hk a hc b
  have hin := hins b
  rw [flatMap_append, count_append] at hr
  omega

lemma after (hp : Places ss [] p mid) (hk : ∀ a, Places ss (mid a ++ ins) (k a) outs) :
    Places ss ins (p >>= k) outs :=
  bind ins hp hk fun b => by simp

lemma mono {ins' : List Tree} (h : Places ss ins p mid)
    (hins : ∀ b, (ins.flatMap breakIds).count b ≤ (ins'.flatMap breakIds).count b) :
    Places ss ins' p mid := by
  intro s a s' hp b
  have hb := h hp b
  have hi := hins b
  omega

lemma throw {e : CompileError} : Places ss ins (throw e : Lift β) outs :=
  fun _ _ _ h => absurd h throw_ne_ok

lemma node (htag : tag ≠ .procNew) : Places ss cs (Build.node tag span cs) ([·]) := by
  intro s e s' h b
  cases h
  rw [flatMap_singleton, breakIds_node htag]
  exact le_rfl

lemma rebuild (htag : n.tag ≠ .procNew) : Places ss cs (Pure.pure (n.rebuild cs) : Lift Tree) ([·]) := by
  refine pure fun b => Nat.le_of_eq ?_
  rw [flatMap_singleton, Node.rebuild, breakIds_node htag]

lemma mapM {f : Tree → Lift Tree} (h : ∀ c ∈ cs, Places ss [] (f c) ([·])) :
    Places ss [] (cs.mapM f) id := by
  induction cs with
  | nil => exact pure fun b => le_rfl
  | cons c cs ih =>
    rw [mapM_cons]
    refine after (h c mem_cons_self) fun c' => ?_
    refine bind [c'] (ih fun d hd => h d (mem_cons_of_mem c hd)) (fun cs' => ?_) fun b => by simp
    refine pure fun b => ?_
    simp only [id, flatMap_append, flatMap_cons, count_append]
    omega

lemma index (frame : Tree) (slot : Nat) (span : Span) :
    Places ss [frame] (index frame slot span) ([·]) := by
  have hn : Places ss [frame, .int slot] (Build.node .index span [frame, .int slot]) ([·]) :=
    node (by decide)
  intro s e s' h b
  have hb := hn h b
  simpa [breakIds] using hb

lemma climb (goal : Nat) (span : Span) (path : Tree) (here : Option Nat) :
    Places ss [path] (climb ss goal span path here) Option.toList := by
  fun_induction Closure.climb ss goal span path here with
  | case1 | case2 => exact pure fun b => by simp
  | case3 path i hne ih =>
    refine bind [] (index path 0 span) (fun path' => ?_) fun b => by simp
    have hn : Places ss [path'] (Pure.pure none) Option.toList := pure fun b => by simp
    split
    · split
      · rename_i j _ hlt
        exact ih path' j hlt
      · exact hn
    · exact hn

lemma framePath (i goal : Nat) (span : Span) : Places ss [] (framePath ss i goal span) ([·]) := by
  unfold Closure.framePath
  by_cases hf : (ss.get i).frame = true
  all_goals
    simp only [hf]
    refine bind [] (climb goal span _ _) (fun path? => ?_) fun b => le_rfl
    cases path? with
    | none => exact throw
    | some path => exact pure fun b => by simp

lemma localVariable (i : Nat) (name : String) (span : Span) :
    Places ss [] (localVariable ss i name span) ([·]) := by
  unfold Closure.localVariable
  simp only
  split
  · exact after (framePath _ _ _) fun frame => index frame _ span
  · exact pure fun b => le_rfl

lemma numbersBelow_succ (n : Nat) :
    numbersBelow ss (n + 1) = numbersBelow ss n ++ (ss.get n).breakId.toList := by
  rw [numbersBelow, numbersBelow, range_succ]
  cases h : (ss.get n).breakId <;> simp [h]

lemma takeScope : Places ss [] takeScope fun _ => [] := by
  intro s i s' h b
  cases h
  rw [numbersBelow_succ, count_append]
  exact Nat.add_le_add le_rfl (Nat.le_add_right _ _)

section

variable {rec : Site → Tree → Lift Tree}
  (hrec : ∀ site {e : Tree}, e.IsUnlifted → Places ss [] (rec site e) ([·]))
include hrec

lemma liftScope (i : Nat) {body : Tree} (hb : body.IsUnlifted) :
    Places ss [] (liftScope ss rec i body) fun _ => [] := by
  refine after (hrec _ hb) fun body' => ?_
  intro s u s' h b
  cases h
  have hc : (Lifting.mk s.nextId s.nextScope ((i, routine ss i body') :: s.routines)).breakIds =
      body'.breakIds ++ s.breakIds := rfl
  rw [hc]
  simp

lemma liftBlock (place : Place) (hn : n.tree.IsUnlifted) :
    Places ss [] (liftBlock ss rec place n) ([·]) := by
  intro s e s' h b
  obtain ⟨i, t, ht, h⟩ := bind_eq_ok.mp h
  cases ht
  obtain ⟨u, t, hs, h⟩ := bind_eq_ok.mp h
  have hb := liftScope hrec _ (hn.child 1) hs b
  cases h
  -- the new node carries the number of the scope that was taken
  have hids : (Tree.node .procNew n.span t.nextId [.name (ss.get s.nextScope).label,
      handedEnv ss place.scope, .int ((ss.get s.nextScope).breakId.elim (-1) Int.ofNat)]).breakIds =
      (ss.get s.nextScope).breakId.toList := by
    have hh : (handedEnv ss place.scope).breakIds = [] := by
      unfold handedEnv
      simp only
      split
      · rfl
      · split <;> rfl
    rw [Tree.breakIds, Tree.breakIdsIn, Tree.breakIdsIn, hh]
    cases (ss.get s.nextScope).breakId <;> rfl
  rw [flatMap_singleton, hids]
  simp only [numbersBelow_succ, count_append] at hb ⊢
  have hbef : (Lifting.mk s.nextId (s.nextScope + 1) s.routines).breakIds = s.breakIds := rfl
  have ha : (Lifting.mk (t.nextId + 1) t.nextScope t.routines).breakIds = t.breakIds := rfl
  rw [hbef] at hb
  rw [ha]
  omega

lemma liftCall (place : Place) (span : Span) (skip i : Nat) {es : List Tree}
    (hes : ∀ e ∈ es, e.IsUnlifted) :
    Places ss [] (liftCall ss rec place span skip i es) id := by
  induction es generalizing i with
  | nil => exact pure fun b => le_rfl
  | cons e es ih =>
    have hr e' : Places ss [e'] (do
        return e' :: (← Closure.liftCall ss rec place span skip (i + 1) es)) id := by
      refine bind [e'] (ih (i + 1) fun d hd => hes d (mem_cons_of_mem e hd)) (fun es' => ?_) fun b => by simp
      refine pure fun b => ?_
      simp only [id, flatMap_append, flatMap_cons, count_append]
      omega
    have he : e.IsUnlifted := hes e mem_cons_self
    rw [Closure.liftCall]
    split
    · have hk : Places ss [] (Pure.pure e) ([·]) := pure fun b => by simp [breakIds_of_isUnlifted he]
      exact after hk hr
    · split
      · rename_i n hn
        cases tree_of_node? hn
        split
        · exact after (liftBlock hrec place he) hr
        · exact after (hrec _ he) hr
      · exact after (hrec _ he) hr

lemma liftReturn (place : Place) (htag : n.tag ≠ .procNew) (hn : n.tree.IsUnlifted) :
    Places ss [] (liftReturn ss rec place n) ([·]) := by
  refine after (hrec _ (hn.child 0)) fun value => ?_
  simp only
  split
  · refine bind [value] (framePath _ _ _) (fun frame => ?_) fun b => by simp
    exact (rebuild htag).mono fun b => by simp [Nat.add_comm]
  · exact rebuild htag

lemma liftBreak (place : Place) (htag : n.tag ≠ .procNew) (hn : n.tree.IsUnlifted) :
    Places ss [] (liftBreak ss rec place n) ([·]) := by
  refine after (hrec _ (hn.child 0)) fun value => ?_
  simp only
  split
  · exact rebuild htag
  · split
    · exact node (by decide)
    · split
      · refine bind [value] (framePath _ _ _) (fun frame => ?_) fun b => by simp
        exact (rebuild htag).mono fun b => by simp [Nat.add_comm, breakIds]
      · exact throw

lemma liftStep (site : Site) (he : e.IsUnlifted) : Places ss [] (liftStep ss rec site e) ([·]) := by
  obtain ⟨place, around⟩ := site
  cases e with
  | name name =>
    unfold Closure.liftStep
    simp only
    split
    · exact localVariable _ _ _
    · exact pure fun b => le_rfl
  | node tag span id children =>
    have hn : (Node.mk tag span id children).tree.IsUnlifted := he
    have htag : tag ≠ .procNew := (Tree.everywhere_node.mp hn).1
    have hk : Places ss [] (Pure.pure (Tree.node tag span id children)) ([·]) :=
      pure fun b => by simp [Tree.breakIds_of_isUnlifted he]
    have hca skip : Places ss [] (do
        return (Node.mk tag span id children).rebuild
          (← Closure.liftCall ss rec place span skip 0 children)) ([·]) :=
      after (liftCall hrec place span skip 0 hn.children) fun cs => (rebuild htag).mono fun b => by simp
    unfold Closure.liftStep
    simp only
    split
    case h_1 | h_2 =>
      refine after (hrec _ (hn.child 0)) fun test => ?_
      refine bind [test] (hrec _ (hn.child 1)) (fun body => ?_) fun b => by simp
      exact (rebuild htag).mono fun b => by simp [Nat.add_comm]
    · exact liftBlock hrec place hn
    · exact hca 0
    · exact hca 0
    · exact hca 1
    · exact hca 1
    · refine after takeScope fun i => after (liftScope hrec i (hn.child 4)) fun _ => ?_
      refine (node (by decide)).mono fun b => ?_
      have hno : (children.take 3).flatMap Tree.breakIds = [] := flatMap_eq_nil_iff.mpr
        fun c hc => Tree.breakIds_of_isUnlifted (hn.children c (mem_of_mem_take hc))
      rw [hno]
      exact Nat.zero_le _
    · refine after (hrec _ (hn.child 0)) fun receiver => ?_
      refine after takeScope fun i => after (liftScope hrec i (hn.child 4)) fun _ => ?_
      refine (node (by decide)).mono fun b => ?_
      simp [Tree.breakIds_of_isUnlifted (hn.child 1), Tree.breakIds_of_isUnlifted (hn.child 2)]
    · refine after takeScope fun i => after (liftScope hrec i (hn.child 2)) fun _ => ?_
      refine (node (by decide)).mono fun b => ?_
      simp [Tree.breakIds_of_isUnlifted (hn.child 0), Tree.breakIds_of_isUnlifted (hn.child 1), Tree.breakIds]
    · refine after (hrec _ (hn.child 0)) fun object => ?_
      refine after takeScope fun i => after (liftScope hrec i (hn.child 1)) fun _ => ?_
      refine (node (by decide)).mono fun b => ?_
      simp [Tree.breakIds]
    · exact hk
    · exact liftReturn hrec place htag hn
    · exact liftBreak hrec place htag hn
    · refine after (hrec _ (hn.child 0)) fun value => ?_
      split
      · exact node (by decide)
      · exact rebuild htag
    · exact after (mapM fun c hc => hrec _ (hn.children c hc)) fun cs => (rebuild htag).mono fun b => by simp
  | _ => exact pure fun b => by simp [Tree.breakIds]

end

lemma recurse (site : Site) (he : e.IsUnlifted) :
    Places ss [] (recurse (Closure.liftStep ss) site e) ([·]) := by
  refine recurseOn_induction (C := fun (p : Site × Tree) l => p.2.IsUnlifted → Places ss [] l ([·]))
    (fun _ _ => pure fun b => Nat.zero_le _) (fun rec p hrec hp => ?_) (site, e) he
  exact liftStep (fun site _ hc => hrec (site, _) hc) p.1 hp

end Places

theorem nodup_breakIds {unit : String} {nextId : Nat} {rs : List Routine} (he : e.IsUnlifted)
    (hex : e.Everywhere Node.SingleExit) (h : liftRoutines unit e nextId = .ok rs) :
    (rs.flatMap Routine.breakIds).Nodup := by
  rw [liftRoutines] at h
  split at h
  · rename_i s hl
    cases h
    have hp := Places.liftScope (fun site _ hc => Places.recurse site hc) 0 he hl
    have hn n : (numbersBelow (analyse unit e) n).Nodup :=
      List.Nodup.filterMap (fun i j b hi hj => breakId_unique unit hex hi hj) nodup_range
    rw [flatMap_map]
    refine ((mergeSort_perm _ _).flatMap_right _).nodup_iff.mpr ?_
    rw [nodup_iff_count_le_one]
    intro b
    have hb := hp b
    have hone := nodup_iff_count_le_one.mp (hn s.nextScope) b
    have hemp : (Lifting.breakIds { nextId }).count b = 0 := rfl
    simp only at hb
    change s.breakIds.count b ≤ 1
    omega
  · cases h

end Closure

end Garnet
