import Garnet.Proofs.Code.Labels
import Garnet.Proofs.Tree.Everywhere

/-!
# A call whose block breaks is written once

A call whose block breaks has a place that `break` comes back to, and a text has one such place for each
number (`Emit.breakSite`). The code that a protected body runs in any case is written for every way out. So
if there are two, such a call in this code cannot be compiled (`protect_fails_of_breaks`).
-/

namespace Garnet

open List

/-- The tree runs a call whose block breaks with the number `id`. -/
inductive Tree.Breaks (id : Int) : Tree → Prop
  | call {n : Node} {k i : Nat} {span : Span} {label env : Tree}
      (hk : (n.tag, k) ∈ [(Tag.call, 2), (Tag.super, 2), (Tag.send, 3)])
      (hblock : n.child k = .node .procNew span i [label, env, .int id]) : Breaks id n.tree
  | seq {n : Node} {e : Tree} (htag : n.tag = .seq) (he : e ∈ n.children) (h : Breaks id e) : Breaks id n.tree

namespace Emit

variable {id : Int} {α β : Type} {m : Emit α} {f : α → Emit β} {own : List String} {c : Bool}

def Widens (m : Emit α) : Prop := ∀ ⦃s a s'⦄, m s = .ok a s' → s.shared.breakSites ⊆ s'.shared.breakSites

/-- The place with the number `id` is made. -/
def Sites (id : Int) (m : Emit α) : Prop :=
  ∀ ⦃s a s'⦄, m s = .ok a s' → id ∉ s.shared.breakSites ∧ id ∈ s'.shared.breakSites

/-- Where the computation ends well, it gives a value with the property. -/
abbrev Yields (m : Emit α) (Q : α → Prop) : Prop := Ensures (fun _ => True) m fun a _ => Q a

abbrev Fails (m : Emit α) : Prop := Yields m fun _ => False

lemma Yields.behind {Q : β → Prop} (hf : ∀ a, Yields (f a) Q) : Yields (m >>= f) Q :=
  Ensures.bind (S := fun _ _ => True) (fun _ _ _ _ _ => trivial) hf

lemma Levels.widens (h : Levels own m) : Widens m := by
  intro s a s' hm
  obtain ⟨_, -, -, hb⟩ := h hm
  exact hb.grows.breakSites_subset

lemma Codes.widens (h : Codes false m c own) : Widens m := Levels.widens h.levels

lemma widens_write (line : Line) : Widens (write line) := by
  intro s a s' hm
  cases hm
  exact List.Subset.refl _

lemma Widens.bind (hm : Widens m) (hf : ∀ a, Widens (f a)) : Widens (m >>= f) := by
  intro s b s' h
  obtain ⟨a, t, ha, hb⟩ := bind_eq_ok.mp h
  exact List.Subset.trans (hm ha) (hf a hb)

lemma Sites.bind (hm : Sites id m) (hf : ∀ a, Widens (f a)) : Sites id (m >>= f) := by
  intro s b s' h
  obtain ⟨a, t, ha, hb⟩ := bind_eq_ok.mp h
  exact ⟨(hm ha).1, hf a hb (hm ha).2⟩

lemma Sites.behind (hm : Widens m) (hf : ∀ ⦃a s s'⦄, m s = .ok a s' → Sites id (f a)) : Sites id (m >>= f) := by
  intro s b s' h
  obtain ⟨a, t, ha, hb⟩ := bind_eq_ok.mp h
  obtain ⟨hnot, hin⟩ := hf ha hb
  exact ⟨fun hmem => hnot (hm ha hmem), hin⟩

lemma Sites.fails (hm : Sites id m) (hf : ∀ a, Sites id (f a)) : Fails (m >>= f) := by
  intro s b s' _ h
  obtain ⟨a, t, ha, hb⟩ := bind_eq_ok.mp h
  exact (hf a hb).1 (hm ha).2

lemma fails_newLabel {stem : String} {f : String → Emit β} (hst : Label.isOuterStem stem)
    (hf : ∀ label, ¬Label.IsLookup label → Fails (f label)) : Fails (newLabel stem >>= f) := by
  intro s b s' hs h
  obtain ⟨_, t, hl, hb⟩ := bind_eq_ok.mp h
  cases hl
  exact hf _ (Label.not_isLookup_inner hst (s.shared.labels + 1 : Nat)) hs hb

/-! ### Calls -/

lemma sites_breakSite : Sites id (breakSite id) := by
  intro s label s' h
  obtain ⟨-, hnot, hs, -⟩ := breakSite_eq_ok h
  exact ⟨hnot, hs ▸ mem_cons_self⟩

lemma sites_invoke (x : Exits) (target : CallTarget) {call : CallArgs} (hid : call.breakId = some id) :
    Sites id (invoke x target call) := by
  rw [invoke, hid]
  refine .behind (Levels.widens levels_branchPoint) fun _ _ _ _ => ?_
  dsimp only
  rw [bind_map_left]
  refine sites_breakSite.bind fun label => ?_
  cases call.splat with
  | none => exact (Levels.widens (levels_invokePlain _ _)).bind fun _ => (widens_write _).bind fun _ => widens_write _
  | some array =>
    exact (Levels.widens (levels_invokeSplat _ _ _ _)).bind fun _ => (widens_write _).bind fun _ => widens_write _

section

variable {rec : Exits → Tree → Emit Unit}
  (hrec : ∀ ⦃b : Bool⦄ (x : Exits) (e : Tree), x.Outer → Codes b (rec x e) false []) {x : Exits}
  (hx : x.Outer)
include hrec hx

lemma sites_callOn {span : Span} {i : Nat} {label env : Tree} (hid : 0 ≤ id) (receiver : Operand)
    (target : CallTarget) (args : Tree) (mark : Nat) :
    Sites id (callOn rec x receiver target args (.node .procNew span i [label, env, .int id]) mark) := by
  have hb : Yields (callArgs rec x receiver args (.node .procNew span i [label, env, .int id]))
      fun call => call.breakId = some id := by
    rw [callArgs]
    split
    on_goal 1 => refine .behind fun _ => ?_
    all_goals
      refine .behind fun _ => .behind fun _ => .behind fun _ => .behind fun _ => .pure fun _ _ => ?_
      exact if_pos hid
  refine .behind (codes_callArgs hrec hx receiver args _).widens fun call s s' h => ?_
  exact (sites_invoke x target (hb trivial h)).bind fun _ => (codes_release mark).widens

omit hrec hx in
lemma sites_runEnsure {e : Tree} (he : e.Breaks id) (hsites : Sites id (rec x e)) :
    Sites id (runEnsure rec x e) := by
  rw [runEnsure, if_pos (by cases he <;> rfl)]
  exact .behind codes_mark.widens fun _ _ _ _ => .behind codes_stash.widens fun _ _ _ _ =>
    hsites.bind fun _ => (widens_write _).bind fun _ => (codes_release _).widens

lemma fails_rescueBody (n : Node) (clauses : List Tree) (otherwise : Tree) {e : Tree} (he : e.Breaks id)
    (hsites : Sites id (rec x e)) : Fails (rescueBody rec x n clauses otherwise e) := by
  have hrun := sites_runEnsure he hsites
  refine fails_newLabel rfl fun retry hr => fails_newLabel rfl fun rescue hres =>
    fails_newLabel rfl fun done hd => .behind fun _ => .behind fun _ => .behind fun _ =>
    .behind fun _ => .behind fun _ => ?_
  split
  on_goal 1 => refine .behind fun _ => ?_
  all_goals
    -- what is written in between forgets no place
    exact hrun.fails fun _ => .behind (codes_jump hd).widens fun _ _ _ _ =>
    .behind (codes_bindLabel hres).widens fun _ _ _ _ => .behind (widens_write _) fun _ _ _ _ =>
    .behind (codes_store _ _).widens fun _ _ _ _ =>
    .behind (Codes.forM fun c _ => (codes_rescueClause hrec hx e hr hd n.span c).keeps).widens
      fun _ _ _ _ => hrun.bind fun _ => Codes.widens <| codes_mark.bind fun _ => (hrec x _ hx).bind fun _ =>
    codes_stash.bind fun _ => (codes_callRuntime x _ _ rfl).bind fun _ => (codes_release _).bind fun _ =>
    codes_unreachable.bind fun _ => codes_bindLabel hd

end

lemma exists_nodeStep (x : Exits) (n : Node) : ∃ rec, expr x n.tree = nodeStep rec x n ∧
    (∀ ⦃b : Bool⦄ (y : Exits) (t : Tree), y.Outer → Codes b (rec y t) false []) ∧
    ∀ t : Tree, t.size < n.tree.size → rec x t = expr x t := by
  refine ⟨fun y t => if y.weight + t.size < x.weight + n.tree.size then expr y t else pure default,
    recurseOn_eq _ _ (x, n.tree), fun b y t hy => ?_, fun t h => if_pos (Nat.add_lt_add_left h _)⟩
  dsimp only
  split
  · exact codes_expr hy t
  · exact (Codes.pure _).keeps

lemma sites_expr {x : Exits} (hx : x.Outer) (hid : 0 ≤ id) {e : Tree} (he : e.Breaks id) :
    Sites id (expr x e) := by
  induction he with
  | @call n k i span label env hk hblock =>
    obtain ⟨rec, heq, hrec, -⟩ := exists_nodeStep x n
    have hon (receiver target args mark) : Sites id (callOn rec x receiver target args (n.child k) mark) :=
      hblock ▸ sites_callOn hrec hx hid receiver target args mark
    simp only [mem_cons, Prod.mk.injEq, not_mem_nil, or_false] at hk
    rw [heq, nodeStep]
    rcases hk with ⟨htag, rfl⟩ | ⟨htag, rfl⟩ | ⟨htag, rfl⟩ <;> rw [htag]
    case inr.inr =>
      refine .behind (codes_nameAt n 1).widens fun _ _ _ _ => ?_
      have hs : Sites id (callSend rec x n) := .behind (codes_nameAt n 1).widens fun _ _ _ _ =>
        .behind codes_mark.widens fun _ _ _ _ => .behind (codes_operand hrec hx _).widens fun _ _ _ _ => hon ..
      split
      -- a call with a block is not carried out in line
      · rwa [hblock, if_neg (by simp [Tree.isAbsent])]
      · exact hs
    all_goals
      exact .behind (codes_nameAt n 0).widens fun _ _ _ _ => .behind codes_mark.widens fun _ _ _ _ => hon ..
  | @seq n e htag he _ ih =>
    obtain ⟨rec, heq, hrec, hsmall⟩ := exists_nodeStep x n
    obtain ⟨before, behind, hcs⟩ := append_of_mem he
    have hf (cs : List Tree) : Widens (cs.forM (rec x)) := (Codes.forM fun c _ => hrec x c hx).widens
    rw [← hsmall e (n.size_lt_of_mem he)] at ih
    rw [heq, nodeStep, htag, if_neg (by simp [ne_nil_of_mem he])]
    change Sites id (forM n.children (rec x))
    rw [hcs, forM_append, forM_cons]
    exact .behind (hf before) fun _ _ _ _ => ih.bind fun _ => hf behind

/-- **A call in code that runs in any case.** A protected body with rescue clauses cannot be compiled if the
code that it runs in any case calls a method with a block that breaks. -/
theorem protect_fails_of_breaks {n : Node} (htag : n.tag = .protect) (hlen : 4 < n.children.length)
    (hid : 0 ≤ id) (he : (n.child (n.children.length - 1)).Breaks id) {x : Exits} (hx : x.Outer) (s : Emitter) :
    ∃ err s', expr x n.tree s = .error err s' := by
  obtain ⟨rec, heq, hrec, hsmall⟩ := exists_nodeStep x n
  have hsites := hsmall _ (n.size_child_lt (n.children.length - 1)) ▸ sites_expr hx hid he
  have hfails : Fails (expr x n.tree) := by
    rw [heq, nodeStep, htag, protect]
    dsimp only
    rw [if_neg (by omega), if_neg (by rw [isEmpty_iff_length_eq_zero]; simp; omega)]
    exact fails_rescueBody hrec hx n _ _ he hsites
  cases h : expr x n.tree s with
  | ok a s' => exact (hfails trivial h).elim
  | error err s' => exact ⟨err, s', rfl⟩

/-- A body with a rescue clause, and code that runs in any case. -/
def guardedBy (ensure : Tree) : Node :=
  ⟨.protect, .zero, 0, [.int 1, .node .index .zero 1 [.name "self", .int 0],
    .node .rescue .zero 2 [.name "true", .int 2], .absent, ensure]⟩

def breakingCall : Tree := .node .call .zero 3 [.name "each", .node .args .zero 4 [],
    .node .procNew .zero 5 [.name "__lambda_0", .int 0, .int 0]]

theorem protect_fails_of_breaks_call :
    ∃ err s', expr {} (guardedBy breakingCall).tree (.start countUp {}) = .error err s' :=
  protect_fails_of_breaks rfl (by decide) (Int.le_refl 0)
    (.call (n := ⟨.call, _, _, _⟩) (k := 2) (by decide) rfl) .empty _

/-- The call and the body compile alone, and fail together. -/
theorem breakingCall_fails_in_ensure :
    [breakingCall, (guardedBy .absent).tree, (guardedBy breakingCall).tree].map
      (fun body => expr {} body (.start { countUp with body } {}) matches .ok ..) = [true, true, false] := by
  cbv

end Emit

end Garnet
