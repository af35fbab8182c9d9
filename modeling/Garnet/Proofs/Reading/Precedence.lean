import Garnet.Operator
import Mathlib.Tactic.Lemma

/-!
# Precedence

A row of operands with operators between them is a `Formula`, which an `OperatorTree` groups. The tree is
`Ordered` if the operator at the root of a left operand binds tighter than its parent, or as tightly if the parent
groups to the left, and the same holds on the right.

* A formula has at most one such tree (`OperatorTree.eq_of_reading_eq`): operators of one priority group to one
  side, so of two candidates for the root each would have to stand below the other.
* `OperatorTree.build` finds one from left to right with a stack of operators with their left operands; `plug`
  puts the open operand into these frames. Before an operator goes onto the stack, the frames that bind before it
  are closed. The stack is good (`Fits`) if the tree is ordered with the next operator in the open place.
-/

namespace Garnet

open List

variable {o : Connective}

/-- The operator stands between two operands and is neither an assignment nor part of a condition. -/
def Operator.isConnective (o : Operator) : Bool :=
  !o.isAssignment && o.kind != .ternary && o.kind != .ternaryElse

/-- The operators of the table between two operands, without assignments and the condition. -/
abbrev Connective : Type := { o : Operator // o ∈ Operator.binaryTable ∧ o.isConnective }

lemma Connective.assoc_eq {o' : Connective} (h : o.1.priority = o'.1.priority) : o.1.assoc = o'.1.assoc := by
  have hall : ∀ o ∈ Operator.binaryTable, o.isConnective → ∀ o' ∈ Operator.binaryTable, o'.isConnective →
      o.priority = o'.priority → o.assoc = o'.assoc := by decide
  exact hall o.1 o.2.1 o.2.2 o'.1 o'.2.1 o'.2.2 h

/-- Operands with operators between them. -/
structure Formula (α : Type) where
  first : α
  rest : List (Connective × α)

def Formula.concat {α : Type} (f : Formula α) (last : Connective × α) : Formula α :=
  ⟨f.first, f.rest ++ [last]⟩

/-- A grouping of operands and operators. -/
inductive OperatorTree (α : Type) where
  | leaf (operand : α)
  | branch (op : Connective) (left right : OperatorTree α)

namespace OperatorTree

variable {α : Type} {t : OperatorTree α} {o' : Connective}

/-- The operands and operators from left to right. -/
def reading : OperatorTree α → Formula α
  | leaf a => ⟨a, []⟩
  | branch o l r => ⟨l.reading.first, l.reading.rest ++ (o, r.reading.first) :: r.reading.rest⟩

def root? : OperatorTree α → Option Connective
  | leaf _ => none
  | branch o _ _ => some o

/-- The operator `child` may stand at the root of an operand of `parent` that is on the given side. -/
def Binds (side : Assoc) (parent child : Connective) : Prop :=
  parent.1.priority < child.1.priority ∨ (child.1.priority = parent.1.priority ∧ parent.1.assoc = side)

/-- Every operand of an operator binds before it. -/
def Ordered : OperatorTree α → Prop
  | leaf _ => True
  | branch o l r =>
    l.Ordered ∧ r.Ordered ∧ (∀ o' ∈ l.root?, Binds .left o o') ∧ ∀ o' ∈ r.root?, Binds .right o o'

/-! ### At most one tree -/

lemma Ordered.priority_le (h : t.Ordered) (hro : t.root? = some o) :
    ∀ x ∈ t.reading.rest, o.1.priority ≤ x.1.1.priority := by
  induction t generalizing o with
  | leaf a => cases hro
  | branch op l r ihl ihr =>
    cases hro
    obtain ⟨hl, hr, hleft, hrig⟩ := h
    -- on either side the root of the operand comes between `op` and the operators below it
    have hb {t : OperatorTree α} {side : Assoc} (hbin : ∀ o' ∈ t.root?, Binds side op o')
        (ih : ∀ {o}, t.root? = some o → ∀ x ∈ t.reading.rest, o.1.priority ≤ x.1.1.priority) :
        ∀ x ∈ t.reading.rest, op.1.priority ≤ x.1.1.priority := by
      intro x hx
      cases ht : t with
      | leaf a =>
        rw [ht] at hx
        cases hx
      | branch o' _ _ =>
        have hro : t.root? = some o' := ht ▸ rfl
        have hle := ih hro x hx
        rcases hbin o' hro with hlt | ⟨heq, -⟩ <;> omega
    intro x hx
    rw [reading, mem_append, mem_cons] at hx
    rcases hx with hx | rfl | hx
    · exact hb hleft (ihl hl) x hx
    · exact Nat.le_refl _
    · exact hb hrig (ihr hr) x hx

lemma binds_of_mem (h : t.Ordered) {side : Assoc}
    (hr : ∀ o' ∈ t.root?, Binds side o o') : ∀ x ∈ t.reading.rest, Binds side o x.1 := by
  intro x hx
  cases ht : t with
  | leaf a =>
    rw [ht] at hx
    cases hx
  | branch o' _ _ =>
    have hr' : t.root? = some o' := ht ▸ rfl
    have hle := h.priority_le hr' x hx
    rcases hr o' hr' with hlt | ⟨heq, hs⟩
    · exact .inl (by omega)
    · rcases Nat.lt_or_eq_of_le hle with hlt | heq'
      · exact .inl (by omega)
      · exact .inr ⟨by omega, hs⟩

lemma not_binds_of_binds (h : Binds .left o o') : ¬Binds .right o' o := by
  rintro (hlt | ⟨heq, hr⟩)
  · rcases h with hlt' | ⟨heq, -⟩ <;> omega
  · rcases h with hlt' | ⟨-, hl⟩
    · omega
    · exact absurd (hl.symm.trans ((Connective.assoc_eq heq).trans hr)) nofun

lemma root_not_before {l r l' r' : OperatorTree α} (h : (branch o l r).Ordered)
    (h' : (branch o' l' r').Ordered) {x x' : α} (hmem : (o, x) ∈ l'.reading.rest)
    (hmem' : (o', x') ∈ r.reading.rest) : False :=
  not_binds_of_binds (binds_of_mem h'.1 h'.2.2.1 _ hmem) (binds_of_mem h.2.1 h.2.2.2 _ hmem')

/-- Two cuts of a list at a member are the same, or each member lies beside the other's cut. -/
lemma append_cons_eq_append_cons {β : Type} {as bs as' bs' : List β} {x x' : β}
    (h : as ++ x :: bs = as' ++ x' :: bs') :
    (as = as' ∧ x = x' ∧ bs = bs') ∨ (x ∈ as' ∧ x' ∈ bs) ∨ (x' ∈ as ∧ x ∈ bs') := by
  rcases append_eq_append_iff.mp h with ⟨more, rfl, hm⟩ | ⟨more, rfl, hm⟩
  · cases more with
    | nil =>
      obtain ⟨hx, hbs⟩ := cons.inj hm
      exact .inl ⟨(append_nil as).symm, hx, hbs⟩
    | cons y more =>
      cases hm
      exact .inr (.inl ⟨by simp, by simp⟩)
  · cases more with
    | nil =>
      obtain ⟨hx, hbs⟩ := cons.inj hm
      exact .inl ⟨append_nil as', hx.symm, hbs.symm⟩
    | cons y more =>
      cases hm
      exact .inr (.inr ⟨by simp, by simp⟩)

theorem eq_of_reading_eq {u : OperatorTree α} (ht : t.Ordered) (hu : u.Ordered)
    (h : t.reading = u.reading) : t = u := by
  induction t generalizing u with
  | leaf a =>
    cases u with
    | leaf b => exact congrArg leaf (congrArg Formula.first h)
    | branch o l r => exact absurd (congrArg Formula.rest h).symm (append_ne_nil_of_right_ne_nil _ nofun)
  | branch o l r ihl ihr =>
    cases u with
    | leaf b => exact absurd (congrArg Formula.rest h) (append_ne_nil_of_right_ne_nil _ nofun)
    | branch o' l' r' =>
      rw [Formula.mk.injEq] at h
      obtain ⟨hf, hre⟩ := h
      rcases append_cons_eq_append_cons hre with ⟨hl, hop, hr⟩ | ⟨hmem, hmem'⟩ | ⟨hmem, hmem'⟩
      · obtain ⟨rfl, hf'⟩ := Prod.mk.inj hop
        have hle : l.reading = l'.reading := by
          rw [Formula.mk.injEq]
          exact ⟨hf, hl⟩
        have hrig : r.reading = r'.reading := by
          rw [Formula.mk.injEq]
          exact ⟨hf', hr⟩
        rw [ihl ht.1 hu.1 hle, ihr ht.2.1 hu.2.1 hrig]
      -- one root stands before the other, so each is below the other
      · exact (root_not_before ht hu hmem hmem').elim
      · exact (root_not_before hu ht hmem hmem').elim

/-! ### The tree that a stack builds -/

/-- The operators that are open, each with its left operand, last one first. -/
abbrev Frames (α : Type) : Type := List (Connective × OperatorTree α)

/-- The tree with `t` as the operand of the last operator. -/
def plug (t : OperatorTree α) : Frames α → OperatorTree α
  | [] => t
  | (o, l) :: fs => plug (branch o l t) fs

/-- Let the operators on top that satisfy `p` take their operands. -/
def close (p : Operator → Bool) (t : OperatorTree α) : Frames α → OperatorTree α × Frames α
  | [] => (t, [])
  | (o, l) :: fs => if p o.1 then close p (branch o l t) fs else (t, (o, l) :: fs)

/-- The tree of a formula whose first operands are on the stack. -/
def build (t : OperatorTree α) (fs : Frames α) : List (Connective × α) → OperatorTree α
  | [] => plug t fs
  | (o, a) :: rest =>
    build (leaf a) ((o, (close (·.reducesBefore o.1) t fs).1) :: (close (·.reducesBefore o.1) t fs).2) rest

lemma plug_close (p : Operator → Bool) (t : OperatorTree α) (fs : Frames α) :
    plug (close p t fs).1 (close p t fs).2 = plug t fs := by
  fun_induction close p t fs with
  | case1 => rfl
  | case2 t o l fs hc ih => exact ih
  | case3 => rfl

lemma close_all (t : OperatorTree α) (fs : Frames α) : close (fun _ => true) t fs = (plug t fs, []) := by
  induction fs generalizing t with
  | nil => rfl
  | cons f fs ih => exact ih _

lemma reading_plug_concat {u : OperatorTree α} {x : Connective × α} (h : u.reading = t.reading.concat x)
    (fs : Frames α) : (plug u fs).reading = (plug t fs).reading.concat x := by
  induction fs generalizing t u with
  | nil => exact h
  | cons f fs ih =>
    refine ih ?_
    rw [reading, reading, h]
    simp [Formula.concat]

lemma reading_build (t : OperatorTree α) (fs : Frames α) (rest : List (Connective × α)) :
    (build t fs rest).reading = ⟨(plug t fs).reading.first, (plug t fs).reading.rest ++ rest⟩ := by
  induction rest generalizing t fs with
  | nil => rw [build, append_nil]
  | cons x rest ih =>
    obtain ⟨o, a⟩ := x
    have hp (p : Operator → Bool) : (plug (branch o (close p t fs).1 (leaf a)) (close p t fs).2).reading =
        (plug t fs).reading.concat (o, a) := by
      rw [reading_plug_concat (x := (o, a)) rfl, plug_close]
    rw [build, ih, plug, hp]
    simp [Formula.concat]

/-- The frames are good for an operand with the operator `root?` at its root. -/
def Fits (root? : Option Connective) : Frames α → Prop
  | [] => True
  | (o, l) :: fs =>
    l.Ordered ∧ (∀ o' ∈ l.root?, Binds .left o o') ∧ (∀ o' ∈ root?, Binds .right o o') ∧ Fits (some o) fs

lemma ordered_plug (h : t.Ordered) {fs : Frames α} (hfs : Fits t.root? fs) : (plug t fs).Ordered := by
  induction fs generalizing t with
  | nil => exact h
  | cons f fs ih =>
    obtain ⟨hl, hle, hr, hre⟩ := hfs
    exact ih ⟨hl, h, hle, hr⟩ hre

lemma reducesBefore_iff : o.1.reducesBefore o'.1 ↔
    o'.1.priority < o.1.priority ∨ (o.1.priority = o'.1.priority ∧ o'.1.assoc = .left) := by
  have hall : ∀ o ∈ Operator.binaryTable, o.isConnective →
      o.unary = false ∧ o.isAssignment = false ∧ o.kind ≠ .ternary := by decide
  obtain ⟨-, -, hk⟩ := hall o.1 o.2.1 o.2.2
  obtain ⟨hu, ha, -⟩ := hall o'.1 o'.2.1 o'.2.2
  simp [Operator.reducesBefore, hu, ha, hk]

lemma binds_of_reducesBefore (h : o.1.reducesBefore o'.1) : Binds .left o' o := reducesBefore_iff.mp h

lemma binds_of_not_reducesBefore (h : ¬o.1.reducesBefore o'.1) : Binds .right o o' := by
  rw [reducesBefore_iff, not_or, not_and] at h
  obtain ⟨hle, hs⟩ := h
  rcases Nat.lt_or_eq_of_le (Nat.le_of_not_lt hle) with hlt | heq
  · exact .inl hlt
  · refine .inr ⟨heq.symm, ?_⟩
    rw [Connective.assoc_eq heq]
    cases ha : o'.1.assoc with
    | left => exact absurd ha (hs heq)
    | right => rfl

/-- When the operators that bind before `o` are closed, `o` can take the operand, and the frames `o`. -/
lemma fits_close {fs : Frames α} (h : t.Ordered) (hfs : Fits t.root? fs)
    (hle : ∀ o' ∈ t.root?, Binds .left o o') :
    (close (·.reducesBefore o.1) t fs).1.Ordered ∧
      (∀ o' ∈ (close (·.reducesBefore o.1) t fs).1.root?, Binds .left o o') ∧
      Fits (some o) (close (·.reducesBefore o.1) t fs).2 := by
  fun_induction close (·.reducesBefore o.1) t fs with
  | case1 t => exact ⟨h, hle, trivial⟩
  | case2 t o' l fs hb ih =>
    obtain ⟨hl, hl', hrig, hr⟩ := hfs
    refine ih ⟨hl, h, hl', hrig⟩ hr fun o'' ho'' => ?_
    cases ho''
    exact binds_of_reducesBefore hb
  | case3 t o' l fs hb =>
    obtain ⟨hl, hl', -, hr⟩ := hfs
    refine ⟨h, hle, hl, hl', fun o'' ho'' => ?_, hr⟩
    cases ho''
    exact binds_of_not_reducesBefore hb

lemma ordered_build (h : t.Ordered) {fs : Frames α} (hfs : Fits t.root? fs)
    (hl : t.root? = none) (rest : List (Connective × α)) : (build t fs rest).Ordered := by
  induction rest generalizing t fs with
  | nil => exact ordered_plug h hfs
  | cons x rest ih =>
    obtain ⟨o, a⟩ := x
    -- the operand on top is a leaf whenever an operator comes, so nothing is asked of its root
    obtain ⟨hc, hle, hfs'⟩ := fits_close h hfs (by rw [hl]; nofun)
    exact ih (t := leaf a) trivial ⟨hc, hle, nofun, hfs'⟩ rfl

def ofFormula (f : Formula α) : OperatorTree α := build (leaf f.first) [] f.rest

lemma reading_ofFormula (f : Formula α) : (ofFormula f).reading = f := reading_build _ _ _

lemma ordered_ofFormula (f : Formula α) : (ofFormula f).Ordered :=
  ordered_build (t := leaf f.first) trivial (show Fits none [] from trivial) rfl f.rest

end OperatorTree

end Garnet
