import Garnet.Proofs.Class.Identity
import Mathlib.Data.List.Basic
import Mathlib.Logic.Relation

/-!
# Layouts of instances

Superclasses are older than their subclasses, so the line of superclasses of a class is the class itself
before the line of its superclass. Its variables thus come behind those of the superclass, and an
instance of a subclass starts like one of the class.
-/

namespace Garnet

open List

namespace ClassTable

variable {t : ClassTable} {c d : ClassId} {v w : String} {k : Nat}

/-- `d` is the class `c`, or it has `c` among its superclasses. -/
def Inherits (t : ClassTable) : ClassId → ClassId → Prop :=
  Relation.ReflTransGen fun d c => (t.info d).superclass = some c

/-- Variables behind others, if they are not among them. -/
def addVars (vars own : List String) : List String :=
  own.foldl (fun vars v => if vars.contains v then vars else vars ++ [v]) vars

/-- The variables that a class and its modules add. -/
def ownVars (t : ClassTable) (id : ClassId) : List String :=
  (t.info id).instanceVars ++ (t.info id).includes.flatMap fun m => (t.info m).instanceVars

lemma addVars_spec (vars own : List String) :
    vars <+: addVars vars own ∧ ∀ v ∈ own, v ∈ addVars vars own := by
  induction own generalizing vars with
  | nil => exact ⟨prefix_refl _, by simp⟩
  | cons v own ih =>
    rw [addVars, foldl_cons]
    split
    · rename_i hv
      obtain ⟨hb, hown⟩ := ih vars
      exact ⟨hb, forall_mem_cons.mpr ⟨hb.subset (by simpa using hv), hown⟩⟩
    · obtain ⟨hb, hown⟩ := ih (vars ++ [v])
      exact ⟨(prefix_append vars [v]).trans hb, forall_mem_cons.mpr ⟨hb.subset (by simp), hown⟩⟩

/-! ### The line of superclasses -/

/-- The line does not depend on how far it may go, nor on younger classes before it. -/
lemma superclassesFrom_eq (h : t.Regular) {n : Nat} {out : List ClassId} (hd : d < t.classes.size)
    (hn : d < n) (hout : ∀ x ∈ out, d < x) :
    t.superclassesFrom n (some d) out = out ++ t.superclassesFrom (d + 1) (some d) [] := by
  induction d using Nat.strongRecOn generalizing n out with
  | ind d ih =>
    obtain ⟨n, rfl⟩ := Nat.exists_eq_add_one.mpr (Nat.zero_lt_of_lt hn)
    have hnew : out.contains d = false := by
      rw [Bool.eq_false_iff, Ne, contains_iff_mem]
      exact fun hmem => Nat.lt_irrefl d (hout d hmem)
    rw [superclassesFrom, superclassesFrom, hnew]
    simp only [contains_nil, Bool.false_eq_true, if_false, nil_append]
    cases hs : if (t.info d).kind = .metaclass then none else (t.info d).superclass with
    | none => simp [superclassesFrom]
    | some s =>
      have hlt : s < d := by
        split at hs
        · cases hs
        · exact (h.older d hd s hs).1
      have hsi := Nat.lt_trans hlt hd
      rw [ih s hlt hsi (n := n) (Nat.lt_of_lt_of_le hlt (Nat.le_of_lt_succ hn))
          (forall_mem_append.mpr ⟨fun x hx => Nat.lt_trans hlt (hout x hx), by simpa using hlt⟩),
        ih s hlt hsi (n := d) hlt (by simpa using hlt), append_assoc]

/-- The variables of a class come behind those of its superclass. -/
lemma computeLayout_eq (h : t.Regular) (hd : d < t.classes.size) :
    t.computeLayout d = addVars ((t.info d).superclass.elim [] t.computeLayout) (t.ownVars d) := by
  have hl (id : ClassId) : t.computeLayout id =
      (t.superclassesFrom (t.classes.size + 1) (some id) []).reverse.foldl
        (fun vars id => addVars vars (t.ownVars id)) [] := rfl
  rw [hl, superclassesFrom]
  simp only [contains_nil, Bool.false_eq_true, if_false, nil_append]
  cases hs : (t.info d).superclass with
  | none => simp [superclassesFrom]
  | some s =>
    obtain ⟨hlt, hk, -⟩ := h.older d hd s hs
    have hsi := Nat.lt_trans hlt hd
    rw [if_neg (by simp [hk]), Option.elim_some, hl,
      superclassesFrom_eq h (n := t.classes.size) hsi hsi (by simpa using hlt),
      superclassesFrom_eq h (n := t.classes.size + 1) hsi (Nat.lt_succ_of_lt hsi) (by simp)]
    simp

lemma computeLayout_prefix (h : t.Regular) (hc : c < t.classes.size) (hdc : t.Inherits d c) :
    d < t.classes.size ∧ t.computeLayout c <+: t.computeLayout d := by
  induction hdc using Relation.ReflTransGen.head_induction_on with
  | refl => exact ⟨hc, prefix_refl _⟩
  | @head d s hs _ ih =>
    have hd : d < t.classes.size := by
      by_contra hnot
      rw [info, Array.getElem?_eq_none (Nat.le_of_not_lt hnot)] at hs
      cases hs
    have hown := (addVars_spec (t.computeLayout s) (t.ownVars d)).1
    rw [computeLayout_eq h hd, hs]
    exact ⟨hd, ih.2.trans hown⟩

/-! ### Words -/

lemma extends_layout (t : ClassTable) : t.Extends t.layout :=
  ⟨le_rfl, fun id _ => .refl (t.info id), fun h => h⟩

lemma variableOffset?_layout : t.layout.variableOffset? d v = some k ↔
    d < t.classes.size ∧ ∃ i, (t.computeLayout d).idxOf? v = some i ∧ i + 1 = k := by
  by_cases hd : d < t.classes.size
  · simp [variableOffset?, layout, hd, Option.bind_eq_some_iff]
  · simp [variableOffset?, layout, hd]

lemma exists_variableOffset?_layout (h : t.Regular) (hv : v ∈ (t.info d).instanceVars) :
    ∃ k, t.layout.variableOffset? d v = some k := by
  have hd : d < t.classes.size := by
    by_contra hnot
    rw [info, Array.getElem?_eq_none (Nat.le_of_not_lt hnot)] at hv
    cases hv
  have hmem : v ∈ t.computeLayout d := by
    rw [computeLayout_eq h hd]
    exact (addVars_spec _ _).2 v (List.mem_append_left _ hv)
  obtain ⟨i, hi⟩ := Option.isSome_iff_exists.mp (List.isSome_idxOf?.mpr hmem)
  exact ⟨i + 1, variableOffset?_layout.mpr ⟨hd, i, hi, rfl⟩⟩

lemma variableOffset?_of_inherits (h : t.Regular) (hdc : t.Inherits d c)
    (hk : t.layout.variableOffset? c v = some k) : t.layout.variableOffset? d v = some k := by
  obtain ⟨hc, i, hi, rfl⟩ := variableOffset?_layout.mp hk
  obtain ⟨hd, rest, hr⟩ := computeLayout_prefix h hc hdc
  refine variableOffset?_layout.mpr ⟨hd, i, ?_, rfl⟩
  rw [List.idxOf?] at hi ⊢
  rw [← hr, List.findIdx?_append, hi, Option.some_or]

lemma variableOffset?_inj (hv : t.layout.variableOffset? d v = some k)
    (hw : t.layout.variableOffset? d w = some k) : v = w := by
  obtain ⟨-, i, hi, rfl⟩ := variableOffset?_layout.mp hv
  obtain ⟨-, j, hj, hij⟩ := variableOffset?_layout.mp hw
  cases hij
  obtain ⟨_, rfl, -⟩ := List.idxOf?_eq_some_iff.mp hi
  obtain ⟨_, rfl, -⟩ := List.idxOf?_eq_some_iff.mp hj
  rfl

lemma variableOffset?_lt (hv : t.layout.variableOffset? d v = some k) : k < t.layout.instanceSize d := by
  obtain ⟨hd, i, hi, rfl⟩ := variableOffset?_layout.mp hv
  obtain ⟨hlt, -⟩ := List.idxOf?_eq_some_iff.mp hi
  simp [instanceSize, layout, hd]
  omega

end ClassTable

end Garnet
