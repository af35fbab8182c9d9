import Garnet.Closure.Lift
import Garnet.Proofs.Closure.Nesting
import Garnet.Proofs.Outcome

/-!
# Heap frames at run time

A scope runs as an `Activation`; a block's activation knows the one that created the block. An environment holds
an `EnvValue` at run time: nothing, or the heap frame of an activation. The names `__env__` and `__penv__` and the
words 0 of heap frames have such values, so a path of heap frames can be evaluated (`Activation.eval`).

By `framePath_reaches` the path to a scope around that has a heap frame can be built, and leads to the heap frame
of the activation of that scope around the one at hand.
-/

namespace Garnet

namespace Closure

variable {j : Nat} {path : Tree}

/-- A run of a scope. A block runs inside the run that created it. The number `run` tells the runs of
a scope apart. -/
inductive Activation where
  | root (scope run : Nat)
  | block (scope run : Nat) (creator : Activation)

/-- What an environment is at run time. -/
inductive EnvValue where
  | nil
  /-- The heap frame of an activation. -/
  | frame (owner : Activation)

namespace Activation

def scope : Activation → Nat
  | .root i _ => i
  | .block i _ _ => i

/-- The activation of a scope that the activation is or runs inside. -/
def around (goal : Nat) : Activation → Option Activation
  | .root i run => if i = goal then some (.root i run) else none
  | .block i run creator =>
    if i = goal then some (.block i run creator) else creator.around goal

section

variable (ss : Scopes)

/-- Blocks are created by the scopes they stand in. -/
def Fits : Activation → Prop
  | .root i _ => (ss.get i).outer? = none
  | .block i _ creator => (ss.get i).outer? = some creator.scope ∧ creator.Fits

/-- The value of a name of an environment, where the activation was handed an environment. -/
def named (a : Activation) (handed : Option EnvValue) : Tree → Option EnvValue
  | .name name =>
    if name = ownEnv then if (ss.get a.scope).frame then some (.frame a) else none
    else if name = parentEnv then handed
    else if name = "nil" then some .nil
    else none
  | _ => none

/-- The environment that a block got when it was created. -/
def handed : Activation → Option EnvValue
  | .root _ _ => none
  | .block _ _ creator => creator.named ss creator.handed (handedEnv ss creator.scope)

/-- Word 0 of a heap frame. -/
def outward : Activation → Option EnvValue
  | .root _ _ => some .nil
  | .block i run creator => (block i run creator).handed ss

def eval (a : Activation) : Tree → Option EnvValue
  | .node .index _ _ [base, .int 0] =>
    match a.eval base with
    | some (.frame b) => b.outward ss
    | _ => none
  | e => a.named ss (a.handed ss) e

/-- The activation whose heap frame is the nearest one. -/
def nearest : Activation → Option Activation
  | .root i run => if (ss.get i).frame then some (.root i run) else none
  | .block i run creator =>
    if (ss.get i).frame then some (.block i run creator) else creator.nearest

end

variable {ss : Scopes} {a b : Activation}

lemma around_self : a.around a.scope = some a := by cases a <;> simp [around, scope]

lemma scope_of_around (h : a.around j = some b) : b.scope = j := by
  fun_induction around with
  | case1 => cases h; rfl
  | case2 => cases h
  | case3 => cases h; rfl
  | case4 _ _ _ _ ih => exact ih h

lemma fits_of_around (ha : a.Fits ss) (h : a.around j = some b) : b.Fits ss := by
  fun_induction around with
  | case1 | case3 => exact Option.some.inj h ▸ ha
  | case2 => cases h
  | case4 _ _ _ _ ih => exact ih ha.2 h

lemma le_of_around (hn : ss.Nested) (ha : a.Fits ss) (h : a.around j = some b) : j ≤ a.scope := by
  fun_induction around with
  | case1 | case3 => exact Nat.le_refl _
  | case2 => cases h
  | case4 _ _ c _ ih => exact Nat.le_of_lt (Nat.lt_of_le_of_lt (ih ha.2 h) (hn.lt_of_outer? ha.1))

lemma around_of_around (hn : ss.Nested) (ha : a.Fits ss) {goal : Nat} (h : a.around j = some b)
    (hle : goal ≤ j) : a.around goal = b.around goal := by
  fun_induction around j a with
  | case1 | case3 => rw [Option.some.inj h]
  | case2 => cases h
  | case4 i run c _ ih =>
    have hlt : c.scope < i := hn.lt_of_outer? ha.1
    have hj : j ≤ c.scope := le_of_around hn ha.2 h
    have hne : i ≠ goal := by omega
    rw [around, if_neg hne]
    exact ih ha.2 h

/-! ### The environment that a block gets -/

lemma nearest_eq_some (hn : ss.Nested) (ha : a.Fits ss) (h : ss.frameOwner? a.scope = some j) :
    ∃ b, a.nearest ss = some b ∧ a.around j = some b := by
  induction a with
  | root i run =>
    have ho : (ss.get i).outer? = none := ha
    change ss.frameOwner? i = some j at h
    rw [Scopes.frameOwner?_eq hn, ho] at h
    split at h
    · rename_i hf
      cases h
      exact ⟨.root j run, by rw [nearest, if_pos hf], by rw [around, if_pos rfl]⟩
    · cases h
  | block i run c ih =>
    change ss.frameOwner? i = some j at h
    rw [Scopes.frameOwner?_eq hn, ha.1] at h
    split at h
    · rename_i hf
      cases h
      exact ⟨.block j run c, by rw [nearest, if_pos hf], by rw [around, if_pos rfl]⟩
    · rename_i hf
      obtain ⟨b, hb, hj⟩ := ih ha.2 h
      have hlt : c.scope < i := hn.lt_of_outer? ha.1
      have hne : i ≠ j := by
        have hle := le_of_around hn ha.2 hj
        omega
      refine ⟨b, ?_, ?_⟩
      · rw [nearest, if_neg hf, hb]
      · rw [around, if_neg hne, hj]

lemma handed_block (ha : a.Fits ss) (i run : Nat) (hb : a.nearest ss = some b) :
    (block i run a).handed ss = some (.frame b) := by
  induction a generalizing i run with
  | root j r =>
    rw [nearest] at hb
    split at hb
    · rename_i hf
      cases hb
      simp [handed, handedEnv, scope, hf, named]
    · cases hb
  | block j r c ih =>
    have hk : (ss.get j).kind = .block := Scopes.Nested.kind_of_outer? ha.1
    rw [nearest] at hb
    split at hb
    · rename_i hf
      cases hb
      simp [handed, handedEnv, scope, hf, named]
    · rename_i hf
      rw [handed, handedEnv]
      simp only [scope, hf, hk]
      exact ih ha.2 j r hb

lemma handed_of_frameOwner? (hn : ss.Nested) (ha : a.Fits ss) {p : Nat}
    (hp : (ss.get a.scope).outer? = some p) (hj : ss.frameOwner? p = some j) :
    ∃ b, a.handed ss = some (.frame b) ∧ a.around j = some b := by
  cases a with
  | root i run =>
    have ho : (ss.get i).outer? = none := ha
    simp only [scope, ho] at hp
    cases hp
  | block i run c =>
    have hlt : c.scope < i := hn.lt_of_outer? ha.1
    cases ha.1.symm.trans hp
    obtain ⟨b, hb, haro⟩ := nearest_eq_some hn ha.2 hj
    have hne : i ≠ j := by
      have hle := le_of_around hn ha.2 haro
      omega
    refine ⟨b, handed_block ha.2 i run hb, ?_⟩
    rw [around, if_neg hne, haro]

end Activation

/-! ### Paths -/

/-- In every activation of scope `i`, the path leads to the heap frame of the activation of scope
`goal` around it. -/
def Reaches (ss : Scopes) (i : Nat) (path : Tree) (goal : Nat) : Prop :=
  (ss.get goal).frame ∧ ∀ a : Activation, a.Fits ss → a.scope = i →
    ∃ b, a.around goal = some b ∧ a.eval ss path = some (.frame b)

namespace Reaches

variable {ss : Scopes} {i : Nat}

lemma own (h : (ss.get i).frame) : Reaches ss i (.name ownEnv) i := by
  refine ⟨h, ?_⟩
  rintro a - rfl
  refine ⟨a, a.around_self, ?_⟩
  simp [Activation.eval, Activation.named, h]

lemma parent (hn : ss.Nested) {p : Nat} (hp : (ss.get i).outer? = some p) (hj : ss.frameOwner? p = some j)
    (hf : (ss.get j).frame) :
    Reaches ss i (.name parentEnv) j := by
  refine ⟨hf, ?_⟩
  rintro a ha rfl
  obtain ⟨b, hb, haro⟩ := Activation.handed_of_frameOwner? hn ha hp hj
  have hpe : parentEnv ≠ ownEnv := by decide
  refine ⟨b, haro, ?_⟩
  simp [Activation.eval, Activation.named, hpe, hb]

lemma next (hn : ss.Nested) {p k : Nat} (h : Reaches ss i path j) (hp : (ss.get j).outer? = some p)
    (hk : ss.frameOwner? p = some k) (hf : (ss.get k).frame) (span : Span) (id : Nat) :
    Reaches ss i (.node .index span id [path, .int 0]) k := by
  refine ⟨hf, ?_⟩
  rintro a ha rfl
  obtain ⟨b, hb, hev⟩ := h.2 a ha rfl
  have hs := Activation.scope_of_around hb
  have hbfi := Activation.fits_of_around ha hb
  obtain ⟨c, hc, haro⟩ := Activation.handed_of_frameOwner? hn hbfi (hs ▸ hp) hk
  have hkj : k ≤ j := hs ▸ Activation.le_of_around hn hbfi haro
  refine ⟨c, ?_, ?_⟩
  · rw [Activation.around_of_around hn ha hb hkj, haro]
  · cases b with
    | root l run => cases hc
    | block l run d => simp only [Activation.eval, hev, Activation.outward, hc]

end Reaches

/-- The state differs at most in the identity of the next node. -/
def Lifting.SameWork (s s' : Lifting) : Prop := s'.nextScope = s.nextScope ∧ s'.routines = s.routines

lemma buildNode_eq_ok (tag : Tag) (span : Span) (children : List Tree) (s : Lifting) :
    (Build.node tag span children : Lift Tree) s =
      .ok (.node tag span s.nextId children) { s with nextId := s.nextId + 1 } :=
  rfl

section

variable {ss : Scopes}

lemma Scopes.exists_frameOwner? (hn : ss.Nested) {p goal : Nat} (hw : ss.Within p goal)
    (hf : (ss.get goal).frame) :
    ∃ k, ss.frameOwner? p = some k ∧ (ss.get k).frame ∧ ss.Within p k ∧ ss.Within k goal := by
  obtain ⟨k, l, hk, hfk, hpk, hkg⟩ := searchOut_of_within
    (f := fun j s => if s.frame then some j else none) hn hw (by simp [hf])
  split at hfk
  · cases hfk
    exact ⟨k, hk, ‹_›, hpk, hkg⟩
  · cases hfk

/-- Climbing from a heap frame outwards finds the path to every heap frame around. -/
lemma climb_reaches (hn : ss.Nested) {i goal : Nat} (span : Span) (hw : ss.Within j goal)
    (hf : (ss.get goal).frame) (h : Reaches ss i path j) (s : Lifting) :
    ∃ path' s', climb ss goal span path (some j) s = .ok (some path') s' ∧
      Reaches ss i path' goal ∧ s.SameWork s' := by
  induction j using Nat.strongRecOn generalizing path s with
  | ind j ih =>
    rw [climb]
    by_cases hj : j = goal
    · subst hj
      rw [if_pos rfl]
      exact ⟨path, s, rfl, h, rfl, rfl⟩
    · rw [if_neg hj]
      cases hw with
      | refl => exact absurd rfl hj
      | step ho hp =>
        obtain ⟨k, hk, hfra, hpk, hkg⟩ := Scopes.exists_frameOwner? hn hp hf
        have hlt : k < j := Nat.lt_of_le_of_lt (hn.le_of_within hpk) (hn.lt_of_outer? ho)
        have hown : (ss.get j).outer?.bind ss.frameOwner? = some k := by
          rwa [ho]
        obtain ⟨path', s', hc, hr, hs⟩ := ih k hlt hkg
          (h.next hn ho hk hfra span s.nextId) { s with nextId := s.nextId + 1 }
        refine ⟨path', s', ?_, hr, hs⟩
        rw [hown]
        simp only [hlt]
        exact hc

theorem framePath_reaches (hn : ss.Nested) {i goal : Nat} (span : Span) (hw : ss.Within i goal)
    (hf : (ss.get goal).frame) (s : Lifting) :
    ∃ path s', framePath ss i goal span s = .ok path s' ∧ Reaches ss i path goal ∧ s.SameWork s' := by
  rw [framePath]
  by_cases hi : (ss.get i).frame
  · obtain ⟨path, s', hc, hr, hs⟩ := climb_reaches hn span hw hf (.own hi) s
    refine ⟨path, s', ?_, hr, hs⟩
    simp only [hi]
    exact bind_eq_ok.mpr ⟨_, _, hc, rfl⟩
  · cases hw with
    | refl => exact absurd hf hi
    | step ho hp =>
      obtain ⟨k, hk, hfra, -, hkg⟩ := Scopes.exists_frameOwner? hn hp hf
      obtain ⟨path, s', hc, hr, hs⟩ := climb_reaches hn span hkg hf (.parent hn ho hk hfra) s
      have hpar : ss.parentFrame? i = some k := by
        rwa [Scopes.parentFrame?, ← hn.outer?_eq_parent, ho]
      refine ⟨path, s', ?_, hr, hs⟩
      simp only [hi, hpar]
      exact bind_eq_ok.mpr ⟨_, _, hc, rfl⟩

end

end Closure

end Garnet
