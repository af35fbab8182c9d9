import Garnet.Closure.Analysis
import Mathlib.Data.List.Basic

/-!
# Nested scopes

Scopes are opened in order and only gain facts afterwards: `Scopes.Grows`. Each block stands behind
the scope that creates it, so a search outwards passes exactly the scopes around a scope, which
`Scopes.Within` describes.
-/

namespace Garnet

open Option

namespace Closure

variable {v : String}

/-! ### Growing scopes -/

namespace Scope

def opened (s : Scope) : Scope := { s with
    assigned := [], mentioned := [], declared := [], captured := [], frame := false, breakId := none }

/-- The same scope, perhaps with more facts. -/
structure Grows (s t : Scope) : Prop where
  opened : t.opened = s.opened
  assigned : s.assigned ⊆ t.assigned
  mentioned : s.mentioned ⊆ t.mentioned
  declared : s.declared ⊆ t.declared
  captured : s.captured ⊆ t.captured
  frame : s.frame → t.frame
  breakId : ∀ id, s.breakId = some id → t.breakId = some id

namespace Grows

variable {s t u : Scope}

lemma refl (s : Scope) : s.Grows s :=
  ⟨rfl, fun _ h => h, fun _ h => h, fun _ h => h, fun _ h => h, id, fun _ h => h⟩

variable (h : s.Grows t)
include h

lemma trans (h' : t.Grows u) : s.Grows u where
  opened := h'.opened.trans h.opened
  assigned := fun _ hv => h'.assigned (h.assigned hv)
  mentioned := fun _ hv => h'.mentioned (h.mentioned hv)
  declared := fun _ hv => h'.declared (h.declared hv)
  captured := fun _ hv => h'.captured (h.captured hv)
  frame := fun hf => h'.frame (h.frame hf)
  breakId := fun id hid => h'.breakId id (h.breakId id hid)

lemma kind : t.kind = s.kind := (congrArg Scope.kind h.opened :)

lemma parent : t.parent = s.parent := (congrArg Scope.parent h.opened :)

lemma strict : t.strict = s.strict := (congrArg Scope.strict h.opened :)

lemma outer? : t.outer? = s.outer? := by rw [Scope.outer?, Scope.outer?, h.kind, h.parent]

lemma isParam (v : String) : t.isParam v = s.isParam v :=
  (congrArg (fun u : Scope => u.isParam v) h.opened :)

end Grows

end Scope

lemma mem_addNew {names : List String} {name : String} : v ∈ addNew names name ↔ v ∈ names ∨ v = name := by
  rw [addNew]
  split
  · rename_i h
    rw [List.contains_iff_mem] at h
    constructor
    · exact .inl
    · rintro (hv | rfl)
      · exact hv
      · exact h
  · rw [List.mem_append, List.mem_singleton]

lemma subset_addNew (names : List String) (name : String) : names ⊆ addNew names name :=
  fun _ h => mem_addNew.mpr (.inl h)

namespace Scopes

lemma get_of_size_le {ss : Scopes} {i : Nat} (h : ss.size ≤ i) : ss.get i = default := by
  rw [get, Array.getElem?_eq_none h, getD_none]

lemma get_modify (ss : Scopes) (i j : Nat) (f : Scope → Scope) :
    Scopes.get (ss.modify i f) j = if i = j ∧ j < ss.size then f (ss.get j) else ss.get j := by
  rw [get, get, Array.getElem?_modify]
  by_cases hij : i = j
  · subst hij
    by_cases hi : i < ss.size
    · simp [hi]
    · simp [hi]
  · simp [hij]

lemma rel_get_modify {R : Scope → Scope → Prop} (refl : ∀ s, R s s) {ss : Scopes} {i : Nat} {f : Scope → Scope}
    (hf : R (ss.get i) (f (ss.get i))) (j : Nat) : R (ss.get j) (Scopes.get (ss.modify i f) j) := by
  rw [get_modify]
  split
  · rename_i hij
    exact hij.1 ▸ hf
  · exact refl _

lemma get_push (ss : Scopes) (s : Scope) (j : Nat) :
    Scopes.get (ss.push s) j = if j = ss.size then s else ss.get j := by
  rw [get, get, Array.getElem?_push]
  split <;> rfl

/-- More scopes, and more facts about those there were. -/
structure Grows (a b : Scopes) : Prop where
  size : a.size ≤ b.size
  get : ∀ i, i < a.size → (a.get i).Grows (b.get i)

namespace Grows

variable {a b c : Scopes}

lemma refl (a : Scopes) : a.Grows a := ⟨Nat.le_refl _, fun _ _ => .refl _⟩

lemma trans (h : a.Grows b) (h' : b.Grows c) : a.Grows c where
  size := Nat.le_trans h.size h'.size
  get := fun i hi => (h.get i hi).trans (h'.get i (Nat.lt_of_lt_of_le hi h.size))

lemma modify {i : Nat} {f : Scope → Scope} (hf : (a.get i).Grows (f (a.get i))) :
    a.Grows (a.modify i f) where
  size := Nat.le_of_eq (Array.size_modify ..).symm
  get := fun j _ => rel_get_modify .refl hf j

lemma push (a : Scopes) (s : Scope) : a.Grows (a.push s) where
  size := by
    rw [Array.size_push]
    omega
  get := by
    intro j hj
    rw [get_push, if_neg (by omega)]
    exact .refl _

end Grows

/-! ### Searching outwards -/

/-- Each block stands behind the scope that creates it, and no other scope has a creator. -/
def Nested (ss : Scopes) : Prop := ∀ i, ((ss.get i).kind = .block ∧ ∃ p < i, (ss.get i).parent = some p) ∨
    ((ss.get i).kind ≠ .block ∧ (ss.get i).parent = none)

/-- Scope `i` is `goal` or stands in it. -/
inductive Within (ss : Scopes) : Nat → Nat → Prop where
  | refl (i : Nat) : Within ss i i
  | step {i p goal : Nat} (houter : (ss.get i).outer? = some p) (h : Within ss p goal) : Within ss i goal

namespace Nested

variable {ss : Scopes} {i p : Nat}

lemma outer?_eq_parent (h : ss.Nested) : (ss.get i).outer? = (ss.get i).parent := by
  rw [Scope.outer?]
  rcases h i with ⟨hk, -⟩ | ⟨hk, hp⟩
  · rw [if_pos hk]
  · rw [if_neg hk, hp]

lemma lt_of_outer? (h : ss.Nested) (hp : (ss.get i).outer? = some p) : p < i := by
  rcases h i with ⟨hk, q, hq, hpar⟩ | ⟨hk, -⟩
  · rw [Scope.outer?, if_pos hk, hpar] at hp
    exact some.inj hp ▸ hq
  · rw [Scope.outer?, if_neg hk] at hp
    cases hp

lemma kind_of_outer? (hp : (ss.get i).outer? = some p) : (ss.get i).kind = .block := by
  by_contra hk
  rw [Scope.outer?, if_neg hk] at hp
  cases hp

lemma le_of_within (h : ss.Nested) {i goal : Nat} (hw : ss.Within i goal) : goal ≤ i := by
  induction hw with
  | refl i => exact Nat.le_refl _
  | step houter _ ih => exact Nat.le_trans ih (Nat.le_of_lt (h.lt_of_outer? houter))

end Nested

section

variable {α : Type} {ss : Scopes} {f : Nat → Scope → Option α}

lemma searchOut_eq (h : ss.Nested) (f : Nat → Scope → Option α) (i : Nat) :
    ss.searchOut f i = (f i (ss.get i)).or ((ss.get i).outer?.bind (ss.searchOut f)) := by
  rw [searchOut]
  cases f i (ss.get i) with
  | some a => rfl
  | none =>
    cases hp : (ss.get i).outer? with
    | none => rfl
    | some p =>
      have hlt : p < i := h.lt_of_outer? hp
      simp [hlt]

lemma within_of_searchOut {i : Nat} {a : α} (h : ss.searchOut f i = some a) :
    ∃ j, ss.Within i j ∧ f j (ss.get j) = some a := by
  induction i using Nat.strongRecOn with
  | ind i ih =>
    rw [searchOut] at h
    split at h
    · rename_i b hb
      exact ⟨i, .refl i, hb.trans h⟩
    · split at h
      · rename_i p hp
        split at h
        · rename_i hlt
          obtain ⟨j, hj, ha⟩ := ih p hlt h
          exact ⟨j, .step hp hj, ha⟩
        · cases h
      · cases h

/-- A search finds something if a scope around gives an answer, and not further out than there. -/
lemma searchOut_of_within (hn : ss.Nested) {i goal : Nat} (h : ss.Within i goal)
    (hf : (f goal (ss.get goal)).isSome) :
    ∃ j a, ss.searchOut f i = some a ∧ f j (ss.get j) = some a ∧ ss.Within i j ∧ ss.Within j goal := by
  induction h with
  | refl i =>
    obtain ⟨a, ha⟩ := isSome_iff_exists.mp hf
    refine ⟨i, a, ?_, ha, .refl i, .refl i⟩
    rw [searchOut_eq hn, ha, some_or]
  | step houter hw ih =>
    rename_i i p goal
    cases hi : f i (ss.get i) with
    | some a =>
      refine ⟨i, a, ?_, hi, .refl i, .step houter hw⟩
      rw [searchOut_eq hn, hi, some_or]
    | none =>
      obtain ⟨j, a, hs, ha, hij, hj⟩ := ih hf
      refine ⟨j, a, ?_, ha, .step houter hij, hj⟩
      rw [searchOut_eq hn, hi, houter, none_or, bind_some, hs]

lemma searchOut_congr {a b : Scopes} {g : Nat → Scope → Option α} {i : Nat}
    (houter : ∀ j ≤ i, (b.get j).outer? = (a.get j).outer?)
    (hf : ∀ j ≤ i, g j (b.get j) = f j (a.get j)) : b.searchOut g i = a.searchOut f i := by
  induction i using Nat.strongRecOn with
  | ind i ih =>
    rw [searchOut, searchOut.eq_def a, hf i (Nat.le_refl _), houter i (Nat.le_refl _)]
    cases f i (a.get i) with
    | some x => rfl
    | none =>
      cases (a.get i).outer? with
      | none => rfl
      | some p =>
        dsimp only
        split
        · rename_i hlt
          exact ih p hlt (fun j hj => houter j (by omega)) fun j hj => hf j (by omega)
        · rfl

end

variable {ss : Scopes} {i : Nat}

lemma within_ownerOf (ss : Scopes) (i : Nat) (v : String) : ss.Within i (ss.ownerOf i v) := by
  rw [ownerOf, owner?]
  cases h : ss.searchOut (fun j s => if s.owns v then some j else none) i with
  | none => exact .refl i
  | some o =>
    obtain ⟨j, hj, hown⟩ := within_of_searchOut h
    split at hown
    · exact some.inj hown ▸ hj
    · cases hown

lemma owns_of_owner? {o : Nat} (h : ss.owner? i v = some o) : (ss.get o).owns v := by
  obtain ⟨j, -, hown⟩ := within_of_searchOut h
  split at hown
  · rename_i hv
    exact some.inj hown ▸ hv
  · cases hown

lemma within_methodOf (hn : ss.Nested) (i : Nat) :
    ss.Within i (ss.methodOf i) ∧ (ss.get (ss.methodOf i)).outer? = none := by
  induction i using Nat.strongRecOn with
  | ind i ih =>
    rw [methodOf, searchOut_eq hn]
    cases hp : (ss.get i).outer? with
    | none => simpa using ⟨Within.refl i, hp⟩
    | some p =>
      obtain ⟨hw, hm⟩ := ih p (hn.lt_of_outer? hp)
      obtain ⟨j, m, hs, -⟩ := searchOut_of_within (f := fun j s =>
        if s.outer?.isNone then some j else none) hn hw (by simp [hm])
      simp only [methodOf, hs, getD_some] at hw hm
      simp only [isNone_some, Bool.false_eq_true, if_false, none_or, bind_some,
        hs, getD_some]
      exact ⟨.step hp hw, hm⟩

lemma frameOwner?_eq (hn : ss.Nested) (i : Nat) : ss.frameOwner? i =
    if (ss.get i).frame then some i else (ss.get i).outer?.bind ss.frameOwner? := by
  rw [frameOwner?, searchOut_eq hn]
  split
  · rfl
  · rw [none_or]
    rfl

lemma Grows.methodOf {a b : Scopes} (h : a.Grows b) (hi : i < a.size) : b.methodOf i = a.methodOf i := by
  rw [Scopes.methodOf, Scopes.methodOf, searchOut_congr (a := a) (b := b)]
  · exact fun j hj => (h.get j (by omega)).outer?
  · intro j hj
    rw [(h.get j (by omega)).outer?]

end Scopes

end Closure

end Garnet
