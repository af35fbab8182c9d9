import Garnet.Proofs.Closure.Nesting

/-!
# Owners and captured variables

After the walk each scope gets the variables it owns, and then each owner the variables that other
scopes mention. Both only add facts, so what one scope was given stays true while the others are
treated. The outcome is `Scopes.Settled`: every variable that is mentioned has an owner, and it is
captured exactly if a scope mentions it that does not own it.
-/

namespace Garnet

open List

namespace Closure

namespace Scopes

variable {v : String} {ss : Scopes} {i : Nat}

lemma Nested.of_grows {a b : Scopes} (ha : a.Nested) (h : ∀ j, (a.get j).Grows (b.get j)) : b.Nested := by
  intro j
  rw [(h j).kind, (h j).parent]
  exact ha j

/-! ### Giving variables owners -/

/-- The same scopes, perhaps with more facts, but not about what they assign and mention, nor about
their numbers and what `f` gives. -/
structure Keeps (f : Scope → List String) (a b : Scopes) : Prop where
  size : b.size = a.size
  get : ∀ j, (a.get j).Grows (b.get j)
  assigned : ∀ j, (b.get j).assigned = (a.get j).assigned
  mentioned : ∀ j, (b.get j).mentioned = (a.get j).mentioned
  breakId : ∀ j, (b.get j).breakId = (a.get j).breakId
  kept : ∀ j, f (b.get j) = f (a.get j)

namespace Keeps

variable {f : Scope → List String} {a b c : Scopes}

lemma refl (a : Scopes) : a.Keeps f a :=
  ⟨rfl, fun _ => .refl _, fun _ => rfl, fun _ => rfl, fun _ => rfl, fun _ => rfl⟩

lemma modify {g : Scope → Scope} (hg : ∀ s : Scope, s.Grows (g s))
    (h : ∀ s, (g s).assigned = s.assigned ∧ (g s).mentioned = s.mentioned ∧ (g s).breakId = s.breakId ∧
      f (g s) = f s) (i : Nat) : a.Keeps f (a.modify i g) := by
  have hr := rel_get_modify (R := fun s t => t.assigned = s.assigned ∧ t.mentioned = s.mentioned ∧
    t.breakId = s.breakId ∧ f t = f s) (fun _ => ⟨rfl, rfl, rfl, rfl⟩) (h (a.get i))
  exact ⟨Array.size_modify .., rel_get_modify .refl (hg _), fun j => (hr j).1, fun j => (hr j).2.1,
    fun j => (hr j).2.2.1, fun j => (hr j).2.2.2⟩

variable (h : a.Keeps f b)
include h

lemma trans (h' : b.Keeps f c) : a.Keeps f c where
  size := h'.size.trans h.size
  get := fun j => (h.get j).trans (h'.get j)
  assigned := fun j => (h'.assigned j).trans (h.assigned j)
  mentioned := fun j => (h'.mentioned j).trans (h.mentioned j)
  breakId := fun j => (h'.breakId j).trans (h.breakId j)
  kept := fun j => (h'.kept j).trans (h.kept j)

lemma nested (ha : a.Nested) : b.Nested := ha.of_grows h.get

lemma grows : a.Grows b := ⟨Nat.le_of_eq h.size.symm, fun j _ => h.get j⟩

end Keeps

/-- The scopes are the same, but may own more variables. -/
abbrev Declares := Keeps Scope.captured

/-- Let scope `i` own a variable that nobody outwards owns. -/
def declareName (i : Nat) (ss : Scopes) (name : String) : Scopes := if (ss.owner? i name).isSome then ss
  else ss.modify i fun s => { s with declared := addNew s.declared name }

lemma declareIn_eq : declareIn ss i =
    ((ss.get i).assigned ++ (ss.get i).mentioned).foldl (declareName i) ss :=
  rfl

lemma declares_declareName (ss : Scopes) (i : Nat) (name : String) :
    ss.Declares (declareName i ss name) := by
  rw [declareName]
  split
  · exact .refl ss
  · refine .modify (fun s => ?_) (fun _ => ?_) i
    · exact { Scope.Grows.refl s with declared := subset_addNew _ _ }
    · exact ⟨rfl, rfl, rfl, rfl⟩

lemma isSome_owner?_declareName (hn : ss.Nested) (hi : i < ss.size)
    (name : String) : ((declareName i ss name).owner? i name).isSome := by
  have hnes := (declares_declareName ss i name).nested hn
  rw [declareName] at hnes ⊢
  split
  · assumption
  · rename_i hno
    rw [if_neg hno] at hnes
    have ho : (Scopes.get (ss.modify i fun s =>
        { s with declared := addNew s.declared name }) i).owns name := by
      rw [get_modify, if_pos ⟨rfl, hi⟩, Scope.owns, Bool.or_eq_true, contains_iff_mem]
      exact .inr (mem_addNew.mpr (.inr rfl))
    rw [owner?, searchOut_eq hnes, if_pos ho, Option.some_or, Option.isSome_some]

lemma declares_declareAll (ss : Scopes) (order : List Nat) : ss.Declares (order.foldl declareIn ss) := by
  refine foldlRecOn (motive := ss.Declares) order declareIn (.refl ss) fun a h i _ => ?_
  refine foldlRecOn (motive := ss.Declares) _ (declareName i) h fun a h name _ => ?_
  exact h.trans (declares_declareName a i name)

/-! ### Which variables a scope owns -/

section

variable {ss : Scopes}

lemma owner?_eq_none (hn : ss.Nested) : ss.owner? i v = none ↔
      (ss.get i).owns v = false ∧ ∀ p, (ss.get i).outer? = some p → ss.owner? p v = none := by
  rw [owner?, searchOut_eq hn]
  cases (ss.get i).owns v with
  | true => simp
  | false =>
    cases (ss.get i).outer? with
    | none => simp
    | some p => simp [owner?]

lemma owner?_declareName_of_ne (i j : Nat) {name : String} (h : v ≠ name) :
    (declareName i ss name).owner? j v = ss.owner? j v := by
  rw [declareName]
  split
  · rfl
  · refine searchOut_congr (fun k _ => ?_) fun k _ => ?_
    · rw [get_modify]
      split <;> rfl
    · have ho : (get (ss.modify i fun s => { s with declared := addNew s.declared name }) k).owns v =
          (ss.get k).owns v := by
        rw [get_modify]
        split
        · rw [Scope.owns, Scope.owns, Bool.eq_iff_iff, Bool.or_eq_true, Bool.or_eq_true,
            contains_iff_mem, contains_iff_mem, mem_addNew]
          exact or_congr Iff.rfl (or_iff_left h)
        · rfl
      rw [ho]

lemma mem_declared_declareName (hi : i < ss.size) (name v : String) :
    v ∈ ((declareName i ss name).get i).declared ↔
      v ∈ (ss.get i).declared ∨ (v = name ∧ ss.owner? i v = none) := by
  rw [declareName]
  split
  · rename_i hs
    refine ⟨.inl, fun h => h.elim id ?_⟩
    rintro ⟨rfl, hn⟩
    rw [hn] at hs
    cases hs
  · rename_i hn
    rw [get_modify, if_pos ⟨rfl, hi⟩, mem_addNew]
    refine or_congr Iff.rfl ⟨?_, And.left⟩
    rintro rfl
    exact ⟨rfl, Option.not_isSome_iff_eq_none.mp hn⟩

lemma get_declareName_of_ne {i j : Nat} (h : j ≠ i) (name : String) :
    (declareName i ss name).get j = ss.get j := by
  rw [declareName]
  split
  · rfl
  · rw [get_modify, if_neg fun hij => h hij.1.symm]

lemma mem_declared_declareNames (hn : ss.Nested) (hi : i < ss.size)
    (names : List String) (v : String) :
    v ∈ ((names.foldl (declareName i) ss).get i).declared ↔
      v ∈ (ss.get i).declared ∨ (v ∈ names ∧ ss.owner? i v = none) := by
  induction names generalizing ss with
  | nil => simp
  | cons name names ih =>
    have hs := declares_declareName ss i name
    rw [foldl_cons, ih (hs.nested hn) (hs.size.symm ▸ hi), mem_declared_declareName hi]
    by_cases hv : v = name
    · subst hv
      have hso := isSome_owner?_declareName hn hi v
      have hne : (declareName i ss v).owner? i v ≠ none := Option.isSome_iff_ne_none.mp hso
      simp [hne]
    · rw [owner?_declareName_of_ne i i hv]
      simp [hv]

lemma get_declareNames_of_ne {i j : Nat} (h : j ≠ i) (names : List String) :
    (names.foldl (declareName i) ss).get j = ss.get j := by
  induction names generalizing ss with
  | nil => rfl
  | cons name names ih => rw [foldl_cons, ih, get_declareName_of_ne h]

/-- Treating the scopes from outside inwards, a scope gets the variables it assigns or mentions that are
none of its parameters and that no scope around it owns. -/
lemma mem_declared_declareAll (hn : ss.Nested) (hno : ∀ i, (ss.get i).declared = []) {k : Nat}
    (hk : k ≤ ss.size) :
    let ss' := (range k).foldl declareIn ss
    (∀ i, k ≤ i → (ss'.get i).declared = []) ∧ ∀ i < k, ∀ v, v ∈ (ss'.get i).declared ↔
        (v ∈ (ss.get i).assigned ∨ v ∈ (ss.get i).mentioned) ∧ (ss.get i).isParam v = false ∧
          ∀ p, (ss.get i).outer? = some p → ss'.owner? p v = none := by
  induction k with
  | zero => exact ⟨fun i _ => hno i, fun i hi => by omega⟩
  | succ k ih =>
    obtain ⟨hl, hear⟩ := ih (by omega)
    have hd := declares_declareAll ss (range k)
    rw [range_succ, foldl_append]
    generalize (range k).foldl declareIn ss = before at hl hear hd ⊢
    have hnb := hd.nested hn
    rw [foldl_cons, foldl_nil, declareIn_eq]
    generalize hnam : (before.get k).assigned ++ (before.get k).mentioned = names
    have hget {j} (hj : j ≠ k) := @get_declareNames_of_ne before _ _ hj names
    -- the scopes outwards have been treated, so what they own does not change any more
    have ho v {p} (hp : p < k) : (names.foldl (declareName k) before).owner? p v = before.owner? p v := by
      refine searchOut_congr (fun j hj => ?_) fun j hj => ?_
      · rw [hget (by omega)]
      · rw [hget (by omega)]
    refine ⟨fun i hi => ?_, fun i hi v => ?_⟩
    · rw [hget (by omega)]
      exact hl i (by omega)
    · by_cases hik : i = k
      · subst hik
        have how : (before.get i).owns v = (ss.get i).isParam v := by
          rw [Scope.owns, hl i (Nat.le_refl _), (hd.get i).isParam]
          simp
        have hmem : v ∈ names ↔ v ∈ (ss.get i).assigned ∨ v ∈ (ss.get i).mentioned := by
          rw [← hnam, mem_append, hd.assigned, hd.mentioned]
        rw [mem_declared_declareNames hnb (by rw [hd.size]; omega), hl i (Nat.le_refl _),
          owner?_eq_none hnb, how, (hd.get i).outer?, hmem]
        simp only [not_mem_nil, false_or]
        refine and_congr Iff.rfl (and_congr Iff.rfl (forall_congr' fun p => ?_))
        exact imp_congr_right fun hp => by rw [ho v (hn.lt_of_outer? hp)]
      · rw [hget hik, hear i (by omega)]
        refine and_congr Iff.rfl (and_congr Iff.rfl (forall_congr' fun p => ?_))
        exact imp_congr_right fun hp => by rw [ho v (Nat.lt_trans (hn.lt_of_outer? hp) (by omega))]

end

/-! ### Capturing variables -/

/-- The scopes are the same, but more variables may be captured. -/
abbrev Captures := Keeps Scope.declared

namespace Captures

variable {a b : Scopes} (h : a.Captures b)
include h

lemma owner? (i : Nat) (v : String) : b.owner? i v = a.owner? i v := by
  refine searchOut_congr (fun j _ => ?_) fun j _ => ?_
  · exact (h.get j).outer?
  · rw [Scope.owns, Scope.owns, (h.get j).isParam, h.kept]

lemma ownerOf (i : Nat) (v : String) : b.ownerOf i v = a.ownerOf i v := by
  rw [Scopes.ownerOf, Scopes.ownerOf, h.owner?]

end Captures

/-- Capture a variable that scope `i` mentions and does not own. -/
def captureName (i : Nat) (ss : Scopes) (name : String) : Scopes :=
  let owner := ss.ownerOf i name
  if owner = i then ss
  else ss.modify owner fun s => { s with captured := addNew s.captured name, frame := true }

lemma captureIn_eq :
    captureIn ss i = (ss.get i).mentioned.foldl (captureName i) ss :=
  rfl

lemma captures_captureName (ss : Scopes) (i : Nat) (name : String) :
    ss.Captures (captureName i ss name) := by
  rw [captureName]
  split
  · exact .refl ss
  · refine .modify (fun s => ?_) (fun _ => ?_) _
    · exact { Scope.Grows.refl s with captured := subset_addNew _ _, frame := fun _ => rfl }
    · exact ⟨rfl, rfl, rfl, rfl⟩

lemma mem_captured_captureName (hn : ss.Nested) (hi : i < ss.size) (name : String) (o : Nat) (v : String) :
    v ∈ ((captureName i ss name).get o).captured ↔
      v ∈ (ss.get o).captured ∨ (v = name ∧ ss.ownerOf i v = o ∧ i ≠ o) := by
  have hle : ss.ownerOf i name ≤ i := hn.le_of_within (within_ownerOf ss i name)
  rw [captureName]
  split
  · rename_i hown
    constructor
    · exact .inl
    · rintro (hv | ⟨rfl, ho, hne⟩)
      · exact hv
      · exact absurd (hown.symm.trans ho) hne
  · rename_i hown
    rw [get_modify]
    split
    · rename_i hmod
      obtain ⟨rfl, -⟩ := hmod
      rw [mem_addNew]
      refine or_congr Iff.rfl ⟨?_, And.left⟩
      rintro rfl
      exact ⟨rfl, rfl, fun h => hown h.symm⟩
    · rename_i hmod
      constructor
      · exact .inl
      · rintro (hv | ⟨rfl, ho, -⟩)
        · exact hv
        · exact absurd ⟨ho, by omega⟩ hmod

lemma frame_captureName (h : ∀ o, (ss.get o).captured ≠ [] → (ss.get o).frame)
    (i : Nat) (name : String) (o : Nat) (ho : ((captureName i ss name).get o).captured ≠ []) :
    ((captureName i ss name).get o).frame := by
  rw [captureName] at ho ⊢
  split at ho
  · rename_i hown
    rw [if_pos hown]
    exact h o ho
  · rename_i hown
    rw [if_neg hown]
    rw [get_modify] at ho ⊢
    split
    · rfl
    · rename_i hmod
      rw [if_neg hmod] at ho
      exact h o ho

lemma captureAll_induction {P : Scopes → Prop} (h : P ss)
    (hs : ∀ ss i name, P ss → P (captureName i ss name)) (order : List Nat) : P (order.foldl captureIn ss) :=
  foldlRecOn order captureIn h fun _ h i _ => foldlRecOn _ (captureName i) h fun ss h name _ => hs ss i name h

lemma captures_captureAll (ss : Scopes) (order : List Nat) : ss.Captures (order.foldl captureIn ss) :=
  captureAll_induction (.refl ss) (fun a i name h => h.trans (captures_captureName a i name)) order

lemma mem_captured_captureNames (hn : ss.Nested) (hi : i < ss.size) (names : List String) (o : Nat)
    (v : String) : v ∈ ((names.foldl (captureName i) ss).get o).captured ↔
      v ∈ (ss.get o).captured ∨ (v ∈ names ∧ ss.ownerOf i v = o ∧ i ≠ o) := by
  induction names generalizing ss with
  | nil => simp
  | cons name names ih =>
    have hs := captures_captureName ss i name
    rw [foldl_cons, ih (hs.nested hn) (hs.size.symm ▸ hi), mem_captured_captureName hn hi, hs.ownerOf,
      mem_cons, or_assoc, or_and_right]

/-- Treating scopes in any order, each captures exactly what it mentions and does not own. -/
lemma mem_captured_captureAll (hn : ss.Nested) (order : List Nat) (ho : ∀ i ∈ order, i < ss.size) (o : Nat)
    (v : String) : v ∈ ((order.foldl captureIn ss).get o).captured ↔ v ∈ (ss.get o).captured ∨
        ∃ i ∈ order, v ∈ (ss.get i).mentioned ∧ ss.ownerOf i v = o ∧ i ≠ o := by
  induction order generalizing ss with
  | nil => simp
  | cons i order ih =>
    obtain ⟨hi, ho⟩ := forall_mem_cons.mp ho
    have hs := captures_captureAll ss [i]
    rw [foldl_cons, foldl_nil] at hs
    rw [foldl_cons, ih (hs.nested hn) (by rwa [hs.size]), captureIn_eq,
      mem_captured_captureNames hn hi, or_assoc, ← captureIn_eq]
    simp only [hs.mentioned, hs.ownerOf, mem_cons, exists_eq_or_imp]

/-! ### Settled scopes -/

/-- A scope declares what it assigns or mentions, unless it is a parameter of it or a scope around it
owns it. A variable is captured if a scope mentions it that does not own it, and then its owner has a
heap frame. -/
structure Settled (ss : Scopes) : Prop where
  nested : ss.Nested
  declared : ∀ i v, v ∈ (ss.get i).declared ↔
    (v ∈ (ss.get i).assigned ∨ v ∈ (ss.get i).mentioned) ∧ (ss.get i).isParam v = false ∧
      ∀ p, (ss.get i).outer? = some p → ss.owner? p v = none
  captured : ∀ o v, v ∈ (ss.get o).captured ↔ ∃ i, v ∈ (ss.get i).mentioned ∧ ss.ownerOf i v = o ∧ i ≠ o
  frame : ∀ o v, v ∈ (ss.get o).captured → (ss.get o).frame

lemma Settled.owned (h : ss.Settled) (i : Nat) (v : String) (hv : v ∈ (ss.get i).mentioned) :
    (ss.owner? i v).isSome := by
  refine Option.isSome_iff_ne_none.mpr fun hn => ?_
  obtain ⟨ho, hout⟩ := (owner?_eq_none h.nested).mp hn
  rw [Scope.owns, Bool.or_eq_false_iff] at ho
  have hd := (h.declared i v).mpr ⟨.inr hv, ho.1, hout⟩
  exact absurd (contains_iff_mem.mpr hd) (Bool.eq_false_iff.mp ho.2)

/-- Give each scope its variables, and then each owner those that others mention. -/
def settle (ss : Scopes) : Scopes := (range ss.size).foldl captureIn ((range ss.size).foldl declareIn ss)

lemma lt_size_of_mentioned (h : v ∈ (ss.get i).mentioned) : i < ss.size := by
  by_contra hi
  rw [get_of_size_le (by omega)] at h
  cases h

lemma settled_settle (hn : ss.Nested) (hno : ∀ i, (ss.get i).declared = [] ∧ (ss.get i).captured = []) :
    ss.settle.Settled ∧ ss.Grows ss.settle ∧ ss.settle.size = ss.size ∧
      ∀ i, (ss.settle.get i).assigned = (ss.get i).assigned ∧
        (ss.settle.get i).mentioned = (ss.get i).mentioned := by
  have hd := declares_declareAll ss (range ss.size)
  obtain ⟨hl, hme⟩ := mem_declared_declareAll hn (fun i => (hno i).1) (Nat.le_refl _)
  have hn' := hd.nested hn
  have hu i : (((range ss.size).foldl declareIn ss).get i).captured = [] :=
    (hd.kept i).trans (hno i).2
  have hc := captures_captureAll ((range ss.size).foldl declareIn ss) (range ss.size)
  have hmem := mem_captured_captureAll hn' (range ss.size) fun i hi => by
    rw [hd.size]
    exact mem_range.mp hi
  have hf := captureAll_induction (P := fun ss => ∀ o, (ss.get o).captured ≠ [] → (ss.get o).frame)
    (fun o ho => absurd (hu o) ho) (fun _ i name h => frame_captureName h i name) (range ss.size)
  have hg i : (ss.get i).Grows (ss.settle.get i) := (hd.get i).trans (hc.get i)
  have hass i : (ss.settle.get i).assigned = (ss.get i).assigned :=
    (hc.assigned i).trans (hd.assigned i)
  have hm i : (ss.settle.get i).mentioned = (ss.get i).mentioned :=
    (hc.mentioned i).trans (hd.mentioned i)
  refine ⟨⟨hc.nested hn', fun i v => ?_, fun o v => ?_, fun o v hv => ?_⟩,
    hd.grows.trans hc.grows, hc.size.trans hd.size, fun i => ⟨hass i, hm i⟩⟩
  · rw [settle, hc.kept, ← settle, hass, hm, (hg i).isParam, (hg i).outer?]
    by_cases hi : i < ss.size
    · rw [hme i hi]
      refine and_congr Iff.rfl (and_congr Iff.rfl (forall_congr' fun p => imp_congr_right fun _ => ?_))
      rw [settle, hc.owner?]
    · rw [hl i (by omega), get_of_size_le (by omega)]
      constructor
      · intro hv
        cases hv
      · rintro ⟨hv | hv, -⟩ <;> cases hv
  · rw [settle, hmem, hu]
    simp only [not_mem_nil, false_or, hc.ownerOf, hc.mentioned, mem_range]
    constructor
    · rintro ⟨i, -, h⟩
      exact ⟨i, h⟩
    · rintro ⟨i, h⟩
      exact ⟨i, lt_size_of_mentioned (hd.mentioned i ▸ h.1), h⟩
  · exact hf o (ne_nil_of_mem hv)

end Scopes

end Closure

end Garnet
