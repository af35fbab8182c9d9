import Garnet.Lowering.Destructuring
import Garnet.Proofs.Outcome
import Mathlib

/-!
# Who gets which element

An array is shared out among targets: those before the star take one element each from the front, those
behind it one each from the end, and the star takes the rest. `Destructuring.index` addresses the latter two
by negative indexes. These count from the end whatever the length is, so in a short array they meet elements
that are taken already (`faithful_iff`). `bindElements_faithful_iff` says this of the statements that are
made, at each level of nested targets.
-/

namespace Garnet

namespace Destructuring

variable {α : Type} {splat : Option Nat} {count i j : Nat}

/-! ### Reading an array -/

/-- What a read of an array gives. -/
inductive Share (α : Type) where
  | nil
  | element (a : α)
  | array (l : List α)
deriving DecidableEq, Repr

/-- An element, or `nil` if there is none. -/
def Share.ofElement? : Option α → Share α
  | some a => .element a
  | none => .nil

/-- How an array is read: at one place, or from one place to another. Negative places count from the end. -/
inductive Place where
  | at (place : Int)
  | span (first last : Int)
deriving DecidableEq, Repr

variable (l : List α)

/-- What is read of an array. There is nothing before its front, and a range may start at its end but not
behind it. -/
def Place.read : Place → Share α
  | .at i =>
    let i := if i < 0 then i + l.length else i
    if i < 0 then .nil else .ofElement? l[i.toNat]?
  | .span first last =>
    let first := if first < 0 then first + l.length else first
    let last := if last < 0 then last + l.length else last
    if first < 0 ∨ (l.length : Int) < first then .nil
    else .array ((l.take (last + 1).toNat).drop first.toNat)

def place? : Tree → Option Place
  | .int i => some (.at i)
  | .node .send _ _ [.name "Range", .name "new", .node .args _ _ [.int first, .int last, .name "false"],
      .absent] => some (.span first last)
  | _ => none

/-- The place at which a tree reads the array in a variable. -/
def readPlace? (array : String) : Tree → Option Place
  | .node .send _ _ [.name v, .name "[]", .node .args _ _ [place], .absent] =>
    if v = array then place? place else none
  | _ => none

/-! ### Shares -/

/-- The first element for the target at place `i` of `count`, in an array of a length. -/
def first (splat : Option Nat) (count length i : Nat) : Nat := match splat with
  | some p => if i ≤ p then i else max (length - (count - p - 1)) p + (i - p - 1)
  | none => i

/-- The place behind the last element for a target. -/
def behind (splat : Option Nat) (count length i : Nat) : Nat :=
  if splat = some i then max (length - (count - i - 1)) i else first splat count length i + 1

/-- The share that is due to a target: an array for the star, and one element for any other. -/
def due (splat : Option Nat) (count i : Nat) : Share α :=
  if splat = some i then .array ((l.take (behind splat count l.length i)).drop i)
  else .ofElement? l[first splat count l.length i]?

lemma behind_le_first (hij : i < j) (length : Nat) :
    behind splat count length i ≤ first splat count length j := by
  cases splat with
  | none =>
    simp only [behind, first, reduceCtorEq, if_false]
    exact hij
  | some p =>
    simp only [behind, first, Option.some.injEq]
    split_ifs <;> omega

def placeOf (splat : Option Nat) (count i : Nat) : Place := match splat with
  | some p => if i = p then .span i (-((count - p - 1 : Nat) + 1 : Int)) else if p < i then .at (i - count) else .at i
  | none => .at i

lemma read_at (i : Nat) : (Place.at i).read l = .ofElement? l[i]? := by
  have hpos : ¬(i : Int) < 0 := by omega
  simp [Place.read, hpos]

lemma read_behind (hi : i < count) :
    (Place.at (i - count)).read l = if l.length + i < count then .nil else .ofElement? l[l.length + i - count]? := by
  have hneg : (i : Int) - count < 0 := by omega
  simp only [Place.read, hneg, if_true]
  split <;> split
  · rfl
  · omega
  · omega
  · congr 2
    omega

lemma read_star (p q : Nat) : (Place.span p (-(q + 1 : Int))).read l =
    if l.length < p then .nil else .array ((l.take (max (l.length - q) p)).drop p) := by
  have hpos : ¬(p : Int) < 0 := by omega
  have hneg : -(q + 1 : Int) < 0 := by omega
  simp only [Place.read, hpos, hneg, if_true, if_false, false_or]
  split <;> split
  · rfl
  · omega
  · omega
  · rw [List.drop_take, List.drop_take, Int.toNat_natCast]
    congr 2
    omega

/-- Every target gets its due: without a star always, and with one at place `p` exactly if the array has an
element for each of the other targets, or none at all while no target stands before the star. -/
theorem faithful_iff (hspl : ∀ p ∈ splat, p < count) :
    (∀ i < count, (placeOf splat count i).read l = due l splat count i) ↔
      ∀ p ∈ splat, count ≤ l.length + 1 ∨ p = 0 ∧ l = [] := by
  cases splat with
  | none => simp [placeOf, due, first, read_at]
  | some p =>
    have hp : p < count := hspl p rfl
    have hs : (placeOf (some p) count p).read l = due l (some p) count p ↔ p ≤ l.length := by
      simp only [placeOf, due, behind, if_true, read_star]
      split <;> simp <;> omega
    have hf (i : Nat) (hi : i < p) : (placeOf (some p) count i).read l = due l (some p) count i := by
      have hne : p ≠ i := by omega
      simp [placeOf, due, first, Nat.ne_of_lt hi, Nat.not_lt_of_gt hi, hne, Nat.le_of_lt hi, read_at]
    have hb (i : Nat) (hi : p < i) (hlt : i < count) :
        (placeOf (some p) count i).read l = due l (some p) count i ↔
          (if l.length + i < count then .nil else .ofElement? l[l.length + i - count]?) =
            Share.ofElement? l[max (l.length - (count - p - 1)) p + (i - p - 1)]? := by
      have hne : p ≠ i := by omega
      simp [placeOf, due, first, Nat.ne_of_gt hi, hi, hne, Nat.not_le_of_lt hi, read_behind l hlt]
    constructor
    · rintro h _ ⟨⟩
      have hle := hs.mp (h p hp)
      refine or_iff_not_imp_left.mpr fun hsho => ?_
      -- the last target gets the last element, if there is one, though it is due to another one
      have h := (hb (count - 1) (by omega) (by omega)).mp (h (count - 1) (by omega))
      have hn : l[max (l.length - (count - p - 1)) p + (count - 1 - p - 1)]? = none :=
        List.getElem?_eq_none (by omega)
      by_cases hemp : l.length = 0
      · exact ⟨by omega, List.length_eq_zero_iff.mp hemp⟩
      · have hso : l[l.length + (count - 1) - count]? = some (l.get ⟨l.length - 1, by omega⟩) := by
          rw [show l.length + (count - 1) - count = l.length - 1 by omega]
          exact List.getElem?_eq_getElem _
        rw [if_neg (by omega), hn, hso] at h
        cases h
    · intro h i hi
      rcases Nat.lt_trichotomy i p with hip | rfl | hpi
      · exact hf i hip
      · rw [hs]
        rcases h i rfl with h | ⟨rfl, -⟩ <;> omega
      · rw [hb i hpi hi]
        rcases h p rfl with h | ⟨rfl, rfl⟩
        · rw [if_neg (by omega)]
          congr 2
          omega
        · simp [Share.ofElement?]

/-! ### The statements that are made -/

section

variable {rec : Source → Tree → Pass Tree} {array : String} {span : Span} {targets stmts : List Tree}
  {s s' : Nat}

lemma place?_index {e : Tree} (h : index splat count i span s = .ok e s') :
    place? e = some (placeOf splat count i) := by
  cases splat with
  | none =>
    cases h
    rfl
  | some p =>
    rw [placeOf]
    simp only [index] at h
    split at h
    · rename_i hi
      cases h
      rw [if_pos hi]
      rfl
    · split at h <;> cases h <;> simp [*, place?]

lemma values_bindFrom (h : bindFrom rec array splat count span i targets s = .ok stmts s') :
    ∃ values : List Tree, values.length = targets.length ∧
      List.Forall₂ (fun (vt : Tree × Tree) stmt => ∃ u u', rec ⟨vt.1, span⟩ vt.2 u = .ok stmt u')
        (values.zip targets) stmts ∧
      ∀ j v, values[j]? = some v → readPlace? array v = some (placeOf splat count (i + j)) := by
  induction targets generalizing i stmts s with
  | nil =>
    cases h
    exact ⟨[], rfl, .nil, nofun⟩
  | cons target targets ih =>
    obtain ⟨place, t, hp, h⟩ := bind_eq_ok.mp h
    obtain ⟨value, u, hval, h⟩ := bind_eq_ok.mp h
    obtain ⟨stmt, u', hs, h⟩ := bind_eq_ok.mp h
    obtain ⟨stmts, _, hr, h⟩ := bind_eq_ok.mp h
    cases h
    obtain ⟨values, hlength, hall, hread⟩ := ih hr
    refine ⟨value :: values, congrArg (· + 1) hlength, .cons ⟨u, u', hs⟩ hall, fun j v hv => ?_⟩
    cases j with
    | zero =>
      cases hval
      cases hv
      simpa [readPlace?] using place?_index hp
    | succ j =>
      rw [← Nat.add_assoc, Nat.add_right_comm]
      exact hread j v hv

/-- **Who gets which element of an array.** However a single target is assigned, each target is assigned a
value read from the array, and each gets its due exactly if there is no star, or the array has an element
for each of the other targets, or it is empty and no target stands before the star. No element is due to
two targets, and what is due to the star is an array. -/
theorem bindElements_faithful_iff (h : bindElements rec array targets span s = .ok stmts s') :
    ∃ values : List Tree, values.length = targets.length ∧
      List.Forall₂ (fun (vt : Tree × Tree) stmt => ∃ u u', rec ⟨vt.1, span⟩ vt.2 u = .ok stmt u')
        (values.zip targets) stmts ∧
      ∀ {α : Type} (l : List α), ((∀ i v, values[i]? = some v → (readPlace? array v).map (·.read l) =
            some (due l (targets.findIdx? (·.is .splat)) targets.length i)) ↔
          ∀ p ∈ targets.findIdx? (·.is .splat), targets.length ≤ l.length + 1 ∨ p = 0 ∧ l = []) ∧
        ∀ i j, i < j → behind (targets.findIdx? (·.is .splat)) targets.length l.length i ≤
          first (targets.findIdx? (·.is .splat)) targets.length l.length j := by
  obtain ⟨values, hlength, hall, hread⟩ := values_bindFrom h
  refine ⟨values, hlength, hall, fun l => ⟨?_, fun i j hij => behind_le_first hij _⟩⟩
  rw [← faithful_iff l fun p hp => (List.findIdx?_eq_some_iff_getElem.mp hp).1]
  constructor
  · intro hdue i hi
    have hv := List.getElem?_eq_getElem (hlength.symm ▸ hi)
    have hi := hdue i _ hv
    rw [hread i _ hv, Nat.zero_add] at hi
    exact Option.some.inj hi
  · intro hdue i v hv
    have hi : i < targets.length := hlength ▸ (List.getElem?_eq_some_iff.mp hv).1
    rw [hread i v hv, Nat.zero_add, Option.map_some, hdue i hi]

end

/-- `a, *b, c` -/
def aroundStar : List Tree := [.name "a", .node .splat .zero 0 [.name "b"], .name "c"]

/-- Two elements are enough for `a, *b, c`. -/
theorem bindElements_faithful_iff_two : ∃ (stmts values : List Tree) (s' : Nat),
    bindElements assignTarget "t" aroundStar .zero 1 = .ok stmts s' ∧ values.length = 3 ∧
      ∀ i v, values[i]? = some v → (readPlace? "t" v).map (·.read [4, 5]) = some (due [4, 5] (some 1) 3 i) := by
  have hok : (match bindElements assignTarget "t" aroundStar .zero 1 with
      | .ok .. => true
      | .error .. => false) := by cbv
  split at hok
  · rename_i stmts s' h
    obtain ⟨values, hlength, -, hall⟩ := bindElements_faithful_iff h
    exact ⟨stmts, values, s', h, hlength, (hall [4, 5]).1.mpr fun _ _ => .inl (by decide)⟩
  · cases hok

/-- One element is not: it reaches both `a` and `c`, and nothing is due to `c`. -/
theorem element_reaches_two : ∃ (values : List Tree) (s' : Nat),
    bindElements (fun source _ => pure source.value) "t" aroundStar .zero 1 = .ok values s' ∧
      values.map (fun v => (readPlace? "t" v).map (·.read [4])) =
        [some (.element 4), some (.array []), some (.element 4)] ∧
      (List.range 3).map (due [4] (some 1) 3) = [.element 4, .array [], .nil] :=
  ⟨_, _, rfl, by decide, by decide⟩

end Destructuring

end Garnet
