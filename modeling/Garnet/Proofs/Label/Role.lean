import Garnet.Proofs.Integer.Decimal
import Garnet.Proofs.Label.Path
import Mathlib.Data.List.Nodup
import Mathlib.Data.List.Pairwise

/-!
# What labels are for

The start of a label tells what it is for. So labels of different roles are different, and labels have
none among them twice if those of each role have not (`nodup_of_kinds`). Labels that stand for places in
code have a stem and a number, which can be told from the label (`inner_injective`).
-/

namespace Garnet

open List Numeral

namespace Label

variable {c : Char} {label : String}

/-- What a label is for. -/
inductive Role where
  /-- The code of a unit's top level, and of what is lifted out of it. -/
  | unit
  /-- The code of a class body. -/
  | body
  | method
  /-- A class object. -/
  | cls
  | metaclass
  /-- A static word. -/
  | word
  /-- The code that reports a missing method. -/
  | missing
  /-- The word that tells whether a class body has run. -/
  | once
  /-- A place in the code of a routine, or a literal. -/
  | inner
  /-- Anything else. -/
  | other
deriving DecidableEq, Repr

/-- The first six characters of the labels of a role. -/
def starts : List (String × Role) :=
  [("__unit", .unit), ("__clas", .body), ("__meth", .method), ("__sdef", .method),
    ("__meta", .metaclass), ("__cons", .word), ("__glob", .word), ("__cvar", .word),
    ("__civa", .word), ("__ivar", .word), ("__mm__", .missing), ("__once", .once)]

def role (label : String) : Role := match starts.find? fun p => p.1.toList == label.toList.take 6 with
  | some p => p.2
  | none =>
    match label.toList.head? with
    | some c => if c = '.' then .inner else if c.isUpper then .cls else .other
    | none => .other

lemma role_append {start : String} (h : 6 ≤ start.toList.length) (rest : String) :
    role (start ++ rest) = role start := by
  have hh : (start.toList ++ rest.toList).head? = start.toList.head? := by
    cases hs : start.toList with
    | nil =>
      rw [hs] at h
      cases h
    | cons c cs => rfl
  rw [role, role, String.toList_append, take_append_of_le_length h, hh]

lemma role_of_head (h : label.toList.head? = some c) (hc : c ≠ '_') :
    role label = if c = '.' then .inner else if c.isUpper then .cls else .other := by
  have hn : starts.find? (fun p => p.1.toList == label.toList.take 6) = none := by
    refine find?_eq_none.mpr fun p hp heq => hc ?_
    have hall : starts.all (fun p => p.1.toList.head? == some '_') = true := by decide
    have hu := beq_iff_eq.mp (all_eq_true.mp hall p hp)
    have ht : (label.toList.take 6).head? = some c := by
      cases hl : label.toList with
      | nil =>
        rw [hl] at h
        cases h
      | cons d cs =>
        rwa [hl] at h
    rw [← beq_iff_eq.mp heq, hu] at ht
    exact (Option.some.inj ht).symm
  rw [role, hn, h]

lemma role_of_isUpper (h : label.toList.head? = some c) (hc : c.isUpper) : role label = .cls := by
  have hdot : c ≠ '.' := by
    rintro rfl
    cases hc
  have hu : c ≠ '_' := by
    rintro rfl
    cases hc
  rw [role_of_head h hu, if_neg hdot, if_pos hc]

lemma head?_pathChars {cs : List Char} (h : cs.head? = some c) (hc : c.isAlphanum) :
    (pathChars cs).head? = some c := by
  fun_cases pathChars cs with
  | case1 => cases h
  | case2 rest =>
    cases h
    cases hc
  | case3 d rest =>
    cases h
    rw [mangleChar, if_pos hc]
    rfl

theorem nodup_of_kinds {α κ : Type} (kind : α → κ) (parts : List (List κ × List α))
    (hk : (parts.flatMap Prod.fst).Nodup)
    (hpar : ∀ p ∈ parts, p.2.Nodup ∧ ∀ a ∈ p.2, kind a ∈ p.1) : (parts.flatMap Prod.snd).Nodup := by
  refine nodup_flatMap.mpr ⟨fun p hp => (hpar p hp).1, ?_⟩
  refine (nodup_flatMap.mp hk).2.imp_of_mem fun {p q} hp hq hd a ha ha' => ?_
  exact hd ((hpar p hp).2 a ha) ((hpar q hq).2 a ha')

/-! ### Numbered places in code -/

/-- A label in code, or of a literal: a stem and a number. -/
def inner (stem : String) (k : Int) : String := ".L" ++ stem ++ decimal k

def isStem (stem : String) : Bool := stem.toList.all fun c => !c.isDigit && c != '-'

lemma isDigit_or_minus_of_mem {k : Int} (h : c ∈ (decimal k).toList) : c.isDigit ∨ c = '-' := by
  cases k with
  | ofNat n => exact .inl (isDigit_of_mem_decimal h)
  | negSucc n =>
    rw [decimal, String.toList_ofList, mem_cons] at h
    rcases h with rfl | h
    · exact .inr rfl
    · exact .inl (Nat.isDigit_of_mem_toDigits (by decide) (by decide) h)

theorem inner_injective {stem stem' : String} {k k' : Int} (hst : isStem stem) (hs' : isStem stem')
    (h : inner stem k = inner stem' k') : stem = stem' ∧ k = k' := by
  have hcut (stem : String) (k : Int) :
      (inner stem k).toList = ".L".toList ++ (stem.toList ++ (decimal k).toList) := by
    rw [inner, String.toList_append, String.toList_append, append_assoc]
  -- the stem is what stands before the first digit or sign
  have ht {stem : String} (hs : isStem stem) (k : Int) :
      (stem.toList ++ (decimal k).toList).takeWhile (fun c => !c.isDigit && c != '-') =
        stem.toList := by
    rw [takeWhile_append_of_pos (all_eq_true.mp hs)]
    have hnil : (decimal k).toList.takeWhile (fun c => !c.isDigit && c != '-') = [] := by
      cases hd : (decimal k).toList with
      | nil => rfl
      | cons c cs =>
        have hc : c.isDigit ∨ c = '-' := isDigit_or_minus_of_mem (hd ▸ mem_cons_self)
        rw [takeWhile_cons_of_neg]
        rcases hc with hc | rfl
        · simp [hc]
        · decide
    rw [hnil, append_nil]
  have hcha := congrArg String.toList h
  rw [hcut, hcut] at hcha
  have hr := append_cancel_left hcha
  obtain rfl : stem = stem' := by
    have hp := congrArg (takeWhile fun c => !c.isDigit && c != '-') hr
    rw [ht hst, ht hs'] at hp
    exact String.toList_inj.mp hp
  have hn := String.toList_inj.mp (append_cancel_left hr)
  exact ⟨rfl, eq_of_decimal_eq hn⟩

lemma role_inner (stem : String) (k : Int) : role (inner stem k) = .inner := by
  rw [inner, String.append_assoc]
  rw [role_of_head (c := '.') (by rw [String.toList_append]; rfl) (by decide), if_pos rfl]

end Label

end Garnet
