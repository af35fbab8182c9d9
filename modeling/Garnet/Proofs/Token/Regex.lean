import Garnet.Proofs.Outcome
import Garnet.Proofs.Source.Utf8
import Garnet.Token.Quotation

/-!
# The source of a regular expression

Between slashes, a slash is written behind a backslash, and this backslash is not part of the source; any
other escape is. A text in which a backslash is escaped right before a slash shows whether escapes are
read as pairs. That text can only stand inside a character class, and there it loses a backslash if a
character of the literal is not ASCII (`Scan.regex_source_iff`).
-/

namespace Garnet

open List

namespace Quotation

/-- Whether an escaped backslash stands right before a slash, where escapes are read as pairs. -/
def slashBehindPair : List Char → Bool
  | '\\' :: c :: cs => c == '\\' && cs.head? == some '/' || slashBehindPair cs
  | _ :: cs => slashBehindPair cs
  | [] => false

lemma dropBeforeSlash_cons {c : Char} {cs : List Char} (h : c = '\\' → cs.head? ≠ some '/') :
    dropBeforeSlash (c :: cs) = c :: dropBeforeSlash cs := by
  rw [dropBeforeSlash]
  rintro rest rfl rfl
  exact h rfl rfl

/-- Dropping every backslash before a slash agrees with reading the escapes as pairs, unless it tears a
pair apart. -/
lemma dropBeforeSlash_eq_iff (cs : List Char) :
    dropBeforeSlash cs = unescapeSlash cs ↔ slashBehindPair cs = false := by
  fun_induction unescapeSlash cs with
  | case1 cs ih => simpa [dropBeforeSlash, slashBehindPair] using ih
  | case2 c cs hs ih =>
    have hh : (c :: cs).head? ≠ some '/' := by simpa using hs
    rw [dropBeforeSlash_cons fun _ => hh]
    by_cases hb : c = '\\'
    · subst hb
      by_cases hn : cs.head? = some '/'
      · obtain ⟨rest, rfl⟩ := head?_eq_some_iff.mp hn
        simp [dropBeforeSlash, slashBehindPair]
      · rw [dropBeforeSlash_cons fun _ => hn]
        simpa [slashBehindPair, hn] using ih
    · rw [dropBeforeSlash_cons fun h => absurd h hb]
      simpa [slashBehindPair, hb] using ih
  | case3 c cs hs hpair ih =>
    rw [dropBeforeSlash_cons, slashBehindPair, cons_inj_right, ih]
    · exact hpair
    · rintro hc hh
      obtain ⟨rest, rfl⟩ := head?_eq_some_iff.mp hh
      exact hpair _ _ hc rfl
  | case4 => simp [dropBeforeSlash, slashBehindPair]

end Quotation

open Quotation

/-- The source is the body with its escapes read as pairs, if the body is ASCII or no escaped backslash stands
before a slash, and only then. -/
theorem Scan.regex_source_iff {start : Pos} {l : Lexer} {n : Nat}
    (h : regexLength false 0 (l.cursor.rest.drop 1) = some n) :
    let body := (l.cursor.rest.drop 1).take n
    (∃ flags l', Scan.regex start l = .ok (.regex (regexSource body) flags) l') ∧
      ((regexSource body).toList = unescapeSlash (Utf8.decodeChars body) ↔
        (∀ b ∈ body, b < 0x80) ∨ slashBehindPair (Utf8.decodeChars body) = false) := by
  intro body
  constructor
  · simp only [Scan.regex, Scan.skip, modify_bind_eq, get_bind_eq, Cursor.skip, h]
    exact ⟨_, _, rfl⟩
  · have hany : body.any (128 ≤ ·) = true ↔ ¬∀ b ∈ body, b < 0x80 := by simp
    rw [regexSource, String.toList_ofList]
    split
    · rename_i hhigh
      rw [or_iff_right (hany.mp hhigh), dropBeforeSlash_eq_iff]
    · rename_i hlow
      exact iff_of_true rfl (.inl (Classical.not_not.mp (mt hany.mpr hlow)))

/-- An escaped backslash before a slash, in a class with a character that is not ASCII. -/
theorem Scan.regex_source_iff_class :
    let body := utf8 "[é\\\\/]"
    (∃ flags l', Scan.regex .origin (.ofString "/[é\\\\/]/") = .ok (.regex (regexSource body) flags) l') ∧
      (regexSource body).toList ≠ unescapeSlash (Utf8.decodeChars body) := by
  have hbody : ((Lexer.ofString "/[é\\\\/]/").cursor.rest.drop 1).take 7 = utf8 "[é\\\\/]" := by decide
  obtain ⟨hrun, hiff⟩ := Scan.regex_source_iff (l := .ofString "/[é\\\\/]/") (n := 7) (by decide)
  rw [hbody] at hrun hiff
  refine ⟨hrun, fun heq => ?_⟩
  rw [hiff, utf8_eq_flatMap, Utf8.decodeChars_flatMap] at heq
  rcases heq with hascii | hpair
  · exact absurd (hascii 0xC3 (by decide)) (by decide)
  · exact absurd hpair (by decide)

end Garnet
