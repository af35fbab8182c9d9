import Garnet.Proofs.Literal.Tiling
import Garnet.Proofs.Token.Place

/-!
# Where interpolated code stands

A part of code carries a position in the text that the lexer reads: advancing over the bytes before the code leads
there, and the bytes from there on begin with the code (`Lexer.code_stands`).

It need not be the position in the file. A heredoc opened with `<<~` loses the indentation of its lines before it
is split into parts, and the position is counted in what is left (`Lexer.code_displaced_by_indentation`). And where
a text stands inside a file, the spans of its tokens are moved there, but the positions in the tokens are not.
-/

namespace Garnet

open List

variable {kind : TokenKind}

/-- `code` stands at `pos` in the text `raw` that starts at `base`: the position is reached over the bytes in
front of the code, and the bytes from there on begin with it. -/
def Interpolation.Stands (raw : Bytes) (base : Pos) (code : String) (pos : Pos) : Prop :=
  ∃ k ≤ raw.length, pos = base.advance (raw.take k) ∧ utf8 code <+: raw.drop k

lemma Interpolation.Holds.stands {text code : String} {base pos : Pos} (h : Holds (utf8 text) base code pos) :
    Stands (utf8 text) base code pos := by
  obtain ⟨front, piece, rear, ht, hpos, hcode, hf, hcut⟩ := h
  have hp : utf8 code = piece := hcode ▸ Utf8.utf8_decode_of_cut ht hf hcut
  rw [ht, append_assoc]
  refine ⟨front.length, by simp, ?_, ?_⟩
  · rw [take_left, hpos]
  · rw [drop_left, hp]
    exact prefix_append piece rear

open Interpolation

/-! ### The text of a lexer -/

lemma Heredoc.text_nil (squiggly : Bool) : Heredoc.text squiggly [] = [] := by
  cases squiggly with
  | false => rfl
  | true =>
    rw [text, Utf8.decode, Utf8.decodeChars]
    rfl

variable {src : Bytes} {code : String} {pos : Pos} {parts : List StrPart}

lemma Cursor.Leads.holds {c : Cursor} {n : Nat} (h : (Cursor.start src).Leads c)
    (hholds : Holds (c.rest.take n) c.pos code pos) : Holds src .origin code pos := by
  have hne : c.rest ≠ [] := by
    intro hnil
    rw [hnil, take_nil] at hholds
    exact Holds.not_nil hholds
  obtain ⟨k, -, hpos, hr⟩ := h.exists_take hne
  have hw := hholds.append (c.rest.drop n)
  rw [take_append_drop, hpos, hr] at hw
  exact take_append_drop k src ▸ hw.prepend _

lemma TokenKind.IsRead.holds {raw : Bytes} {base : Pos} (h : kind.IsRead raw base)
    (hkind : kind = .interp parts) (hmem : .code code pos ∈ parts) : Holds raw base code pos := by
  obtain ⟨parts', rfl, hs⟩ := h
  cases hkind
  exact (splits_of_split hs).holds hmem

/-- The code stands in the body of a heredoc, which starts on a line of the text behind the first `i` bytes and
loses the indentation of its lines. -/
def HoldsStripped (src : Bytes) (code : String) (pos : Pos) : Prop :=
  ∃ i lines n, src.take i = lines ++ [10] ∧
    Holds (Heredoc.text true ((src.drop i).take n)) (Pos.origin.advance (src.take i)) code pos

lemma TokenKind.Starts.holds {l : Lexer} (h : kind.Starts l) (hin : l.In src)
    (hkind : kind = .interp parts) (hmem : .code code pos ∈ parts) :
    Holds src .origin code pos ∨ utf8 "<<~" <+: l.cursor.rest ∧ HoldsStripped src code pos := by
  rcases h with (hs | ⟨i, n, hr⟩) | @⟨squiggly, ⟨i, first, n, hf, hr⟩, hmark⟩
  · rw [hkind] at hs
    cases hs
  · exact .inl ((hin.cursor.trans (.skip _ i)).holds (hr.holds hkind hmem))
  · have hc := Lexer.In.crosses_bodyStart (hin.passed i) hf
    have hholds := hr.holds hkind hmem
    cases squiggly with
    | false => exact .inl (hc.toLeads.holds hholds)
    | true =>
      have hne : first.rest ≠ [] := by
        intro hnil
        rw [hnil, take_nil, Heredoc.text_nil] at hholds
        exact Holds.not_nil hholds
      obtain ⟨k, -, hpos, hre⟩ := hc.toLeads.exists_take hne
      obtain ⟨lines, hlines⟩ := hc.lineStart.resolve_left hne
      rw [hpos, hre] at hholds
      refine .inr ⟨hmark rfl, k, lines, n, ?_, hholds⟩
      have hsrc : src.take k ++ src.drop k = (lines ++ [10]) ++ src.drop k := by
        rwa [take_append_drop, append_assoc, ← hre]
      exact append_cancel_right hsrc

namespace Lexer

variable {l l' : Lexer} {seen : List Token} {t : Token}

lemma Step.holds (h : l.Step t l') (hin : l.In src) (hkind : t.kind = .interp parts)
    (hmem : .code code pos ∈ parts) :
    Holds src .origin code pos ∨ ∃ k ≤ src.length,
      t.span.start = (l.origin.getD .origin).advance (src.take k) ∧ utf8 "<<~" <+: src.drop k ∧
      HoldsStripped src code pos := by
  cases h with
  | mk hs =>
    cases hs with
    | lineEnd | eof => cases hkind
    | token hgap hst hp hsta hsp =>
      have hb := hgap.within hin
      refine (hsta.holds hb hkind hmem).imp_right ?_
      rintro ⟨hmark, hbo⟩
      obtain ⟨rest, hr⟩ := Cursor.peek_eq_some hp
      obtain ⟨k, hk, hpos, hd⟩ := hb.cursor.exists_take (hr ▸ cons_ne_nil _ _)
      refine ⟨k, hk, Span.start_relocated ?_ l.origin, hd ▸ hmark, hbo⟩
      rw [hsp, hpos]

lemma Driven.holds {origin : Option Pos} (h : Driven src origin l seen) (ht : t ∈ seen)
    (hkind : t.kind = .interp parts) (hmem : .code code pos ∈ parts) :
    Holds src .origin code pos ∨ ∃ k ≤ src.length,
      t.span.start = (origin.getD .origin).advance (src.take k) ∧ utf8 "<<~" <+: src.drop k ∧
      HoldsStripped src code pos := by
  have hk : Kept src origin (fun t => ∀ parts code pos, t.kind = .interp parts →
      .code code pos ∈ parts → Holds src .origin code pos ∨ ∃ k ≤ src.length,
        t.span.start = (origin.getD .origin).advance (src.take k) ∧ utf8 "<<~" <+: src.drop k ∧
        HoldsStripped src code pos) l seen :=
    h.kept fun hin ho hs _ _ _ hkind hmem => ho ▸ hs.holds hin hkind hmem
  exact hk.seen t ht parts code pos hkind hmem

/-- The code in a token stands where its position says, in the positions of the text that the lexer reads.
Only in a heredoc opened with `<<~` the position is counted in what its body is without the indentation: the
body starts on a line of the text, and the code stands so many bytes behind that in the text that is left. -/
theorem code_stands (source : String) (origin : Option Pos)
    (h : Driven (utf8 source) origin l seen) (ht : t ∈ seen) (hkind : t.kind = .interp parts)
    (hmem : .code code pos ∈ parts) :
    Stands (utf8 source) .origin code pos ∨ ∃ k ≤ (utf8 source).length,
      t.span.start = (origin.getD .origin).advance ((utf8 source).take k) ∧
      utf8 "<<~" <+: (utf8 source).drop k ∧
      ∃ i lines n, (utf8 source).take i = lines ++ [10] ∧
        Stands (Heredoc.text true (((utf8 source).drop i).take n))
          (Pos.origin.advance ((utf8 source).take i)) code pos := by
  refine (h.holds ht hkind hmem).imp Holds.stands ?_
  rintro ⟨k, hk, hstart, hmark, i, lines, n, hlines, hholds⟩
  exact ⟨k, hk, hstart, hmark, i, lines, n, hlines, hholds.stands⟩

/-- A string inside interpolated code: its own code stands at offset 4 of the inner text, whatever the place
of that text in the file. -/
theorem code_stands_inner : ∃ t ∈ (ofString "\"a#\x7bx\x7d\"" (some ⟨3, 1, 4⟩)).tokens.1, ∃ parts,
      t.kind = .interp parts ∧ .code "x" ⟨4, 1, 5⟩ ∈ parts ∧
      Stands (utf8 "\"a#\x7bx\x7d\"") .origin "x" ⟨4, 1, 5⟩ := by
  have hbytes : utf8 "\"a#\x7bx\x7d\"" = [34, 97, 35, 123, 120, 125, 34] := by decide
  let parts : List StrPart := [.lit [97], .code "x" ⟨4, 1, 5⟩]
  let t : Token := ⟨.interp parts, ⟨⟨3, 1, 4⟩, ⟨10, 1, 11⟩⟩, false, true⟩
  have hmem : t ∈ (ofString "\"a#\x7bx\x7d\"" (some ⟨3, 1, 4⟩)).tokens.1 := by
    refine of_decide_eq_true ?_
    rw [ofString, hbytes]
    cbv
  have hcode : .code "x" ⟨4, 1, 5⟩ ∈ parts := by decide
  refine ⟨t, hmem, parts, rfl, hcode, ?_⟩
  obtain ⟨l, hdriven⟩ := (Driven.start : Driven (utf8 "\"a#\x7bx\x7d\"") (some ⟨3, 1, 4⟩) _ _).collect
    (ofString "\"a#\x7bx\x7d\"" (some ⟨3, 1, 4⟩)).bound
  have hseen := List.mem_append_left [] (List.mem_reverse.mpr hmem)
  refine (code_stands _ _ hdriven hseen rfl hcode).resolve_right ?_
  rintro ⟨k, hk, -, hmark, -⟩
  rw [hbytes] at hk hmark
  revert k
  decide

/-- Behind `<<~` the code is not where its position says: the blanks before it are not counted. -/
theorem code_displaced_by_indentation : ∃ t ∈ (ofString "<<~A\n  #\x7bx\x7d\nA\n").tokens.1, ∃ parts,
      t.kind = .interp parts ∧ .code "x" ⟨7, 2, 3⟩ ∈ parts ∧
      ¬Stands (utf8 "<<~A\n  #\x7bx\x7d\nA\n") .origin "x" ⟨7, 2, 3⟩ := by
  have hbytes : utf8 "<<~A\n  #\x7bx\x7d\nA\n" =
      [60, 60, 126, 65, 10, 32, 32, 35, 123, 120, 125, 10, 65, 10] := by decide
  let parts : List StrPart := [.code "x" ⟨7, 2, 3⟩, .lit [10]]
  let t : Token := ⟨.interp parts, ⟨⟨0, 1, 1⟩, ⟨4, 1, 5⟩⟩, false, true⟩
  have hmem : t ∈ (ofString "<<~A\n  #\x7bx\x7d\nA\n").tokens.1 := by
    refine of_decide_eq_true ?_
    rw [ofString, hbytes]
    cbv
  refine ⟨t, hmem, parts, rfl, by decide, ?_⟩
  rw [hbytes]
  rintro ⟨k, hk, hpos, hcode⟩
  have hoffset := congrArg Pos.offset hpos
  rw [Pos.offset_advance, List.length_take, Nat.min_eq_left hk] at hoffset
  obtain rfl : k = 7 := by
    simp only [Pos.origin] at hoffset
    omega
  revert hcode
  decide

end Lexer

end Garnet
