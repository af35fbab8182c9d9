import Garnet.Literal.Indent
import Mathlib.Data.List.Basic

/-!
# Taking away common indentation

From each line goes a run of blanks and tabs that ends at the least indentation of the lines with a text,
or before it if a tab reaches across. A line of the least indentation loses all of it, so the indentation
that is left is zero, and stripping once more changes nothing (`strip_outdents`).
-/

namespace Garnet

open List

namespace Indent

def IsGap (c : Char) : Prop := c = ' ' ∨ c = '\t'

def IsBlank (l : List Char) : Prop := ∀ c ∈ l, Text.isWhite c

variable {least col : Nat} {l w : List Char} {ls : List (List Char)}

/-! ### One line -/

lemma lt_tabStop (col : Nat) : col < tabStop col := by
  rw [tabStop]
  omega

lemma le_width (col : Nat) (l : List Char) : col ≤ width col l := by
  fun_induction width col l with
  | case1 col cs ih => omega
  | case2 col cs ih => exact Nat.le_of_lt (Nat.lt_of_lt_of_le (lt_tabStop col) ih)
  | case3 => exact Nat.le_refl _

/-- What goes is a run of blanks and tabs that ends at column `least` or before it. -/
lemma exists_cut (hcol : col ≤ least) (l : List Char) :
    ∃ cut, l = cut ++ dropColumns least col l ∧ (∀ c ∈ cut, IsGap c) ∧ width col cut ≤ least := by
  fun_induction dropColumns least col l with
  | case1 | case2 | case5 => exact ⟨[], rfl, by simp, hcol⟩
  | case3 col c cs hlt hc ih =>
    obtain ⟨cut, heq, hgap, hwidth⟩ := ih (by omega)
    obtain rfl := beq_iff_eq.mp hc
    exact ⟨' ' :: cut, congrArg _ heq, forall_mem_cons.mpr ⟨.inl rfl, hgap⟩, hwidth⟩
  | case4 col c cs hlt hc htab ih =>
    rw [Bool.and_eq_true, beq_iff_eq, decide_eq_true_iff] at htab
    obtain ⟨rfl, hle⟩ := htab
    obtain ⟨cut, heq, hgap, hwidth⟩ := ih hle
    exact ⟨'\t' :: cut, congrArg _ heq, forall_mem_cons.mpr ⟨.inr rfl, hgap⟩, hwidth⟩

/-- A line that is indented by `least` columns loses its indentation. -/
lemma not_isGap_head (hwidth : width col l = least) : ∀ c ∈ (dropColumns least col l).head?, ¬ IsGap c := by
  fun_induction dropColumns least col l with
  | case1 => simp
  | case2 col c cs hle =>
    rintro _ ⟨⟩ (rfl | rfl)
    · have := le_width (col + 1) cs
      rw [width] at hwidth
      omega
    · have := le_width (tabStop col) cs
      have := lt_tabStop col
      rw [width] at hwidth
      omega
  | case3 col c cs hlt hc ih =>
    obtain rfl := beq_iff_eq.mp hc
    exact ih hwidth
  | case4 col c cs hlt hc htab ih =>
    rw [Bool.and_eq_true, beq_iff_eq] at htab
    obtain ⟨rfl, -⟩ := htab
    exact ih hwidth
  | case5 col c cs hlt hblank htab =>
    rintro _ ⟨⟩ (rfl | rfl)
    · exact hblank rfl
    · rw [width] at hwidth
      have := le_width (tabStop col) cs
      simp at htab
      omega

lemma dropColumns_concat (least col : Nat) :
    dropColumns least col (w ++ ['\n']) = dropColumns least col w ++ ['\n'] := by
  fun_induction dropColumns least col w with
  | case1 => simp [dropColumns]
  | case2 col c cs hle => rw [cons_append, dropColumns, if_pos hle]
  | case3 col c cs hlt hc ih => rw [cons_append, dropColumns, if_neg hlt, if_pos hc, ih]
  | case4 col c cs hlt hc htab ih => rw [cons_append, dropColumns, if_neg hlt, if_neg hc, if_pos htab, ih]
  | case5 col c cs hlt hc htab => rw [cons_append, dropColumns, if_neg hlt, if_neg hc, if_neg htab]

/-- White space is all that goes. -/
lemma isBlank_dropColumns (least : Nat) (l : List Char) : IsBlank (dropColumns least 0 l) ↔ IsBlank l := by
  obtain ⟨cut, heq, hgap, -⟩ := exists_cut (Nat.zero_le least) l
  refine ⟨fun h c hc => ?_, fun h c hc => h c (heq ▸ mem_append_right cut hc)⟩
  rw [heq] at hc
  rcases mem_append.mp hc with hc | hc
  · rcases hgap c hc with rfl | rfl <;> rfl
  · exact h c hc

/-! ### Texts by their lines -/

lemma lines_append (hw : '\n' ∉ w) (s : List Char) : lines (w ++ '\n' :: s) = (w ++ ['\n']) :: lines s := by
  induction w with
  | nil => rw [nil_append, lines, if_pos (by rfl), nil_append]
  | cons c w ih =>
    rw [mem_cons, not_or] at hw
    rw [cons_append, lines, if_neg (by simpa using Ne.symm hw.1), ih hw.2]
    rfl

lemma lines_of_notMem (hw : '\n' ∉ w) : lines w = if w = [] then [] else [w] := by
  induction w with
  | nil => rfl
  | cons c w ih =>
    rw [mem_cons, not_or] at hw
    rw [lines, if_neg (by simpa using Ne.symm hw.1), ih hw.2]
    cases w <;> rfl

/-- A text is one line without an end, or a line and a text behind it. -/
lemma text_induction {P : List Char → Prop} (last : ∀ w, '\n' ∉ w → P w)
    (line : ∀ w s, '\n' ∉ w → P s → P (w ++ '\n' :: s)) (s : List Char) : P s := by
  -- `w` is the part of the first line that is behind us
  suffices ∀ w, '\n' ∉ w → P (w ++ s) from this [] (by simp)
  induction s with
  | nil => exact fun w hw => (append_nil w).symm ▸ last w hw
  | cons c s ih =>
    intro w hw
    by_cases hc : c = '\n'
    · exact hc ▸ line w s hw (ih [] (by simp))
    · rw [append_cons]
      exact ih _ (by simp [hw, Ne.symm hc])

lemma flatten_lines (s : List Char) : (lines s).flatten = s := by
  induction s using text_induction with
  | last w hw =>
    rw [lines_of_notMem hw]
    split <;> simp_all
  | line w s hw ih => rw [lines_append hw, flatten_cons, ih, append_assoc]; rfl

lemma notMem_dropColumns (hw : '\n' ∉ w) (least : Nat) : '\n' ∉ dropColumns least 0 w := by
  obtain ⟨cut, heq, -⟩ := exists_cut (Nat.zero_le least) w
  exact fun h => hw (heq ▸ mem_append_right cut h)

/-- The lines of what is left are those that are left, but for a last one that is gone. -/
lemma lines_outdented (s : List Char) : lines ((lines s).flatMap (dropColumns least 0)) =
    ((lines s).map (dropColumns least 0)).filter (· ≠ []) := by
  induction s using text_induction with
  | last w hw =>
    rw [lines_of_notMem hw]
    split
    · rfl
    · rw [flatMap_singleton, lines_of_notMem (notMem_dropColumns hw least)]
      split <;> simp_all
  | line w s hw ih =>
    rw [lines_append hw, flatMap_cons, dropColumns_concat, append_assoc, singleton_append,
      lines_append (notMem_dropColumns hw least), ih, map_cons, dropColumns_concat,
      filter_cons_of_pos (by simp)]

lemma count_outdented (s : List Char) :
    ((lines s).flatMap (dropColumns least 0)).count '\n' = s.count '\n' := by
  have hl (l : List Char) : (dropColumns least 0 l).count '\n' = l.count '\n' := by
    obtain ⟨cut, heq, hgap, -⟩ := exists_cut (Nat.zero_le least) l
    have hcut : cut.count '\n' = 0 := count_eq_zero.mpr fun h => by rcases hgap _ h with h | h <;> cases h
    conv_rhs => rw [heq, count_append, hcut, Nat.zero_add]
  conv_rhs => rw [← flatten_lines s]
  rw [count_flatMap, count_flatten]
  exact congrArg sum (map_congr_left fun l _ => hl l)

/-! ### The least indentation -/

lemma mem_widths {n : Nat} : n ∈ (ls.filter fun l => !l.all Text.isWhite).map (width 0) ↔
    ∃ l ∈ ls, ¬ IsBlank l ∧ width 0 l = n := by
  simp [IsBlank, and_assoc]

lemma common_le (hl : l ∈ ls) (htext : ¬ IsBlank l) : common ls ≤ width 0 l := by
  have hmem := mem_widths.mpr ⟨l, hl, htext, rfl⟩
  obtain ⟨n, hn⟩ := Option.isSome_iff_exists.mp (isSome_min?_of_mem hmem)
  rw [common, hn, Option.getD_some]
  exact (min?_eq_some_iff.mp hn).2 _ hmem

lemma exists_width_eq_common (h : ∃ l ∈ ls, ¬ IsBlank l) : ∃ l ∈ ls, ¬ IsBlank l ∧ width 0 l = common ls := by
  obtain ⟨l, hl, htext⟩ := h
  obtain ⟨n, hn⟩ := Option.isSome_iff_exists.mp (isSome_min?_of_mem (mem_widths.mpr ⟨l, hl, htext, rfl⟩))
  rw [common, hn, Option.getD_some]
  exact mem_widths.mp (min?_eq_some_iff.mp hn).1

lemma common_of_isBlank (h : ∀ l ∈ ls, IsBlank l) : common ls = 0 := by
  have hnil : ls.filter (fun l => !l.all Text.isWhite) = [] := by simpa [IsBlank] using h
  rw [common, hnil]
  rfl

lemma exists_outdented (h : ∃ l ∈ ls, ¬ IsBlank l) : ∃ l ∈ ls, ¬ IsBlank (dropColumns (common ls) 0 l) ∧
    ∀ c ∈ (dropColumns (common ls) 0 l).head?, ¬ IsGap c := by
  obtain ⟨l, hl, htext, hwidth⟩ := exists_width_eq_common h
  exact ⟨l, hl, fun hb => htext ((isBlank_dropColumns _ l).mp hb), not_isGap_head hwidth⟩

lemma width_eq_zero (h : ∀ c ∈ l.head?, ¬ IsGap c) : width 0 l = 0 := by
  rw [width.eq_def]
  split
  · exact absurd (.inl rfl) (h _ rfl)
  · exact absurd (.inr rfl) (h _ rfl)
  · rfl

/-- Nothing is left that all lines share. -/
lemma common_outdented :
    common ((ls.map (dropColumns (common ls) 0)).filter (· ≠ [])) = 0 := by
  by_cases h : ∃ l ∈ ls, ¬ IsBlank l
  · obtain ⟨l, hl, htext, hhead⟩ := exists_outdented h
    have hleft : dropColumns (common ls) 0 l ∈ (ls.map (dropColumns (common ls) 0)).filter (· ≠ []) :=
      mem_filter.mpr ⟨mem_map_of_mem hl, decide_eq_true fun hnil => htext (by simp [hnil, IsBlank])⟩
    have hle := common_le hleft htext
    rwa [width_eq_zero hhead, Nat.le_zero] at hle
  · refine common_of_isBlank fun r hr => ?_
    obtain ⟨l, hl, rfl⟩ := mem_map.mp (mem_filter.mp hr).1
    exact (isBlank_dropColumns _ l).mpr (not_not.mp fun htext => h ⟨l, hl, htext⟩)

lemma dropColumns_zero (l : List Char) : dropColumns 0 0 l = l := by
  cases l <;> rfl

lemma strip_of_common (s : String) (h : common (lines s.toList) = 0) : strip s = s := by
  have hid : (lines s.toList).flatMap (dropColumns 0 0) = s.toList := by
    rw [flatMap_congr fun l _ => dropColumns_zero l, flatMap_id', flatten_lines]
  rw [strip, h, hid, String.ofList_toList]

/-- From each line goes a run of blanks and tabs, none of them beyond the indentation of any line with a
text; if there is such a line, one is left without indentation. All line ends stay, and there is nothing
to take away from what is left. -/
theorem strip_outdents (body : String) :
    let ls := lines body.toList
    let left := dropColumns (common ls) 0
    ls.flatten = body.toList ∧ (strip body).toList = ls.flatMap left ∧
    (∀ l ∈ ls, ∃ cut, l = cut ++ left l ∧ (∀ c ∈ cut, c = ' ' ∨ c = '\t') ∧
      (∀ m ∈ ls, ¬ IsBlank m → width 0 cut ≤ width 0 m) ∧ ((∀ m ∈ ls, IsBlank m) → cut = [])) ∧
    ((∃ l ∈ ls, ¬ IsBlank l) → ∃ l ∈ ls, ¬ IsBlank (left l) ∧ ∀ c ∈ (left l).head?, c ≠ ' ' ∧ c ≠ '\t') ∧
    (strip body).toList.count '\n' = body.toList.count '\n' ∧ strip (strip body) = strip body := by
  intro ls left
  have hstrip : (strip body).toList = ls.flatMap left := String.toList_ofList
  refine ⟨flatten_lines _, hstrip, fun l _ => ?_, fun h => ?_, ?_, strip_of_common _ ?_⟩
  · obtain ⟨cut, heq, hgap, hwidth⟩ := exists_cut (Nat.zero_le (common ls)) l
    refine ⟨cut, heq, hgap, fun m hm htext => Nat.le_trans hwidth (common_le hm htext), fun hblank => ?_⟩
    rw [common_of_isBlank hblank, dropColumns_zero] at heq
    exact self_eq_append_left.mp heq
  · obtain ⟨l, hl, htext, hhead⟩ := exists_outdented h
    exact ⟨l, hl, htext, fun c hc => not_or.mp (hhead c hc)⟩
  · rw [hstrip, count_outdented]
  · rw [hstrip, lines_outdented, common_outdented]

end Indent

end Garnet
