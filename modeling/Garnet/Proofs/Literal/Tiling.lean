import Garnet.Proofs.Source.Utf8
import Garnet.Proofs.Literal.Progress

/-!
# The parts of an interpolated text

A text is split at its code: at every step some bytes are taken for text, or code is cut out together with
the marks around it (`Interpolation.Splits`), so splitting moves on (`escapes_advance`). A text without
escapes is covered by its parts, none of its bytes left out and none taken twice
(`Interpolation.parts_tile`). The code is cut out next to ASCII marks, so that no character is cut in two.
-/

namespace Garnet

open List

namespace Interpolation

/-- The marks before code and behind it: a number sign and braces, or a number sign alone before a
variable, which ends with an ASCII character. -/
inductive Marks : Bytes → Bytes → Bytes → Prop
  | braces (code : Bytes) : Marks [35, 123] code [125]
  | sigil {code : Bytes} (hsigil : ∃ b ∈ code.head?, b = 64 ∨ b = 36)
      (hlast : ∃ b ∈ code.getLast?, b < 0x80) : Marks [35] code []

/-- How the text `raw` at `pos` is split, with `lit` the text that was read before it, last byte first. Each
turn takes bytes off the text: one, a backslash with all bytes of the escape behind it, or code with its
marks. -/
inductive Splits : Pos → Bytes → Bytes → Except QuoteError (List StrPart) → Prop
  | done {pos lit} : Splits pos lit [] (.ok (flush lit []))
  | fault {pos lit} (b : Byte) (raw : Bytes) (cause : QuoteCause) :
      Splits pos lit (b :: raw) (.error ⟨cause, pos⟩)
  | byte {pos : Pos} {lit raw r} {b : Byte} (hb : b ≠ 92)
      (h : Splits (pos.next b) (b :: lit) raw r) : Splits pos lit (b :: raw) r
  | escape {pos : Pos} {lit raw piece bytes : Bytes} {r} (hne : piece ≠ [])
      (hdecode : Escape.decode (piece ++ raw) = .ok (bytes, piece.length))
      (h : Splits (pos.advance (92 :: piece)) (bytes.reverse ++ lit) raw r) :
      Splits pos lit (92 :: (piece ++ raw)) r
  | code {pos : Pos} {lit raw mark code close : Bytes} {r}
      (hmarks : Marks mark code close) (h : Splits (((pos.advance mark).advance code).advance close) [] raw r) :
      Splits pos lit (mark ++ (code ++ (close ++ raw)))
        (r.map fun parts => flush lit (.code (Utf8.decode code) (pos.advance mark) :: parts))

variable {pos base : Pos} {lit raw : Bytes} {parts : List StrPart}

lemma closing_eq_some {quote : Option Byte} {depth skipped n : Nat} {bs : Bytes}
    (h : closing quote depth skipped bs = some n) : ∃ k, n = skipped + k ∧ bs[k]? = some 125 := by
  have hc {b} {rest : Bytes} {skipped} (h : ∃ k, n = skipped + 1 + k ∧ rest[k]? = some 125) :
      ∃ k, n = skipped + k ∧ (b :: rest)[k]? = some 125 := by
    obtain ⟨k, rfl, hk⟩ := h
    exact ⟨k + 1, by omega, hk⟩
  fun_induction closing quote depth skipped bs with
  | case1 => cases h
  | case2 quote depth skipped b hb =>
    cases h
    rw [Bool.and_eq_true, Bool.and_eq_true, beq_iff_eq] at hb
    exact ⟨0, rfl, congrArg some hb.1.1⟩
  | case3 => cases h
  | case4 quote depth skipped b c rest hb ih => exact hc (hc (ih h))
  | case7 depth skipped b c rest hesc ho hb hd =>
    cases h
    exact ⟨0, rfl, congrArg some (beq_iff_eq.mp hb)⟩
  | _ =>
    rename_i ih
    exact hc (ih h)

/-- A letter, a digit or an underscore, as the name of a variable in the short form has them. -/
def isWord (b : Byte) : Bool := b.isAlphanum || b == 95

lemma lt_of_isWord {b : Byte} (h : isWord b) : b < 0x80 := by
  rw [isWord, Bool.or_eq_true, beq_iff_eq] at h
  rcases h with h | rfl
  · exact Nat.lt_of_le_of_lt (Byte.le_of_isAlphanum h) (by decide)
  · decide

lemma shortVariable_eq_some {src name : Bytes} (h : shortVariable src = some name) :
    name <+: src ∧ Marks [35] name [] := by
  unfold shortVariable at h
  split at h
  · rename_i s rest
    split at h
    · rename_i hs
      dsimp only at h
      generalize hsigil : (if rest.head? == some 64 then 2 else 1) = sigil at h
      split at h
      · cases h
      · rename_i hd
        change some (take sigil (s :: rest) ++ (drop sigil (s :: rest)).takeWhile isWord) = _ at h
        have hw : (drop sigil (s :: rest)).takeWhile isWord ≠ [] := by
          intro hnil
          refine hd ?_
          change ((drop sigil (s :: rest)).takeWhile isWord).head?.all Byte.isDigit = true
          rw [hnil]
          rfl
        have ha := lt_of_isWord (all_eq_true.mp all_takeWhile _ (getLast_mem hw))
        refine ⟨?_, .sigil ⟨s, ?_, by simpa using hs⟩ ⟨_, ?_, ha⟩⟩
        · exact ⟨_, by rw [← Option.some.inj h, append_assoc, takeWhile_append_dropWhile, take_append_drop]⟩
        · obtain ⟨k, rfl⟩ : ∃ k, sigil = k + 1 := ⟨sigil - 1, by grind⟩
          rw [← Option.some.inj h, take_succ_cons]
          rfl
        · rw [← Option.some.inj h, getLast?_append, getLast?_eq_some_getLast hw]
          rfl
    · cases h
  · cases h

lemma splits_split (pos : Pos) (lit raw : Bytes) : Splits pos lit raw (split pos lit raw) := by
  fun_induction split pos lit raw with
  | case1 => exact .done
  | case2 | case4 => exact .fault ..
  | case3 pos lit b rest hb bytes n hd ih =>
    obtain ⟨hpos, hle⟩ := Escape.advances_decode _ _ _ hd
    cases beq_iff_eq.mp hb
    have hlen := length_take_of_le hle
    have hs := Splits.escape (ne_nil_of_length_pos (by rwa [hlen])) (by rw [take_append_drop, hlen, hd]) ih
    rwa [take_append_drop] at hs
  | case5 pos lit b rest hesc ho text n hc start r hs ih
  | case6 pos lit b rest hesc ho text n hc start r hs ih =>
    rw [Bool.and_eq_true, beq_iff_eq, beq_iff_eq] at ho
    obtain ⟨rfl, hbra⟩ := ho
    obtain ⟨k, hk, hclo⟩ := closing_eq_some hc
    obtain ⟨code, rfl⟩ := head?_eq_some_iff.mp hbra
    have ht : text.take (n + 1) = text.take n ++ [125] := by
      rw [take_add_one, hk, Nat.zero_add, hclo]
      rfl
    have hco : 35 :: 123 :: code = [35, 123] ++ (text.take n ++ ([125] ++ text.drop (n + 1))) := by
      rw [← append_assoc (text.take n), ← ht, take_append_drop]
      rfl
    rw [hs, ht, Pos.advance_append] at ih
    rw [hco]
    exact .code (.braces _) ih
  | case8 pos lit b rest hesc ho hm name hsho start r hs ih
  | case9 pos lit b rest hesc ho hm name hsho start r hs ih =>
    cases beq_iff_eq.mp hm
    obtain ⟨hr, hmarks⟩ := shortVariable_eq_some hsho
    rw [← prefix_iff_eq_append.mp hr]
    exact .code hmarks (hs ▸ ih)
  | case7 pos lit b rest hesc ho hm hsho ih | case10 pos lit b rest hesc ho hm ih =>
    exact .byte (fun hb => hesc (beq_iff_eq.mpr hb)) ih

lemma splits_of_split (h : split pos lit raw = .ok parts) : Splits pos lit raw (.ok parts) :=
  h ▸ splits_split pos lit raw

lemma mem_flush {code : String} : .code code pos ∈ flush lit parts ↔ .code code pos ∈ parts := by
  unfold flush
  split
  · rfl
  · rw [mem_cons]
    exact ⟨fun h => h.resolve_left nofun, .inr⟩

lemma exists_getLast?_append {front : Bytes} (h : ∃ b ∈ front.getLast?, b < 0x80) (more : Bytes) :
    ∃ b ∈ (more ++ front).getLast?, b < 0x80 := by
  obtain ⟨b, hb, hlt⟩ := h
  exact ⟨b, by rw [getLast?_append, hb]; rfl, hlt⟩

lemma Marks.cut {mark code close : Bytes} (h : Marks mark code close) (raw : Bytes) :
    (∃ b ∈ mark.getLast?, b < 0x80) ∧ Utf8.Cut (mark ++ code) (close ++ raw) := by
  cases h with
  | braces => exact ⟨⟨123, rfl, by decide⟩, .inr ⟨125, rfl, by decide⟩⟩
  | sigil _ hlast => exact ⟨⟨35, rfl, by decide⟩, .inl (exists_getLast?_append hlast _)⟩

/-- Inside the text `raw` that starts at `base`, `pos` is the place of some bytes that are decoded to `code`.
The cuts before them and behind them are next to ASCII bytes. -/
def Holds (raw : Bytes) (base : Pos) (code : String) (pos : Pos) : Prop :=
  ∃ front piece rear, raw = front ++ piece ++ rear ∧ pos = base.advance front ∧
    code = Utf8.decode piece ∧ (∃ b ∈ front.getLast?, b < 0x80) ∧ Utf8.Cut (front ++ piece) rear

namespace Holds

variable {code : String}

lemma prepend (more : Bytes) (h : Holds raw (base.advance more) code pos) :
    Holds (more ++ raw) base code pos := by
  obtain ⟨front, piece, rear, rfl, rfl, hc, hf, hcut⟩ := h
  refine ⟨more ++ front, piece, rear, by simp only [append_assoc], ?_, hc,
    exists_getLast?_append hf more, ?_⟩
  · rw [Pos.advance_append]
  · rw [append_assoc]
    exact hcut.imp_left (exists_getLast?_append · more)

lemma append (h : Holds raw base code pos) (more : Bytes) : Holds (raw ++ more) base code pos := by
  obtain ⟨front, piece, rear, rfl, hpos, hc, hf, hcut⟩ := h
  refine ⟨front, piece, rear ++ more, by simp only [append_assoc], hpos, hc, hf, ?_⟩
  refine hcut.imp_right ?_
  rintro ⟨d, hd, hlt⟩
  exact ⟨d, by rw [head?_append, hd]; rfl, hlt⟩

lemma not_nil : ¬Holds [] base code pos := by
  rintro ⟨front, piece, rear, hnil, -, -, ⟨b, hb, -⟩, -⟩
  rw [eq_comm, append_assoc, append_eq_nil_iff] at hnil
  rw [hnil.1] at hb
  cases hb

end Holds

/-- The code of a double-quoted body stands where its position says. -/
lemma Splits.holds (h : Splits pos lit raw (.ok parts)) {code : String} {place : Pos}
    (hmem : .code code place ∈ parts) : Holds raw pos code place := by
  generalize hr : Except.ok parts = r at h
  induction h generalizing parts with
  | done =>
    cases hr
    cases mem_flush.mp hmem
  | fault => cases hr
  | byte _ _ ih => exact (ih hmem hr).prepend [_]
  | @escape _ _ _ piece _ _ _ _ _ ih => exact (ih hmem hr).prepend (92 :: piece)
  | @code pos lit raw mark piece close r hmarks _ ih =>
    obtain ⟨parts, rfl, rfl⟩ := eq_ok_of_map hr.symm
    rcases mem_cons.mp (mem_flush.mp hmem) with heq | hmem
    · obtain ⟨rfl, rfl⟩ := StrPart.code.inj heq
      exact ⟨mark, piece, close ++ raw, (append_assoc _ _ _).symm, rfl, rfl, hmarks.cut raw⟩
    · exact (((ih hmem rfl).prepend _).prepend _).prepend _

/-- The parts are written one behind the other as the text `raw` that starts at `base`: text as it is, never
empty and never next to text, and code between its marks, where its position says. -/
inductive Tiles : Pos → Bytes → List StrPart → Prop
  | nil {base : Pos} : Tiles base [] []
  | lit {base : Pos} {bytes raw : Bytes} {parts : List StrPart} (hne : bytes ≠ [])
      (hnext : ∀ next, .lit next ∉ parts.head?) (h : Tiles (base.advance bytes) raw parts) :
      Tiles base (bytes ++ raw) (.lit bytes :: parts)
  | code {base : Pos} {mark close raw : Bytes} {parts : List StrPart} (source : String)
      (hmarks : Marks mark (utf8 source) close)
      (h : Tiles (((base.advance mark).advance (utf8 source)).advance close) raw parts) :
      Tiles base (mark ++ (utf8 source ++ (close ++ raw))) (.code source (base.advance mark) :: parts)

lemma tiles_flush (hnext : ∀ next, .lit next ∉ parts.head?)
    (h : Tiles (base.advance lit.reverse) raw parts) : Tiles base (lit.reverse ++ raw) (flush lit parts) := by
  unfold flush
  split
  · rename_i hnil
    rwa [isEmpty_iff.mp hnil] at h ⊢
  · rename_i hne
    exact .lit (by simpa using hne) hnext h

/-- The text read so far is a part of its own up to the next code. -/
lemma Splits.tiles (h : Splits pos lit raw (.ok parts)) {text : String} {front : Bytes}
    (ht : utf8 text = front ++ raw) (hplain : 92 ∉ raw) (hpos : pos = base.advance lit.reverse) :
    Tiles base (lit.reverse ++ raw) parts := by
  generalize hr : Except.ok parts = r at h
  induction h generalizing front base parts with
  | done =>
    cases hr
    exact tiles_flush nofun .nil
  | fault => cases hr
  | @byte _ _ _ _ b _ _ ih =>
    rw [append_cons] at ht
    have hs := ih ht (fun h => hplain (mem_cons_of_mem b h))
      (by rw [hpos, reverse_cons, Pos.advance_append]; rfl) hr
    rwa [reverse_cons, append_assoc] at hs
  | escape => exact absurd mem_cons_self hplain
  | @code pos lit raw mark code close r hmarks _ ih =>
    obtain ⟨parts, rfl, rfl⟩ := eq_ok_of_map hr.symm
    obtain ⟨hm, hcut⟩ := hmarks.cut raw
    rw [← append_assoc, ← append_assoc, ← append_assoc] at ht
    have hs : utf8 (Utf8.decode code) = code := by
      refine Utf8.utf8_decode_of_cut (ht.trans (append_assoc _ _ _)) (exists_getLast?_append hm front) ?_
      rw [append_assoc]
      exact hcut.imp_left (exists_getLast?_append · front)
    rw [← append_assoc, ← append_assoc] at hplain
    have htil := ih ht (fun h => hplain (mem_append_right _ h)) rfl rfl
    rw [← hs] at hmarks htil
    rw [hpos] at htil ⊢
    have hc := Tiles.code _ hmarks htil
    rw [hs] at hc
    exact tiles_flush nofun hc

/-- A text without a backslash is what its parts are written as. -/
theorem parts_tile {text : String} (hplain : 92 ∉ utf8 text)
    (h : Interpolation.parts (utf8 text) base = .ok parts) : Tiles base (utf8 text) parts :=
  (splits_of_split h).tiles (nil_append _).symm hplain rfl

theorem parts_tile_both_forms : Tiles .origin (utf8 "a#\x7bx\x7d#@y")
    [.lit [97], .code "x" ⟨3, 1, 4⟩, .code "@y" ⟨6, 1, 7⟩] :=
  parts_tile (by decide) (by cbv)

end Interpolation

/-- An escape at any index of any text is read with no more calls inside one another than there are bytes from the
index on and one. The index behind it is a later one, and no later than the end of the text. So every turn over a
double-quoted body moves on, and takes only bytes that are there. -/
theorem escapes_advance (src : Bytes) (i : Nat) :
    (∀ stub depth, src.length - i < depth → Escape.stacked stub depth (src.drop i) = Escape.decode (src.drop i)) ∧
      (∀ bytes n, Escape.decode (src.drop i) = .ok (bytes, n) → i < i + n ∧ i + n ≤ src.length) ∧
      ∀ base, Interpolation.Splits base [] src (Interpolation.parts src base) := by
  refine ⟨fun stub depth h => Escape.stacked_eq stub (by rwa [length_drop]), fun bytes n h => ?_, fun base =>
    Interpolation.splits_split base [] src⟩
  have hn := Escape.advances_decode _ _ _ h
  rw [length_drop] at hn
  omega

end Garnet
