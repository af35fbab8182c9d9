import Garnet.Proofs.Code.Frames
import Garnet.Proofs.Literal.RoundTrip

/-!
# The texts of a program

The names of classes and methods, the strings and the symbols of a program are placed by `.asciz`
directives, each behind its label. No other line of a program is such a directive: code has no directives
but those for `break`, and the rest of the data has other ones. So the text of each is the written form of
one entry of a table, and it reads back as that entry's bytes (`asciz_reads_back`).
-/

namespace Garnet

open List Prologue Bool

namespace Line

def isText : Line → Bool
  | .directive d => ".asciz ".toList.isPrefixOf d.toList
  | _ => false

lemma not_isPrefixOf_append {as bs cs : List Char} (h : (zipWith (· != ·) as bs).any id) :
    as.isPrefixOf (bs ++ cs) = false := by
  induction as generalizing bs with
  | nil => cases h
  | cons a as ih =>
    cases bs with
    | nil => cases h
    | cons b bs =>
      rw [zipWith_cons_cons, any_cons, or_eq_true] at h
      rw [cons_append, isPrefixOf, and_eq_false_iff]
      exact h.imp (fun hne => by simpa using hne) ih

lemma isText_append {stem : String}
    (h : (zipWith (· != ·) ".asciz ".toList stem.toList).any id) (rest : String) :
    isText (.directive (stem ++ rest)) = false := by
  rw [isText, String.toList_append]
  exact not_isPrefixOf_append h

lemma isText_asciz (text : String) : isText (.directive (".asciz " ++ text)) = true := by
  rw [isText, String.toList_append, isPrefixOf_iff_prefix]
  exact prefix_append _ _

end Line

open Line Reg

/-! ### Code -/

lemma any_isText_prologue (r : Routine) (f : Frame) (slots : Nat) :
    (lines r f slots).any isText = false := by
  obtain ⟨code, heq, hcode⟩ := prologue_eq r f slots
  rw [heq, any_cons, show isText (.label r.label) = false from rfl, Bool.false_or, any_eq_false]
  intro l hl
  have hins := all_eq_true.mp hcode l hl
  cases l <;> first | exact false_ne_true | cases hins

lemma any_isText_emitRoutine {r : Routine} {t t' : Shared} {lines : List Line}
    (h : emitRoutine r t = .ok (lines, t')) : lines.any isText = false := by
  rw [emitRoutine] at h
  split at h
  · rename_i u s hb
    cases h
    obtain ⟨u', s', w, -, ht, -, -⟩ := Emit.steps_body r _ le_rfl (twins_start r t) hb
    obtain ⟨place, hf⟩ := ht.fits
    rw [any_append, any_isText_prologue, Bool.false_or, any_eq_false]
    refine forall_left_of_forall₂ (fun l l' hl => ?_) hf.placed
    cases hl with
    | ins | label => exact Bool.false_ne_true
    | keep =>
      rw [Line.keep, String.append_assoc, String.append_assoc, isText_append (by decide)]
      exact Bool.false_ne_true
  · cases h

lemma any_isText_emitRoutines {rs : List Routine} {t t' : Shared} {lines : List Line}
    (h : emitRoutines rs t = .ok (lines, t')) : lines.any isText = false := by
  induction rs generalizing t lines with
  | nil =>
    cases h
    rfl
  | cons r rs ih =>
    obtain ⟨⟨first, s⟩, hf, h⟩ := except_bind_eq_ok.mp h
    obtain ⟨⟨rest, s'⟩, hrest, h⟩ := except_bind_eq_ok.mp h
    cases h
    rw [any_append, any_isText_emitRoutine hf, ih hrest]
    rfl

lemma any_isText_entryPoint (units : List String) : (entryPoint units).any isText = false := by
  have hu : (units.flatMap runUnit).any isText = false := by
    rw [any_flatMap, any_eq_false]
    exact fun _ _ => false_ne_true
  rw [entryPoint, any_append, any_append, hu]
  decide

/-! ### Data -/

namespace Data

/-- The tables of texts, each with the stem of its labels. -/
def textTables (p : Program) (l : Literals) : List (String × List Bytes) :=
  [(".Lcname_", p.classes.classes.toList.map fun c => utf8 c.name),
    (".Lmname_", p.classes.slots.names.toList.map utf8),
    (".Lstr", l.strings.toList),
    (".Lsym_", l.symbols.toList.map utf8)]

lemma isText_long (ws : List String) : isText (long ws) = false := isText_append (by decide) _

lemma any_isText_offsets (names : List String) : (offsets names).any isText = false := by
  rw [offsets, any_flatten, any_eq_false]
  intro lines hlines
  obtain ⟨i, hi, rfl⟩ := mem_mapIdx.mp hlines
  rw [any_cons, any_cons, isText_append (by decide), String.append_assoc, String.append_assoc,
    isText_append (by decide)]
  exact false_ne_true

lemma any_isText_thunks (names : List String) : (thunks names).any isText = false := by
  rw [thunks, any_flatMap, any_eq_false]
  exact fun _ _ => false_ne_true

lemma any_isText_classObject (t : ClassTable) (missing : List String) (i : String) (id : ClassId) :
    (classObject t missing i id).any isText = false := by
  have htable : ((t.vtable id).zipWith (fun entry thunk => long [entry.getD thunk]) missing).any isText =
      false := by
    refine any_eq_false.mpr fun line hl => ?_
    obtain ⟨k, hk, rfl⟩ := mem_iff_getElem.mp hl
    rw [getElem_zipWith, isText_long]
    exact false_ne_true
  rw [classObject, any_cons, isText_append (by decide), any_cons, any_cons, isText_long, htable]
  rfl

lemma any_isText_words (labels : List String) (value : String) :
    (words labels value).any isText = false := by
  rw [words, any_flatMap, any_eq_false]
  intro label _
  rw [any_cons, any_cons, isText_long]
  exact false_ne_true

lemma any_isText_integer (i : String) (h : HeapInteger) : (integer i h).any isText = false := by
  rw [integer, any_cons, any_cons, isText_long]
  rfl

def objects (p : Program) (l : Literals) : List Line :=
  let t := p.classes
  let names := t.slots.names.toList
  offsets names ++ thunks names ++ [.directive ".data", .directive ".align\t4"]
    ++ ((numbered (range t.classes.size)).flatMap fun c =>
      classObject t (names.map Label.missingMethod) c.1 c.2)
    ++ words p.statics.keys "__nil"
    ++ words (labels "__once_" p.classSites) "0"
    ++ words (labels ".Lsymc_" l.symbols.size) "0"
    ++ ((numbered l.integers.toList).flatMap fun h => integer h.1 h.2)
    ++ [.directive ".section\t.rodata"]

lemma any_isText_objects (p : Program) (l : Literals) : (objects p l).any isText = false := by
  have hc (missing : List String) (cs : List (String × ClassId)) :
      (cs.flatMap fun c => classObject p.classes missing c.1 c.2).any isText = false := by
    simp [any_isText_classObject]
  have hint (hs : List (String × HeapInteger)) :
      (hs.flatMap fun h => integer h.1 h.2).any isText = false := by
    simp [any_isText_integer]
  simp only [objects, any_append, any_isText_offsets, any_isText_thunks, hc, any_isText_words,
    hint]
  decide

def textEntries (p : Program) (l : Literals) : List (String × Bytes) :=
  (textTables p l).flatMap fun table => (numbered table.2).map fun item => (table.1 ++ item.1, item.2)

lemma mem_textEntries {p : Program} {l : Literals} {entry : String × Bytes} (h : entry ∈ textEntries p l) :
    ∃ stem items, ∃ i : Nat, (stem, items) ∈ textTables p l ∧ items[i]? = some entry.2 ∧
      entry.1 = stem ++ Numeral.decimal i := by
  obtain ⟨table, htable, hentry⟩ := mem_flatMap.mp h
  obtain ⟨item, hitem, rfl⟩ := mem_map.mp hentry
  obtain ⟨i, hi, rfl⟩ := mem_mapIdx.mp hitem
  exact ⟨table.1, table.2, i, htable, getElem?_eq_getElem hi, rfl⟩

lemma lines_eq (p : Program) (l : Literals) : lines p l = objects p l ++
    (textEntries p l).flatMap fun entry => [.label entry.1, .directive (asciz entry.2)] := by
  have ht (stem : String) (items : List Bytes) : texts stem items =
      ((numbered items).map fun item => (stem ++ item.1, item.2)).flatMap
        fun entry => [.label entry.1, .directive (asciz entry.2)] := by
    rw [flatMap_map]
    rfl
  have hlines : lines p l = objects p l ++ texts ".Lcname_" (p.classes.classes.toList.map fun c => utf8 c.name)
      ++ texts ".Lmname_" (p.classes.slots.names.toList.map utf8) ++ texts ".Lstr" l.strings.toList
      ++ texts ".Lsym_" (l.symbols.toList.map utf8) := rfl
  rw [hlines, textEntries, flatMap_assoc]
  simp only [textTables, ht, flatMap_cons, flatMap_nil, append_nil, append_assoc]

end Data

lemma eq_of_directive_mem {entries : List (String × Bytes)} {before after : List Line} {d : String}
    (h : (entries.flatMap fun entry => [Line.label entry.1, .directive (asciz entry.2)]) =
      before ++ .directive d :: after) :
    ∃ entry ∈ entries, d = asciz entry.2 ∧ ∃ earlier, before = earlier ++ [.label entry.1] := by
  induction entries generalizing before with
  | nil => exact absurd h.symm (append_ne_nil_of_right_ne_nil _ nofun)
  | cons entry entries ih =>
    cases before with
    | nil => cases (cons.inj h).1
    | cons first before =>
      obtain ⟨rfl, ht⟩ := cons.inj h
      cases before with
      | nil =>
        obtain ⟨hd, -⟩ := cons.inj ht
        exact ⟨entry, mem_cons_self, (Line.directive.inj hd).symm, [], rfl⟩
      | cons second before =>
        obtain ⟨other, ho, hd, earlier, rfl⟩ := ih (cons.inj ht).2
        exact ⟨other, mem_cons_of_mem _ ho, hd, _ :: second :: earlier, rfl⟩

/-- The written form of any bytes is one string token of those bytes. So is the text of each `.asciz`
directive of a program: it stands behind the label of an entry of a table, and its bytes are that entry. -/
theorem asciz_reads_back (bs : Bytes) :
    (Lexer.ofString ("\"" ++ Escape.encode bs ++ "\"")).Yields [.str bs, .eof] ∧
      ∀ (p : Program) (lines : List Line), assembleLines p = .ok lines →
        ∃ code shared, emitRoutines p.routines {} = .ok (code, shared) ∧
          ∀ before text after, lines = before ++ .directive (".asciz " ++ text) :: after →
            ∃ stem items bytes, ∃ i : Nat, (stem, items) ∈ Data.textTables p shared.literals ∧
              items[i]? = some bytes ∧ before.getLast? = some (.label (stem ++ Numeral.decimal i)) ∧
              (Lexer.ofString text).Yields [.str bytes, .eof] := by
  refine ⟨Lexer.yields_quoted bs, fun p lines hlines => ?_⟩
  obtain ⟨⟨code, shared⟩, hcode, hlines⟩ := except_bind_eq_ok.mp hlines
  obtain rfl := Except.ok.inj hlines
  refine ⟨code, shared, hcode, fun before text after heq => ?_⟩
  -- no line before the tables is an `.asciz`, so the directive lies in the tables
  have hfront : ((.directive ".text" :: code ++ entryPoint p.units) ++
      Data.objects p shared.literals).any isText = false := by
    rw [List.any_append, List.any_append, List.any_cons, any_isText_emitRoutines hcode,
      any_isText_entryPoint, Data.any_isText_objects]
    decide
  have hmem : .directive (".asciz " ++ text) ∉
      (.directive ".text" :: code ++ entryPoint p.units) ++ Data.objects p shared.literals :=
    fun hmem => List.any_eq_false.mp hfront _ hmem (isText_asciz text)
  rw [Data.lines_eq, ← List.append_assoc] at heq
  obtain ⟨rest, hrest⟩ | ⟨before', rfl, hentries⟩ := eq_append_cons_cases heq
  · exact absurd (hrest ▸ List.mem_append_right _ List.mem_cons_self) hmem
  obtain ⟨entry, hentry, htext, earlier, rfl⟩ := eq_of_directive_mem hentries
  obtain ⟨stem, items, i, htable, hitem, hlabel⟩ := Data.mem_textEntries hentry
  have hquoted : text = Escape.quoted entry.2 := by
    rw [asciz, show ".asciz \"" = ".asciz " ++ "\"" from rfl, String.append_assoc, String.append_assoc] at htext
    rw [Escape.quoted, String.append_assoc]
    exact String.append_right_inj _ |>.mp htext
  refine ⟨stem, items, entry.2, i, htable, hitem, ?_, hquoted ▸ Lexer.yields_quoted entry.2⟩
  rw [hlabel, ← List.append_assoc, List.getLast?_concat]

end Garnet
