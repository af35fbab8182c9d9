import Garnet.Proofs.Integer.Decimal
import Garnet.Proofs.Label.Role
import Garnet.Proofs.Literal.RoundTrip
import Garnet.Proofs.Tree.Everywhere
import Garnet.Tree.Printer

/-!
# Texts of trees are unambiguous

The text of a tree without children is a word, or a quotation behind a word; no character of a word ends
words. All other texts are lists in brackets that start with a word. So where a text ends does not depend on
what stands behind it, as long as that is a comma, a bracket or nothing, and a text belongs to one tree up to
identities and spans (`bare_eq_of_print`). Numerals of big integers and of floats are taken as they come, so
trees that hold any are left out.
-/

namespace Garnet

open List Escape Numeral

variable {s : String} {u v r r' : List Char}

namespace Tree

/-! ### Words and quotations -/

/-- A character that ends a word. -/
def isBreak (c : Char) : Bool := c = ',' || c = '[' || c = ']' || c = '"'

/-- What can stand behind the text of a tree. -/
def Ends (r : List Char) : Prop := ∀ c ∈ r.head?, c = ',' ∨ c = ']'

lemma Ends.isBreak (h : Ends r) : ∀ c ∈ r.head?, isBreak c := fun c hc => by
  rcases h c hc with rfl | rfl <;> rfl

lemma eq_of_words (hu : ∀ c ∈ u, ¬ isBreak c) (hv : ∀ c ∈ v, ¬ isBreak c) (hr : ∀ c ∈ r.head?, isBreak c)
    (hr' : ∀ c ∈ r'.head?, isBreak c) (h : u ++ r = v ++ r') : u = v ∧ r = r' := by
  induction u generalizing v with
  | nil =>
    cases v with
    | nil => exact ⟨rfl, h⟩
    | cons c v =>
      obtain rfl : r = c :: (v ++ r') := h
      exact absurd (hr c rfl) (hv c mem_cons_self)
  | cons c u ih =>
    rw [forall_mem_cons] at hu
    cases v with
    | nil =>
      obtain rfl : c :: (u ++ r) = r' := h
      exact absurd (hr' c rfl) hu.1
    | cons d v =>
      obtain ⟨rfl, htail⟩ := cons.inj h
      obtain ⟨rfl, hrest⟩ := ih hu.2 (forall_mem_cons.mp hv).2 htail
      exact ⟨rfl, hrest⟩

/-- Bytes between quotes end at the second quote. -/
lemma eq_of_quoted {bs bs' : Bytes} (h : bs.flatMap encodeByte ++ '"' :: r = bs'.flatMap encodeByte ++ '"' :: r') :
    bs = bs' ∧ r = r' := by
  have hbytes := congrArg (flatMap String.utf8EncodeChar) h
  rw [flatMap_append, flatMap_append, flatMap_assoc, flatMap_assoc, flatMap_cons, flatMap_cons] at hbytes
  have hfind := Quotation.find_flatMap writes_encodeByte bs 0 (r.flatMap String.utf8EncodeChar)
  have hfind' := Quotation.find_flatMap writes_encodeByte bs' 0 (r'.flatMap String.utf8EncodeChar)
  have hsame := hfind.symm.trans ((congrArg _ hbytes).trans hfind')
  simp only [Quotation.Found.closed.injEq, Nat.zero_add] at hsame
  have hread := congrArg (fun code => Scan.doubleQuoted code .origin (.ofString "")) (append_inj hbytes hsame).1
  simp only [Scan.doubleQuoted_flatMap writes_encodeByte] at hread
  injection hread with hread
  injection hread with hread
  subst hread
  exact ⟨rfl, (cons.inj (append_cancel_left h)).2⟩

/-! ### Trees without children -/

/-- A word, or a quotation. -/
def isAtom : Tree → Bool
  | .absent | .int _ | .str _ | .name _ => true
  | _ => false

/-- The word in front. -/
def word : Tree → List Char
  | .absent => ['n', 'i', 'l']
  | .int n => (decimal n).toList
  | .name s => ':' :: if isPlainName s then s.toList else []
  | _ => []

/-- What is between the quotes, if there are any. -/
def quoted? : Tree → Option Bytes
  | .str bs => some bs
  | .name s => if isPlainName s then none else some (utf8 s)
  | _ => none

/-- A quotation, if there is one. -/
def quotation : Option Bytes → List Char
  | some bs => '"' :: (bs.flatMap encodeByte ++ ['"'])
  | none => []

variable {e e' : Tree}

lemma toList_print_atom (h : e.isAtom) : e.print.toList = e.word ++ quotation e.quoted? := by
  cases e with
  | absent => rfl
  | int n => simp [print, word, quoted?, quotation]
  | str bs => simp [print, word, quoted?, quotation, Escape.encode]
  | name s =>
    rw [print, symbolText, word, quoted?]
    split <;> simp [quotation, Escape.encode]
  | _ => cases h

/-- The marks around a plain name are no breaks either. -/
lemma not_isBreak_of_isPlainName (h : isPlainName s) : ∀ c ∈ s.toList, ¬ isBreak c := by
  intro c hc hbreak
  have hmark (d : Char) (hd : d ∈ ['@', '$', '?', '!', '=']) : c ≠ d := by
    rintro rfl
    revert hbreak
    simp only [mem_cons, not_mem_nil, or_false] at hd
    rcases hd with rfl | rfl | rfl | rfl | rfl <;> decide
  have hletter : ¬ (Text.isLetterOrNumeral c || c == '_') := by
    simp only [isBreak, Bool.or_eq_true, decide_eq_true_eq] at hbreak
    rcases hbreak with ((rfl | rfl) | rfl) | rfl <;> decide
  simp only [isPlainName, Bool.and_eq_true] at h
  refine hletter (all_eq_true.mp h.2 c ?_)
  -- the character is in the body, behind each mark that is taken off
  have hbody : c ∈ s.toList.dropWhile (· == '@') := by
    rw [← takeWhile_append_dropWhile (p := (· == '@')) (l := s.toList), mem_append] at hc
    refine hc.resolve_left fun hc => hmark '@' (by simp) ?_
    exact beq_iff_eq.mp (mem_takeWhile_imp hc :)
  have hbody' : c ∈ if (s.toList.dropWhile (· == '@')).head? == some '$' then (s.toList.dropWhile (· == '@')).drop 1
      else s.toList.dropWhile (· == '@') := by
    split
    · rename_i hhead
      obtain ⟨l, hl⟩ := head?_eq_some_iff.mp (beq_iff_eq.mp hhead)
      rw [hl] at hbody ⊢
      exact (mem_cons.mp hbody).resolve_left (hmark '$' (by simp))
    · exact hbody
  have hlast {body : List Char} (d) (hd : d ∈ ['@', '$', '?', '!', '=']) (hbody : c ∈ body)
      (hl : body.getLast? = some d) : c ∈ body.dropLast := by
    obtain ⟨l, rfl⟩ := getLast?_eq_some_iff.mp hl
    rw [dropLast_concat]
    exact (mem_append.mp hbody).resolve_right fun hc => hmark d hd (mem_singleton.mp hc)
  split
  · exact hlast '?' (by simp) hbody' ‹_›
  · exact hlast '!' (by simp) hbody' ‹_›
  · exact hlast '=' (by simp) hbody' ‹_›
  · exact hbody'

lemma not_isBreak_word (h : e.isAtom) : ∀ c ∈ e.word, ¬ isBreak c := by
  cases e with
  | absent => simp [word, isBreak]
  | int n =>
    intro c hc hbreak
    have hdigit := Label.isDigit_or_minus_of_mem hc
    simp only [isBreak, Bool.or_eq_true, decide_eq_true_eq] at hbreak
    rcases hbreak with ((rfl | rfl) | rfl) | rfl <;> revert hdigit <;> decide
  | name s =>
    rw [word, forall_mem_cons]
    refine ⟨by decide, ?_⟩
    split
    · exact not_isBreak_of_isPlainName ‹_›
    · simp
  | str bs => simp [word]
  | _ => cases h

/-- The tree that a word and a quotation stand for. -/
def atomOf (w : List Char) : Option Bytes → Tree
  | some bs => if w = [] then .str bs else .name (Utf8.decode bs)
  | none =>
    if w.head? = some ':' then .name (String.ofList w.tail)
    else if w.head? = some 'n' then .absent
    else .int ((number? (String.ofList w)).getD 0)

lemma atomOf_word (h : e.isAtom) : atomOf e.word e.quoted? = e := by
  cases e with
  | absent => rfl
  | str bs => rfl
  | int n =>
    have hhead (c : Char) (hc : ¬ (c.isDigit ∨ c = '-')) : (decimal n).toList.head? ≠ some c :=
      fun h => hc (Label.isDigit_or_minus_of_mem (mem_of_head? h))
    change atomOf (decimal n).toList none = _
    rw [atomOf, if_neg (hhead ':' (by decide)), if_neg (hhead 'n' (by decide)), String.ofList_toList, number?_decimal]
    rfl
  | name s =>
    rw [word, quoted?]
    split
    · simp [atomOf]
    · simp [atomOf, Utf8.decode_utf8]
  | _ => cases h

lemma isBreak_quotation (q : Option Bytes) (hr : Ends r) : ∀ c ∈ (quotation q ++ r).head?, isBreak c := by
  cases q with
  | none => exact hr.isBreak
  | some bs =>
    rintro _ ⟨⟩
    rfl

/-- Where an atom ends does not depend on what stands behind it. -/
lemma eq_of_atoms (he : e.isAtom) (he' : e'.isAtom) (hr : Ends r) (hr' : Ends r')
    (h : e.print.toList ++ r = e'.print.toList ++ r') : e = e' ∧ r = r' := by
  rw [toList_print_atom he, toList_print_atom he', append_assoc, append_assoc] at h
  obtain ⟨hword, hrest⟩ := eq_of_words (not_isBreak_word he) (not_isBreak_word he') (isBreak_quotation _ hr)
    (isBreak_quotation _ hr') h
  have hquoted : e.quoted? = e'.quoted? ∧ r = r' := by
    cases hq : e.quoted? <;> cases hq' : e'.quoted? <;> rw [hq, hq'] at hrest
    · exact ⟨rfl, hrest⟩
    · obtain rfl : r = _ := hrest
      rcases hr '"' rfl with h | h <;> cases h
    · obtain rfl : _ = r' := hrest
      rcases hr' '"' rfl with h | h <;> cases h
    · simp only [quotation, cons_append, append_assoc, cons.injEq, true_and, nil_append] at hrest
      obtain ⟨rfl, hr⟩ := eq_of_quoted hrest
      exact ⟨rfl, hr⟩
  refine ⟨?_, hquoted.2⟩
  rw [← atomOf_word he, ← atomOf_word he', hword, hquoted.1]

lemma atom_ne_list (he : e.isAtom) (hr : Ends r) : e.print.toList ++ r ≠ '[' :: u := by
  intro h
  rw [toList_print_atom he, append_assoc] at h
  obtain ⟨-, hrest⟩ := eq_of_words (v := []) (not_isBreak_word he) nofun (isBreak_quotation _ hr)
    (fun _ hc => by cases hc; rfl) h
  cases hq : e.quoted? <;> rw [hq] at hrest
  · obtain rfl : r = _ := hrest
    rcases hr '[' rfl with h | h <;> cases h
  · cases hrest

/-! ### Lists -/

mutual

/-- The tree without identities and spans. -/
def bare : Tree → Tree
  | .node tag _ _ children => .node tag .zero 0 (bareAll children)
  | e => e

/-- The trees of a list without identities and spans. -/
def bareAll : List Tree → List Tree
  | [] => []
  | e :: es => bare e :: bareAll es

end

/-- No numeral of the tree is taken as it comes. -/
def IsExact (e : Tree) : Prop := ∀ d ∈ e.subtrees, ∀ s, d ≠ .big s ∧ d ≠ .float s

/-- The word that a list in brackets starts with, and its other members. -/
def list? : Tree → Option (List Char × List Tree)
  | .sym s => some ("sym".toList, [.name s])
  | .node tag _ _ children => some (tag.text.toList, children)
  | _ => none

/-- The tree can be told from others by its text. -/
def Told (e : Tree) : Prop := ∀ ⦃e' : Tree⦄ ⦃r r' : List Char⦄, e'.IsExact → Ends r → Ends r' →
  e.print.toList ++ r = e'.print.toList ++ r' → e.bare = e'.bare ∧ r = r'

variable {w w' : List Char} {cs cs' : List Tree}

lemma isAtom_of_isExact (h : e.IsExact) (hlist : e.list? = none) : e.isAtom := by
  have hself := h e (mem_subtrees_self e)
  cases e with
  | big s => exact absurd rfl (hself s).1
  | float s => exact absurd rfl (hself s).2
  | sym s => cases hlist
  | node tag span id children => cases hlist
  | _ => rfl

lemma toList_print_list (h : e.list? = some (w, cs)) :
    e.print.toList = '[' :: ':' :: (w ++ ((printAll cs).toList ++ [']'])) := by
  cases e with
  | sym s =>
    cases h
    simp [print, printAll]
  | node tag span id children =>
    cases h
    simp [print]
  | _ => cases h

lemma not_isBreak_head (h : e.list? = some (w, cs)) : ∀ c ∈ w, ¬ isBreak c := by
  have hall (tag : Tag) : (tag.text.toList.all fun c => !isBreak c) = true := by cases tag <;> rfl
  cases e with
  | sym s =>
    cases h
    simp [isBreak]
  | node tag span id children =>
    cases h
    simpa using hall tag
  | _ => cases h

lemma printAll_ends (cs : List Tree) (r : List Char) : Ends ((printAll cs).toList ++ ']' :: r) := by
  cases cs with
  | nil =>
    rintro _ ⟨⟩
    exact .inr rfl
  | cons e es =>
    intro c hc
    simp [printAll] at hc
    exact .inl hc.symm

/-- The members of a list can be told from those of another one. -/
lemma eq_of_printAll (hcs : ∀ c ∈ cs, c.Told) (hcs' : ∀ c ∈ cs', c.IsExact)
    (h : (printAll cs).toList ++ ']' :: r = (printAll cs').toList ++ ']' :: r') : bareAll cs = bareAll cs' ∧ r = r' := by
  induction cs generalizing cs' with
  | nil =>
    cases cs' with
    | nil => exact ⟨rfl, (cons.inj h).2⟩
    | cons e' es' => simp [printAll] at h
  | cons e es ih =>
    cases cs' with
    | nil => simp [printAll] at h
    | cons e' es' =>
      rw [forall_mem_cons] at hcs hcs'
      simp only [printAll, String.toList_append, append_assoc] at h
      obtain ⟨he, hrest⟩ := hcs.1 hcs'.1 (printAll_ends es r) (printAll_ends es' r') (append_cancel_left h)
      obtain ⟨hes, hr⟩ := ih hcs.2 hcs'.2 hrest
      exact ⟨by rw [bareAll, bareAll, he, hes], hr⟩

lemma isExact_of_list (he : e.IsExact) (h : e.list? = some (w, cs)) : ∀ c ∈ cs, c.IsExact := by
  cases e with
  | sym s =>
    cases h
    simp [IsExact, subtrees]
  | node tag span id children =>
    cases h
    exact fun c hc d hd => he d (mem_subtrees_node (n := ⟨tag, span, id, cs⟩).mpr (.inr ⟨c, hc, hd⟩))
  | _ => cases h

/-- The first word tells symbols and the tags of nodes apart. -/
lemma bare_of_list (h : e.list? = some (w, cs)) (h' : e'.list? = some (w, cs')) (hcs : bareAll cs = bareAll cs') :
    e.bare = e'.bare := by
  have htag (tag : Tag) : Tag.ofText? tag.text = some tag := by cases tag <;> rfl
  have hsym (tag : Tag) : tag.text.toList ≠ "sym".toList := fun h => by
    cases (htag tag).symm.trans (congrArg _ (String.toList_injective h))
  cases e with
  | sym s =>
    cases h
    cases e' with
    | sym s' =>
      cases h'
      simpa [bareAll, bare] using hcs
    | node tag span id children =>
      simp only [list?, Option.some.injEq, Prod.mk.injEq] at h'
      exact absurd h'.1 (hsym tag)
    | _ => cases h'
  | node tag span id children =>
    cases h
    cases e' with
    | sym s' =>
      simp only [list?, Option.some.injEq, Prod.mk.injEq] at h'
      exact absurd h'.1.symm (hsym tag)
    | node tag' span' id' children' =>
      simp only [list?, Option.some.injEq, Prod.mk.injEq] at h'
      obtain ⟨hw, rfl⟩ := h'
      cases (htag tag').symm.trans ((congrArg _ (String.toList_injective hw)).trans (htag tag))
      rw [bare, bare, hcs]
    | _ => cases h'
  | _ => cases h

lemma told_of_isAtom (h : e.isAtom) : e.Told := by
  intro e' r r' he' hr hr' htext
  cases hlist : e'.list? with
  | none =>
    obtain ⟨rfl, hrest⟩ := eq_of_atoms h (isAtom_of_isExact he' hlist) hr hr' htext
    exact ⟨rfl, hrest⟩
  | some p =>
    rw [toList_print_list hlist] at htext
    exact absurd htext (atom_ne_list h hr)

lemma told_of_list (h : e.list? = some (w, cs)) (hcs : ∀ c ∈ cs, c.Told) : e.Told := by
  intro e' r r' he' hr hr' htext
  rw [toList_print_list h] at htext
  cases hlist : e'.list? with
  | none => exact absurd htext.symm (atom_ne_list (isAtom_of_isExact he' hlist) hr')
  | some p =>
    rw [toList_print_list hlist] at htext
    simp only [cons_append, append_assoc, cons.injEq, true_and, nil_append] at htext
    obtain ⟨hw, hrest⟩ := eq_of_words (not_isBreak_head h) (not_isBreak_head hlist) (printAll_ends _ _).isBreak
      (printAll_ends _ _).isBreak htext
    obtain ⟨hbare, hr⟩ := eq_of_printAll hcs (isExact_of_list he' hlist) hrest
    exact ⟨bare_of_list h (hw ▸ hlist) hbare, hr⟩

lemma told_of_isExact (h : e.IsExact) : e.Told := by
  induction e using induction_on_nodes with
  | leaf e he =>
    cases hlist : e.list? with
    | none => exact told_of_isAtom (isAtom_of_isExact h hlist)
    | some p =>
      refine told_of_list hlist fun c hc => ?_
      cases e <;> cases he <;> cases hlist
      exact told_of_isAtom (mem_singleton.mp hc ▸ rfl)
  | node n ih =>
    exact told_of_list (e := n.tree) rfl fun c hc => ih c hc (isExact_of_list h rfl c hc)

/-- A text belongs to one tree, up to identities and spans. -/
theorem bare_eq_of_print (he : e.IsExact) (he' : e'.IsExact) (h : e.print = e'.print) : e.bare = e'.bare := by
  have hend : Ends [] := nofun
  have htext : e.print.toList ++ [] = e'.print.toList ++ [] := by rw [h]
  exact (told_of_isExact he he' hend hend htext).1

theorem bare_eq_of_print_args :
    Tree.node .args .zero 1 [.name "a,b", .str [34, 93], .sym "=", .int (-1)] ≠
      .node .args .zero 2 [.name "a,b", .str [34, 93], .sym "=", .int (-1)] ∧
    (Tree.node .args .zero 1 [.name "a,b", .str [34, 93], .sym "=", .int (-1)]).bare =
      (Tree.node .args .zero 2 [.name "a,b", .str [34, 93], .sym "=", .int (-1)]).bare :=
  ⟨by simp, bare_eq_of_print (by simp [IsExact, subtrees, subtreesOf]) (by simp [IsExact, subtrees, subtreesOf]) rfl⟩

end Tree

end Garnet
