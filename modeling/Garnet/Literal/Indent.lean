import Garnet.Source.Text

/-!
# Common indentation

A heredoc opened with `<<~` loses the indentation its lines share. Tabs reach to the next multiple
of eight columns and are never split; lines of white space only do not count towards what is shared.
-/

namespace Garnet

namespace Indent

/-- The lines of a text, each with the line end that closes it. -/
def lines : List Char → List (List Char)
  | [] => []
  | c :: cs =>
    if c == '\n' then [c] :: lines cs
    else match lines cs with
      | [] => [[c]]
      | l :: ls => (c :: l) :: ls

/-- The column behind a tab that starts at column `col`. -/
def tabStop (col : Nat) : Nat := (col / 8 + 1) * 8

/-- The column of the first character that is neither a blank nor a tab. -/
def width (col : Nat) : List Char → Nat
  | ' ' :: cs => width (col + 1) cs
  | '\t' :: cs => width (tabStop col) cs
  | _ => col

/-- The line without its first `least` columns of blanks and tabs. -/
def dropColumns (least col : Nat) : List Char → List Char
  | [] => []
  | c :: cs =>
    if least ≤ col then c :: cs
    else if c == ' ' then dropColumns least (col + 1) cs
    else if c == '\t' && tabStop col ≤ least then dropColumns least (tabStop col) cs
    else c :: cs

/-- The least indentation of a line that is not blank. -/
def common (ls : List (List Char)) : Nat :=
  let widths := (ls.filter fun l => !l.all Text.isWhite).map (width 0)
  widths.min?.getD 0

/-- The text without the indentation its lines share. -/
def strip (body : String) : String :=
  let ls := lines body.toList
  String.ofList (ls.flatMap (dropColumns (common ls) 0))

end Indent

end Garnet
