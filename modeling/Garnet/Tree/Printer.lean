import Garnet.Literal.Escape
import Garnet.Literal.Numeral
import Garnet.Source.Text
import Garnet.Tree.Basic

/-!
# The text of a tree

A node is written as a bracketed list that starts with its tag, a name with a colon in front, and a
symbol as a list of its own. A name that would not read back as one word is put between quotes.
-/

namespace Garnet

/-- Whether a name can be written behind a colon as it is: a word, with up to three marks around it
that show what kind of name it is. -/
def isPlainName (s : String) : Bool :=
  let body := s.toList.dropWhile (· == '@')
  let body := if body.head? == some '$' then body.drop 1 else body
  let body :=
    match body.getLast? with
    | some '?' | some '!' | some '=' => body.dropLast
    | _ => body
  s.length - body.length ≤ 3
    && body.head?.any (fun c => Text.isLetter c || c == '_')
    && body.all (fun c => Text.isLetterOrNumeral c || c == '_')

def symbolText (s : String) : String :=
  if isPlainName s then ":" ++ s else ":\"" ++ Escape.encode (utf8 s) ++ "\""

namespace Tree

mutual

def print : Tree → String
  | .absent => "nil"
  | .int n => Numeral.decimal n
  | .big s => s
  | .float s => s
  | .str bytes => "\"" ++ Escape.encode bytes ++ "\""
  | .sym s => "[:sym, " ++ symbolText s ++ "]"
  | .name s => symbolText s
  | .node tag _ _ children => "[:" ++ tag.text ++ printAll children ++ "]"

/-- The texts of a node's children, each behind a comma. -/
def printAll : List Tree → String
  | [] => ""
  | e :: es => ", " ++ print e ++ printAll es

end

end Tree

end Garnet
