import Pl0Kit.Text.Number

/-!
# Lines and words of a text

`lines` cuts at every line end and drops it, with a carriage return and line feed as one end;
`newlineLines` cuts after each newline and keeps it; `words` are the runs of non-blanks.
-/

namespace Pl0Kit.Text

/-- the lines of a text, `cur` holding the reversed start of the present one -/
def linesFrom (cur : List Char) : List Char → List (List Char)
  | [] => if cur.isEmpty then [] else [cur.reverse]
  | '\r' :: '\n' :: cs => cur.reverse :: linesFrom [] cs
  | c :: cs => if isLineEnd c then cur.reverse :: linesFrom [] cs else linesFrom (c :: cur) cs

def lines (s : String) : List String := (linesFrom [] s.toList).map String.ofList

def newlineLinesFrom (cur : List Char) : List Char → List (List Char)
  | [] => if cur.isEmpty then [] else [cur.reverse]
  | '\n' :: cs => ('\n' :: cur).reverse :: newlineLinesFrom [] cs
  | c :: cs => newlineLinesFrom (c :: cur) cs

def newlineLines (cs : List Char) : List (List Char) := newlineLinesFrom [] cs

def wordsFrom (cur : List Char) : List Char → List (List Char)
  | [] => if cur.isEmpty then [] else [cur.reverse]
  | c :: cs =>
    if isBlank c then
      if cur.isEmpty then wordsFrom [] cs else cur.reverse :: wordsFrom [] cs
    else wordsFrom (c :: cur) cs

def wordsOf (cs : List Char) : List (List Char) := wordsFrom [] cs

def words (s : String) : List String := (wordsOf s.toList).map String.ofList

/-- replaces carriage returns, alone or before a newline, by newlines -/
def unifyNewlines : List Char → List Char
  | '\r' :: '\n' :: cs => '\n' :: unifyNewlines cs
  | '\r' :: cs => '\n' :: unifyNewlines cs
  | c :: cs => c :: unifyNewlines cs
  | [] => []

def fileText (s : String) : String := String.ofList (unifyNewlines s.toList)

def padRight (width : Nat) (s : String) : String :=
  s ++ String.ofList (List.replicate (width - s.length) ' ')

def padLeft (width : Nat) (s : String) : String :=
  String.ofList (List.replicate (width - s.length) ' ') ++ s

def joinWith (sep : String) (parts : List String) : String := sep.intercalate parts

end Pl0Kit.Text
