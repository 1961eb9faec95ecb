import Pl0Kit.Text.Chars

/-!
# Lines of source files

Which names the lines of a source file define, as far as one line can tell.
-/

namespace Pl0Kit.Text

def isNamePart (c : Char) : Bool := c.isAlphanum || c == '_'

def markedName? (mark : String) (cs : List Char) : Option (String × List Char) :=
  if mark.toList.isPrefixOf cs then
    some (String.ofList (cs.takeWhile isNamePart), cs.dropWhile isNamePart)
  else none

/-- the name of the function that a line defines, if it starts with `mark` -/
def functionIn? (mark : String) (line : List Char) : Option String :=
  match line.dropWhile isBlank with
  | 'd' :: 'e' :: 'f' :: rest =>
    if rest.head?.any isBlank then
      match markedName? mark (rest.dropWhile isBlank) with
      | some (name, '(' :: _) => some name
      | _ => none
    else none
  | _ => none

def assignedIn? (mark : String) (line : List Char) : Option String :=
  match markedName? mark (line.dropWhile isBlank) with
  | some (name, rest) => if (rest.dropWhile isBlank).head? == some '=' then some name else none
  | none => none

def isSourceFile (f : String) : Bool :=
  let base := (f.splitOn "/").getLast?.getD ""
  let name := base.toList.dropWhile (· == '.')
  ".py".toList.isSuffixOf name && name.length > 3

end Pl0Kit.Text
