/-!
# Paths

Joining paths, the directory part of a path, and finding a file among files that are given by their
paths from one directory.
-/

namespace Pl0Kit.Preprocessor

/-- a path below a directory; a path from the root stays as it is -/
def joinPath (dir path : String) : String :=
  if path.startsWith "/" || dir.isEmpty then path
  else if dir.endsWith "/" then dir ++ path
  else dir ++ "/" ++ path

def dirName (path : String) : String :=
  let head := path.toList.reverse.dropWhile (· != '/')
  let bare := head.dropWhile (· == '/')
  String.ofList (if bare.isEmpty then head else bare).reverse

def isDirectory (files : List (String × String)) (dir : List String) : Bool :=
  dir.isEmpty || files.any fun f => ("/".intercalate dir ++ "/").toList.isPrefixOf f.1.toList

/-- follows the parts of a path from a directory, which is kept in reverse -/
def follow (files : List (String × String)) (at_ : List String) : List String → Option (List String)
  | [] => some at_
  | p :: ps =>
    if !isDirectory files at_.reverse then none
    else if p == "" || p == "." then follow files at_ ps
    else if p == ".." then
      match at_ with
      | [] => none
      | _ :: up => follow files up ps
    else follow files (p :: at_) ps

def readFile? (files : List (String × String)) (path : String) : Option String :=
  if path.isEmpty || path.startsWith "/" then none
  else
    match follow files [] (path.splitOn "/") with
    | some at_ => files.lookup ("/".intercalate at_.reverse)
    | none => none

end Pl0Kit.Preprocessor
