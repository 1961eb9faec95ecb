import Pl0Kit.Command
import Pl0Kit.Preprocessor.Run

/-!
# The command line

The first argument names a tool.  Tools for the dialects read the file that the second argument
names, `preprocess` reads a file and those it includes, and all others read standard input.
-/

namespace Pl0Kit.Main

def tools : List (String × Command) :=
  [("lexer", .lexer), ("parser", .parser), ("interpreter", .interpreter), ("compiler", .compiler),
    ("assembler", .assembler), ("machine", .machine), ("ansforth", .ansforth),
    ("retro11", .retro11), ("retro12", .retro12), ("parable", .parable)]

def usage : String :=
  "usage: pl0kit TOOL [FILE ...]\n" ++
    "tools: " ++ ", ".intercalate (tools.map Prod.fst) ++ ", preprocess\n"

def readsFile : Command → Bool
  | .retro11 => true
  | .retro12 => true
  | .parable => true
  | _ => false

/-- steps that a program may take -/
def budget : Nat := 1000000000000

partial def readAll (input : IO.FS.Stream) (text : String) : IO String := do
  let line ← input.getLine
  if line.isEmpty then return text
  readAll input (text ++ line)

def faultText (f : Fault) : String := f.message.getD "failed"

/-- prints what a tool printed; the status tells whether it failed -/
def finish (output : String) (fault : Option Fault) : IO UInt32 := do
  IO.print output
  match fault with
  | none => return 0
  | some f =>
    IO.eprintln (faultText f)
    return 1

def faultOf {α : Type} : Except Fault α → Option Fault
  | .ok _ => none
  | .error f => some f

def runTool (tool : Command) (files : List String) : IO UInt32 := do
  let source ← if readsFile tool then
      match files with
      | [] => pure none
      | f :: _ => do pure (some (← IO.FS.readFile f))
    else do pure (some (← readAll (← IO.getStdin) ""))
  let r := tool.run budget source
  finish r.output (faultOf r.outcome)

/-- preprocesses the first of some files; the others can be included -/
def preprocess (files : List String) : IO UInt32 := do
  match files with
  | [] =>
    IO.eprint usage
    return 2
  | file :: _ =>
    let texts ← files.mapM fun (f : String) => do pure (f, ← IO.FS.readFile f)
    let (r, s) := (Preprocessor.runFile budget "??? ?? ????" "??:??:??" file).run.run
      { reader := .ofRules, files := texts }
    finish s.output (faultOf r)

end Pl0Kit.Main

def main (args : List String) : IO UInt32 := do
  match args with
  | "preprocess" :: files => Pl0Kit.Main.preprocess files
  | name :: files =>
    match Pl0Kit.Main.tools.lookup name with
    | some tool => Pl0Kit.Main.runTool tool files
    | none =>
      IO.eprint Pl0Kit.Main.usage
      return 2
  | [] =>
    IO.eprint Pl0Kit.Main.usage
    return 2
