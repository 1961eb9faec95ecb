import Pl0Kit.Parse
import Pl0Kit.Outline
import Pl0Kit.Eval
import Pl0Kit.Forth
import Pl0Kit.Graph
import Pl0Kit.Generator.Targets
import Pl0Kit.Machine.Listing

/-!
# Commands

What each tool does with a source text: the text it prints, and the fault that stopped it if one
did.  Tools that may not end take a budget of steps.
-/

namespace Pl0Kit

structure Printed (α : Type) where
  output : String
  outcome : Except Fault α
  deriving Inhabited

inductive Command where
  | lexer | parser | interpreter | compiler | assembler | machine | ansforth
  | retro11 | retro12 | parable
  deriving DecidableEq, Inhabited, Repr

namespace Command

def listTokens (source : String) : String :=
  String.join ((readText 1 source.toList).map fun r =>
    r.report ++ match r.token with
      | some t => t.listing ++ "\n"
      | none => "")

def withTree (source : String) (use : Value → String × Except Fault Unit) : Printed Unit :=
  match parseText source with
  | (.error e, c) => ⟨c.report, .error e⟩
  | (.ok p, c) =>
    let r := use p.toValue
    ⟨c.report ++ r.1, r.2⟩

def unit {α : Type} (r : Except Fault α) : Except Fault Unit := r.map fun _ => ()

def interpret (fuel : Nat) (v : Value) : String × Except Fault Unit :=
  match Evaluator.run fuel v {} with
  | (.ok (f, _), s) => (s.out ++ f.debug, .ok ())
  | (.error e, s) => (s.out, .error e)

def generate (T : Generator.Target) (v : Value) : String × Except Fault Unit :=
  let r := Generator.translate T v {}
  (r.2.1, unit r.1)

def translateForth (v : Value) : String × Except Fault Unit :=
  let r := Forth.translate v {}
  (r.2.1, unit r.1)

def outline (v : Value) : String × Except Fault Unit :=
  let r := Outline.render v 0
  (r.2, r.1)

def runListing (fuel : Nat) (source : String) : Printed Unit :=
  match Machine.readListing source with
  | .error e => ⟨"", .error e⟩
  | .ok code =>
    let r := ({ memory := code } : Machine.State).runFor fuel
    match r.outcome with
    | .ok _ => ⟨r.state.out ++ r.state.debug, .ok ()⟩
    | .error e => ⟨r.state.out, .error e⟩

def usage (language file : String) : String :=
  "PL/0 to " ++ language ++ " Transpiler\nUsage:\n    ./" ++ file ++ " input >output\n"

/-- Retro 12 code stands in a document, between fences.  The opening fence comes when the first
token has been read. -/
def generateFenced (source : String) : Printed Unit :=
  let start := ({} : Cursor).input source
  let head := start.report ++ "# Support_Code\n\n````\n"
  match (Parse.complete Parse.program).run.run { start with report := "" } with
  | (.error e, c) => ⟨head ++ c.report, .error e⟩
  | (.ok p, c) =>
    match generate Generator.retro12 p.toValue with
    | (t, .ok _) => ⟨head ++ c.report ++ t ++ "````\n", .ok ()⟩
    | (t, .error e) => ⟨head ++ c.report ++ t, .error e⟩

/-- runs a tool on a source; the dialects' tools read a file and may be run without one -/
def run (fuel : Nat) (tool : Command) (source : Option String) : Printed Unit :=
  let text := source.getD ""
  match tool with
  | lexer => ⟨listTokens text, .ok ()⟩
  | parser => withTree text outline
  | interpreter => withTree text (interpret fuel)
  | compiler => withTree text (generate Generator.assembly)
  | assembler => ⟨(Value.list (Machine.assemble text)).text ++ "\n", .ok ()⟩
  | machine => runListing fuel text
  | ansforth => withTree text translateForth
  | retro11 =>
    match source with
    | none => ⟨usage "Retro" "pl0-retro.py", .ok ()⟩
    | some t => withTree (Text.fileText t) (generate Generator.retro11)
  | parable =>
    match source with
    | none => ⟨usage "Parable" "pl0-parable.py", .ok ()⟩
    | some t => withTree (Text.fileText t) (generate Generator.parable)
  | retro12 =>
    match source with
    | none => ⟨usage "Retro" "pl0-retro.py", .ok ()⟩
    | some t => generateFenced (Text.fileText t)

/-- a program as it comes in: a text, or a tree that is taken as it is -/
inductive Given where
  | text (s : String)
  | tree (v : Value)

def Given.read : Given → Printed Value
  | text s =>
    let r := parseText s
    ⟨r.2.report, r.1.map Program.toValue⟩
  | tree v => ⟨"", .ok v⟩

structure Pipeline where
  code : List Value
  run : Machine.Run

/-- Compiles a program, assembles all the text printed on the way, and runs the code for at most so
many steps. -/
def pipeline (program : Given) (maxSteps : Nat) : Printed Pipeline :=
  let read := program.read
  match read.outcome with
  | .error e => ⟨read.output, .error e⟩
  | .ok v =>
    match generate Generator.assembly v with
    | (t, .error e) => ⟨read.output ++ t, .error e⟩
    | (t, .ok _) =>
      let text := read.output ++ t
      let code := Machine.assemble text
      ⟨text, .ok ⟨code, ({ memory := code } : Machine.State).runFor maxSteps⟩⟩

end Command

end Pl0Kit
