import Pl0Kit.Lalr.Fault
import Pl0Kit.Text.Lines

/-!
# Rules as text

One rule a line: a name, a colon (`:` or `::=`) and symbols; a line that starts with a bar is
another right side for the name before it.
-/

namespace Pl0Kit.Lalr

structure RuleText where
  place : Place
  name : String
  syms : List String
  deriving Inhabited, Repr

/-- the rules in lines of text; `last` is the name that a bar continues, `line` the line before -/
def rulesOfLines (file : String) (line : Int) (last : Option String) :
    List String → Except BuildFault (List RuleText)
  | [] => .ok []
  | l :: ls =>
    let place : Place := ⟨file, line + 1⟩
    match Text.words l with
    | [] => rulesOfLines file (line + 1) last ls
    | w :: ws =>
      if w == "|" then
        match last with
        | none => .error (.ruleText place .misplacedBar)
        | some n => (rulesOfLines file (line + 1) last ls).map (⟨place, n, ws⟩ :: ·)
      else
        match ws with
        | [] => .error (.ruleText place (.badForm (String.ofList (Text.trim l.toList))))
        | colon :: syms =>
          if colon != ":" && colon != "::=" then .error (.ruleText place .noColon)
          else (rulesOfLines file (line + 1) (some w) ls).map (⟨place, w, syms⟩ :: ·)

def readRules (text file : String) (line : Int) : Except BuildFault (List RuleText) :=
  rulesOfLines file line none (Text.lines text)

end Pl0Kit.Lalr
