import Pl0Kit.Value

/-!
# Faults

Why reading, checking, translating or running a program stopped.  A fault is a cause; `message`
is the wording of those causes that have one.
-/

namespace Pl0Kit

inductive Fault where
  /-- the parser wanted one thing and met another token, or the end (`got` is `none`) -/
  | expected (source : Option String) (line pos : Int) (wanted : String)
      (got : Option (String × String))
  /-- a name that no frame knows -/
  | undefinedName (name : Value)
  /-- a name that stands for the wrong kind of thing -/
  | wrongKind (text : String)
  /-- an operator that evaluation does not know -/
  | unknownOperator (text : String)
  /-- a name missing from a symbol table that is part of the wording -/
  | notInScope (text : String)
  | missingKey (key : Value)
  | outOfRange
  | wrongType
  | noSuchField
  | badValue
  | divisionByZero
  | assertion
  /-- no further item -/
  | ended
  /-- a lexer was asked for tokens before it had a text -/
  | noInput
  /-- a text that is no expression -/
  | malformed
  | noSuchFile
  /-- nested too deeply -/
  | tooDeep
  /-- the step budget ran out -/
  | outOfFuel
  deriving Inhabited, Repr

namespace Fault

def expectedText (source : Option String) (line pos : Int) (wanted : String)
    (got : Option (String × String)) : String :=
  source.getD "None" ++ "[" ++ Text.intText line ++ ":" ++ Text.intText pos ++ "]: Expected " ++
    wanted ++ " but got " ++
    match got with
    | none => "none"
    | some (kind, value) => kind ++ " (" ++ value ++ ")"

/-- the wording of a fault, where it has one -/
def message : Fault → Option String
  | expected source line pos wanted got => some (expectedText source line pos wanted got)
  | undefinedName name => some ("Undefined name referenced: " ++ name.quoted)
  | wrongKind t => some t
  | unknownOperator t => some t
  | notInScope t => some t
  | missingKey k => some k.quoted
  | noInput => some "No input string given with input()"
  | _ => none

end Fault

end Pl0Kit
