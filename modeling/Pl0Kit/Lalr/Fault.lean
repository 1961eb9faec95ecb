import Pl0Kit.Fault

/-!
# Faults of grammars and tables

Why a grammar was refused or its tables could not be made, and the wording of those faults.
-/

namespace Pl0Kit.Lalr

structure Place where
  file : String := ""
  line : Int := 0
  deriving DecidableEq, Inhabited, Repr

def Place.text (p : Place) : String := p.file ++ ":" ++ Text.intText p.line

inductive RuleFault where
  | nameIsToken (rule : String)
  | badName (rule : String)
  | longLiteral (literal rule : String)
  | badSymbol (symbol rule : String)
  | nothingAfterPrec
  | precNotLast
  | unknownPrec (term : String)
  | duplicate (rule : String) (first : Place)
  deriving Inhabited, Repr

def RuleFault.text : RuleFault → String
  | nameIsToken r => "Illegal rule name '" ++ r ++ "'. Already defined as a token"
  | badName r => "Illegal rule name '" ++ r ++ "'"
  | longLiteral l r =>
    "Literal token " ++ l ++ " in rule '" ++ r ++ "' may only be a single character"
  | badSymbol s r => "Illegal name '" ++ s ++ "' in rule '" ++ r ++ "'"
  | nothingAfterPrec => "Syntax error. Nothing follows %prec"
  | precNotLast => "Syntax error. %prec can only appear at the end of a grammar rule"
  | unknownPrec t => "Nothing known about the precedence of '" ++ t ++ "'"
  | duplicate r first => "Duplicate rule " ++ r ++ ". Previous definition at " ++ first.text

inductive RuleTextFault where
  | misplacedBar
  | noColon
  | badForm (line : String)
  deriving Inhabited, Repr

def RuleTextFault.text : RuleTextFault → String
  | misplacedBar => "Misplaced '|'"
  | noColon => "Syntax error. Expected ':'"
  | badForm l => "Syntax error in rule '" ++ l ++ "'"

inductive BuildFault where
  | rule (place : Place) (cause : RuleFault)
  | ruleText (place : Place) (cause : RuleTextFault)
  | precedenceTwice (term : String)
  | badAssociativity
  | undefinedStart (name : String)
  | unsupportedMethod (name : String)
  | unknownConflict (state : Nat)
  | shiftConflict (state : Nat)
  /-- problems that were logged one by one -/
  | unableToBuild
  /-- a symbol that a computed table does not have -/
  | missing
  | outOfRange
  | noSuchField
  | wrongType
  | badValue
  | assertion
  deriving Inhabited, Repr

def BuildFault.message : BuildFault → Option String
  | rule p c => some (p.text ++ ": " ++ c.text)
  | ruleText p c => some (p.text ++ ": " ++ c.text)
  | precedenceTwice t => some ("Precedence already specified for terminal '" ++ t ++ "'")
  | badAssociativity => some "Associativity must be one of 'left','right', or 'nonassoc'"
  | undefinedStart n => some ("start symbol " ++ n ++ " undefined")
  | unsupportedMethod m => some ("Unsupported method " ++ m)
  | unknownConflict st => some ("Unknown conflict in state " ++ toString st)
  | shiftConflict st => some ("Shift/shift conflict in state " ++ toString st)
  | unableToBuild => some "Unable to build parser"
  | _ => none

end Pl0Kit.Lalr
