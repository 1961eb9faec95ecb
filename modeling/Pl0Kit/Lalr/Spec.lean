import Pl0Kit.Ordered
import Pl0Kit.Fault

/-!
# Parser specifications

A specification is a table of names: lists of tokens and precedences, a start symbol, functions that
carry rules in their documentation, and the function for syntax errors.  What a function does when
it is called is one of a few actions.
-/

namespace Pl0Kit.Lalr

inductive RuleAction where
  /-- the value is the rule's name followed by the values of its symbols -/
  | tree
  | nothing
  /-- the value of the first symbol -/
  | first
  /-- signals a syntax error -/
  | error
  /-- signals a syntax error if a symbol has the value `bad`, else makes a tree -/
  | errorIfBad
  /-- the lines and positions of all symbols -/
  | span
  /-- sets the line of the result, then makes a tree -/
  | setLine
  /-- the value below the rule's symbols on the stack -/
  | below
  /-- ends error recovery, then makes a tree -/
  | recovered
  /-- makes a tree and prints it -/
  | print
  deriving DecidableEq, Inhabited, Repr

/-- what the function for syntax errors does after reporting the token -/
inductive Recovery where
  | report
  | recovered
  /-- drops tokens up to one of a kind, which is the next lookahead -/
  | skipTo (kind : String)
  /-- drops all tokens and starts over -/
  | drain
  | restart
  deriving DecidableEq, Inhabited, Repr

structure Function where
  doc : Option String := none
  line : Int := 1
  file : String := "spec"
  /-- number of arguments -/
  args : Int := 1
  action : RuleAction := .tree
  recovery : Recovery := .report
  deriving Inhabited, Repr

inductive Entry where
  | function (f : Function)
  | value (v : Value)
  deriving Inhabited

namespace Entry

def value? : Entry → Option Value
  | function _ => none
  | value v => some v

def isSet : Entry → Bool
  | function _ => true
  | value v => v.truthy

end Entry

abbrev Spec := Ordered String Entry

/-- a specification from its names in the order given; a name given again keeps its place -/
def Spec.ofList (es : List (String × Entry)) : Spec :=
  es.foldl (fun (s : Spec) e => Ordered.put s e.1 e.2) []

def Spec.sorted (s : Spec) : Spec := s.mergeSort fun a b => a.1 ≤ b.1

end Pl0Kit.Lalr
