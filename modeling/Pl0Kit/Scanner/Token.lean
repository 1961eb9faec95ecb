import Pl0Kit.Fault
import Pl0Kit.Regex.Parse

/-!
# Scanner rules

A rule gives a kind of token an expression.  Some rules carry a function that is called with each
token found; what it does is one of a few actions.
-/

namespace Pl0Kit.Scanner

structure Tok where
  kind : String
  value : Value
  line : Int
  pos : Int
  deriving Inhabited

def Tok.asValue (t : Tok) : Value := .token t.kind t.value t.line t.pos

/-- what a rule's function does with a token; most give it back or drop it -/
inductive TokenAction where
  | keep
  | drop
  | print
  /-- counts the newlines of the token, and drops it -/
  | dropLines
  /-- counts the newlines of the token, and keeps it -/
  | keepLines
  /-- counts one line, and keeps the token -/
  | keepLine
  | toInt
  | upper
  | retype (kind : String)
  | begin (state : String)
  | push (state : String)
  | pop
  /-- moves back some characters, and keeps the token -/
  | back (n : Int)
  /-- reports the first character, and moves on -/
  | skip (n : Int)
  /-- keeps the first character only, and moves on by one -/
  | char
  /-- as `char`, and the kind is that character -/
  | charKind
  deriving Inhabited, Repr

structure Function where
  name : String
  doc : Option String := none
  line : Int := 1
  file : String := "spec"
  /-- number of arguments -/
  args : Int := 1
  action : TokenAction := .keep
  deriving Inhabited, Repr

inductive Entry where
  | function (f : Function)
  | value (v : Value)
  deriving Inhabited

abbrev Spec := Ordered String Entry

namespace Spec

def ofList (es : List (String × Entry)) : Spec :=
  es.foldl (fun (s : Spec) e => Ordered.put s e.1 e.2) []

def sorted (s : Spec) : Spec := s.mergeSort fun a b => a.1 ≤ b.1

def value? (s : Spec) (n : String) : Option Value :=
  match Ordered.get? s n with
  | some (.value v) => some v
  | _ => none

end Spec

/-- what a group of a joined expression stands for -/
inductive Target where
  /-- tokens of a kind go to a function -/
  | call (rule : String) (f : Function) (kind : String)
  | plain (rule : String) (kind : String)
  /-- tokens are passed over -/
  | ignored (rule : String)
  deriving Inhabited

structure Joined where
  regex : Regex.Compiled
  text : String
  /-- by group number -/
  targets : List (Option Target)
  deriving Inhabited

end Pl0Kit.Scanner
