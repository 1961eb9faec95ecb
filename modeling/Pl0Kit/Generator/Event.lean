import Pl0Kit.Frame

/-!
# Generated code

Code generators walk a tree and emit events: storage for a variable, the start of a procedure, a
jump out of a loop, an operation on the stack.  A target gives each event its text, spells labels,
and says which comparisons it knows and where a loop is tested.
-/

namespace Pl0Kit.Generator

inductive Event where
  | start
  | cell (label : String)
  | procHead (name : String)
  | procOpen (label : String)
  | procClose (label : String)
  | mainOpen
  | mainClose
  | loopOpen (top bottom : String)
  | loopExit (top bottom : String)
  | loopClose (top bottom : String)
  | branch (label : String)
  | join (label : String)
  | odd
  | compare (word : String)
  | save (label : String)
  | call (label : String)
  | mul
  | div
  | add
  | sub
  | negate
  | print
  | number (text : String)
  | load (label : String)
  | constant (text : String)
  deriving DecidableEq, Inhabited, Repr

structure Target where
  /-- a label made from a hint and a serial number -/
  label : String → Nat → String
  /-- what stands before a variable's name in its hint -/
  varHint : String
  /-- what stands before a procedure's name in its hint -/
  procHint : String
  /-- whether a loop is tested before its body -/
  testFirst : Bool
  /-- whether parity is tested by a word of the target -/
  hasOdd : Bool
  /-- whether assignments are written only with a label that is a text -/
  savesText : Bool
  /-- the same for variables that are read -/
  loadsText : Bool
  /-- the word for a comparison -/
  relation : Value → Except Fault String
  text : Event → String

/-- looks a comparison up among the words of a target -/
def relationIn (words : List (String × String)) (op : Value) : Except Fault String :=
  match op with
  | .str w =>
    match words.lookup w with
    | some t => .ok t
    | none => .error (.missingKey op)
  | v => if v.isKey then .error (.missingKey v) else .error .wrongType

end Pl0Kit.Generator
