import Pl0Kit.Lalr.Sets

/-!
# Items

An item is a production with a dot that marks how much of its right side has been read.
-/

namespace Pl0Kit.Lalr

structure Item where
  number : Nat
  name : String
  syms : List String
  /-- symbols before the dot -/
  index : Nat
  deriving DecidableEq, Inhabited, Repr

namespace Item

def start (p : Production) : Item := ⟨p.number, p.name, p.syms, 0⟩

/-- two items of one table are the same if production and dot are -/
def key (i : Item) : Nat × Nat := (i.number, i.index)

def after? (i : Item) : Option String := i.syms[i.index]?

def advance (i : Item) : Item := { i with index := i.index + 1 }

def marked (i : Item) : List String := i.syms.take i.index ++ "." :: i.syms.drop i.index

def text (i : Item) : String := i.name ++ " -> " ++ Text.joinWith " " i.marked

/-- the symbol before the dot; at the start, the last one of the marked right side -/
def before (i : Item) : String :=
  let m := i.marked
  (m[if i.index == 0 then m.length - 1 else i.index - 1]?).getD "."

end Item

def Production.items (p : Production) : List Item :=
  (List.range (p.syms.length + 1)).map fun i => { Item.start p with index := i }

def Grammar.rulesAfter (g : Grammar) (i : Item) : List Production :=
  match i.after? with
  | some s => g.rulesFor s
  | none => []

/-- the items of all productions; there are none before a start symbol is set -/
def Grammar.items (g : Grammar) : Except BuildFault (List (List Item)) :=
  g.productions.mapM fun p? =>
    match p? with
    | some p => .ok p.items
    | none => .error .wrongType

end Pl0Kit.Lalr
