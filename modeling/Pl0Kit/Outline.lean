import Pl0Kit.Fault

/-!
# Outlines of trees

A tree is printed one node a line, indented by depth: a node without inner nodes as a whole, any
other node by its head with the rest one level deeper.  Nothing prints nothing.
-/

namespace Pl0Kit.Outline

/-- text printed so far survives a fault -/
abbrev Print (α : Type) := ExceptT Fault (StateM String) α

def line (depth : Int) (s : String) : Print Unit :=
  modify fun out => out ++ String.ofList (List.replicate (2 * depth.toNat) ' ') ++ s ++ "\n"

def isInner : Value → Bool
  | .list _ => true
  | .tuple _ => true
  | .dict _ => true
  | _ => false

/-- whether a tree has no inner nodes; `wrongType` for a value that has no items -/
def isFlat : Value → Except Fault Bool
  | .none => .ok false
  | .str _ => .ok true
  | .list xs => .ok (xs.all fun x => !isInner x)
  | .tuple xs => .ok (xs.all fun x => !isInner x)
  | .dict es => .ok (es.all fun e => !isInner e.1)
  | _ => .error .wrongType

mutual

def print (depth : Int) : Value → Print Unit
  | .none => pure ()
  | .list xs => printNode depth (.list xs) xs
  | .tuple xs => printNode depth (.tuple xs) xs
  | .dict es =>
    match isFlat (.dict es) with
    | .ok true => line depth (Value.dict es).text
    | _ => printEntries depth es
  | .str s => line depth s
  | _ => throw .wrongType

/-- prints the node `whole` with items `xs` -/
def printNode (depth : Int) (whole : Value) : List Value → Print Unit
  | [] => line depth whole.text
  | x :: xs =>
    match isFlat whole with
    | .ok true => line depth whole.text
    | _ => do
      print depth x
      printAll (depth + 1) xs

def printAll (depth : Int) : List Value → Print Unit
  | [] => pure ()
  | x :: xs => do
    print depth x
    printAll depth xs

def printEntries (depth : Int) : List (Value × Value) → Print Unit
  | [] => pure ()
  | (k, v) :: es => do
    line depth k.text
    print (depth + 1) v
    printEntries depth es

end

/-- the text printed for a tree at a depth, and the fault that cut it short -/
def render (v : Value) (depth : Int) : Except Fault Unit × String := (print depth v).run.run ""

end Pl0Kit.Outline
