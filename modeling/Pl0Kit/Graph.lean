import Pl0Kit.Site

/-!
# Graphs of trees

A tree is drawn as a graph: one line a node, with an edge from the node above.  Nodes are numbered
in the order in which they are met.  Terms are not drawn; what they hold hangs on the node above
them.
-/

namespace Pl0Kit.Graph

/-- a drawn node: its look, the node above it, and its own name -/
structure Line where
  shape : String
  label : String
  color : String
  parent : Option String
  name : String
  deriving DecidableEq, Inhabited, Repr

def Line.text (l : Line) : String :=
  "\tnode [shape=" ++ l.shape ++ ",label=\"" ++ l.label ++ "\",color=" ++ l.color ++ "]; " ++
    (match l.parent with
      | some p => p ++ " -> "
      | none => "") ++ l.name ++ ";\n"

def header : String :=
  "\ndigraph finite_state_machine \x7b\n\trankdir=TB;\n\tsize=\"8,5\"\n"

def footer : String := "\n\x7d\n"

structure Printer where
  /-- names of the nodes being drawn, the innermost first -/
  stack : List String := []
  /-- number of the next node -/
  next : Nat := 0
  /-- names of the nodes of the procedures met -/
  procedures : List (Value × String) := []
  /-- what is drawn of a graph that was begun and not finished -/
  drawn : Option (List Line) := none
  deriving Inhabited

abbrev GraphM (α : Type) := Act Printer α

def fetch (v : Value) (i : Nat) : GraphM Value :=
  match v with
  | .list xs | .tuple xs =>
    match xs[i]? with
    | some x => pure x
    | none => throw .outOfRange
  | .str t =>
    match t.toList[i]? with
    | some c => pure (.str (String.singleton c))
    | none => throw .outOfRange
  | .dict es =>
    match es.find? fun e => e.1.same (.int i) with
    | some e => pure e.2
    | none => throw (.missingKey (.int i))
  | _ => throw .wrongType

/-- starts on a node: gives it the next number -/
def enter (v : Value) : GraphM String := do
  let head ← fetch v 0
  let s ← get
  let name := head.text ++ "_" ++ toString s.next
  set { s with stack := name :: s.stack, next := s.next + 1 }
  pure name

def leave : GraphM Unit := modify fun s => { s with stack := s.stack.drop 1 }

/-- the node above the one just entered -/
def parent : GraphM String := do
  match (← get).stack with
  | _ :: p :: _ => pure p
  | _ => throw .outOfRange

def draw (l : Line) : GraphM Unit :=
  modify fun s => { s with drawn := some (s.drawn.getD [] ++ [l]) }

/-- the digits of a number -/
def digits (v : Value) : GraphM String :=
  match v with
  | .int n => pure (Text.intText n)
  | .bool b => pure (if b then "1" else "0")
  | _ => throw .wrongType

/-- enters a node, draws it below the node above with a label made from it, then does the rest -/
def node (shape color : String) (label : String → GraphM String) (v : Value)
    (inside : GraphM Unit) : GraphM Unit := do
  let name ← enter v
  let p ← parent
  let l ← label name
  draw ⟨shape, l, color, some p, name⟩
  inside
  leave

/-- the label of a constant: its name and number -/
def defineLabel (v : Value) : GraphM String :=
  match v with
  | .tuple [_, x, n] => do return x.text ++ " = " ++ (← digits n)
  | _ => throw .wrongType

/-- text put in for a single place of a pattern -/
def singleText : Value → GraphM String
  | .tuple [x] => pure x.text
  | .tuple _ => throw .wrongType
  | v => pure v.text

def procedureLabel (v : Value) (name : String) : GraphM String := do
  let x ← fetch v 1
  if !x.isKey then throw .wrongType
  modify fun s =>
    { s with procedures := (x, name) :: s.procedures.filter fun e => !e.1.same x }
  pure x.text

def callLabel (v : Value) : GraphM String := do
  let x ← fetch v 1
  if !x.isKey then throw .wrongType
  match (← get).procedures.find? fun e => e.1.same x with
  | none => throw (.missingKey x)
  | some _ => return "CALL |\x7b" ++ (← singleText x) ++ "\x7d"

/-- visits the nodes after the head -/
def below (v : Value) (parts : List (Spot Printer)) : GraphM Unit := do
  match v with
  | .list _ | .tuple _ | .str _ =>
    let _ ← visitNodes (parts.drop 1)
  | _ => throw .wrongType

def root (v : Value) (parts : List (Spot Printer)) : GraphM Unit := do
  let name ← enter v
  draw ⟨"doublecircle", (← fetch v 0).text, "green", none, name⟩
  below v parts
  leave

/-- the drawing of a node by its kind -/
def rule (kind : String) (v : Value) (parts : List (Spot Printer)) : GraphM Unit :=
  match kind with
  | "program" => root v parts
  | "define" => node "circle" "black" (fun _ => defineLabel v) v (below v parts)
  | "condition" =>
    node "diamond" "orange" (fun _ => do return (← fetch v 2).text) v (below v parts)
  | "name" => node "square" "blue" (fun _ => do return (← fetch v 1).text) v (pure ())
  | "number" => node "square" "blue" (fun _ => do digits (← fetch v 1)) v (pure ())
  | "procedure" => node "trapezium" "purple" (procedureLabel v) v (below v parts)
  | "expression" => node "circle" "blue" (fun _ => pure "EXPR") v (below v parts)
  | "call" => node "record" "purple" (fun _ => callLabel v) v (pure ())
  | "term" => below v parts
  | _ => node "circle" "black" (fun _ => do return (← fetch v 0).text) v (below v parts)

def visit (v : Value) (parts _keys : List (Spot Printer)) : GraphM Value :=
  match parts with
  | [] => throw .outOfRange
  | head :: _ =>
    match head.value with
    | .str s => do rule s.toLower v parts; pure .none
    | _ => throw .noSuchField

def Printer.text (lines : List Line) : String := header ++ String.join (lines.map Line.text)

/-- draws a tree; what is drawn stays unfinished on a fault -/
def drawTree (v : Value) (p : Printer) : Except Fault String × Printer :=
  let s := Site.survey visit v
  let r := (root v s.parts).run.run { p with drawn := some [] }
  match r with
  | (.ok _, q) => (.ok (Printer.text (q.drawn.getD []) ++ footer), { q with drawn := none })
  | (.error e, q) => (.error e, q)

/-- the text of an unfinished graph -/
def Printer.unfinished (p : Printer) : Option String := p.drawn.map Printer.text

end Pl0Kit.Graph
