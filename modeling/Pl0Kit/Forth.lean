import Pl0Kit.Frame

/-!
# ANS Forth

A program becomes Forth words.  The words are put out in three ways: `say` leaves the next saying to
be set off by a blank, `put` writes as is, and `sayLine` ends the line.  Text that is put, and a
saying that ends in a line end, takes the pending blank away (`render`).

The table of names is one for the whole program: declarations of a procedure stay known after it.
-/

namespace Pl0Kit.Forth

inductive Emission where
  /-- text set off from the saying before it -/
  | say (text : String)
  /-- the same, ending the line -/
  | sayLine (text : String)
  /-- text as it is -/
  | put (text : String)
  deriving DecidableEq, Inhabited, Repr

/-- whether a saying leaves a blank pending: not if it ends in a blank other than a space -/
def leavesBlank (text : String) : Bool :=
  match text.toList.getLast? with
  | some c => c == ' ' || !Text.isBlank c
  | none => true

/-- the text of emissions, given whether a blank is pending -/
def render : Bool → List Emission → String
  | _, [] => ""
  | pending, .say t :: es => (if pending then " " else "") ++ t ++ render (leavesBlank t) es
  | pending, .sayLine t :: es => (if pending then " " else "") ++ t ++ "\n" ++ render false es
  | _, .put t :: es => t ++ render false es

structure Translator where
  /-- the next number is written with a minus sign -/
  negate : Bool := false
  /-- the word that follows a variable -/
  access : String := "@"
  /-- procedures being defined, the innermost first -/
  path : List Value := []
  /-- kind (1 variable, 2 constant) and value of each name -/
  names : Table := []
  /-- how often the table stands in the list of scopes -/
  scopes : Nat := 1
  emissions : List Emission := []
  deriving Inhabited

abbrev ForthM (α : Type) := Act Translator α

def emit (e : Emission) : ForthM Unit := modify fun s => { s with emissions := s.emissions ++ [e] }
def say (t : String) : ForthM Unit := emit (.say t)
def put (t : String) : ForthM Unit := emit (.put t)

def operators : List (String × String) :=
  [("DIVIDE", "/"), ("MODULO", "mod"), ("TIMES", "*"), ("PLUS", "+"), ("MINUS", "-")]

def relations : List (String × String) :=
  [("LT", "<"), ("LTE", "<="), ("GT", ">"), ("GTE", ">="), ("E", "="), ("NE", "<>")]

/-- the word under a key of a table of words -/
def wordFor (table : List (String × String)) (key : Value) : ForthM String :=
  match key with
  | .str w =>
    match table.lookup w with
    | some t => pure t
    | none => throw (.missingKey key)
  | v => if v.isKey then throw (.missingKey v) else throw .wrongType

def textOf : Value → ForthM String
  | .str s => pure s
  | _ => throw .wrongType

def variableKind : Value := .int 1
def constantKind : Value := .int 2

/-- names of the variables declared so far -/
def Translator.variableNames (s : Translator) : List Value :=
  (s.names.filter fun e =>
    match e.2 with
    | .tuple (k :: _) => k.same variableKind
    | _ => false).map Prod.fst

def Translator.scopeText (s : Translator) : String :=
  (Value.list (List.replicate s.scopes (.dict s.names))).quoted

def lookup (name : Value) : ForthM (Value × Value) := do
  let s ← get
  if !name.isKey then throw .wrongType
  match s.names.get? name with
  | some (.tuple [k, v]) => pure (k, v)
  | _ =>
    throw (.notInScope ("name not found: " ++ name.text ++ ". scope is " ++ s.scopeText))

def declare (name kind value : Value) : ForthM Unit := do
  if !name.isKey then throw .wrongType
  modify fun s => { s with names := s.names.put name (.tuple [kind, value]) }

def numberRule (v : Spot Translator) : ForthM Unit := do
  if (← get).negate then
    say ("-" ++ v.value.text)
    modify fun s => { s with negate := false }
  else
    put " "
    say v.value.text

/-- the factors after the first -/
def factors : List (Spot Translator) → ForthM Unit
  | [] => pure ()
  | f :: fs => do
    let (op, operand) ← f.pair
    let _ ← operand.act
    say (← wordFor operators op.value)
    factors fs

def terms : List (Spot Translator) → ForthM Unit
  | [] => pure ()
  | t :: ts => do
    match (← t.item 0).value with
    | .str "TERM" =>
      let _ ← t.act
    | _ =>
      let (op, term) ← t.pair
      let _ ← term.act
      say (← wordFor operators op.value)
    terms ts

/-- an expression; a minus sign before a single term goes into the term's first number if the term
starts with one, and is a multiplication otherwise -/
def expressionRule (sign : Spot Translator) (ts : List (Spot Translator)) : ForthM Unit := do
  match sign.value with
  | .str "MINUS" =>
    match ts with
    | [t] =>
      match (← (← t.item 1).item 0).value with
      | .str "NUMBER" =>
        modify fun s => { s with negate := true }
        terms ts
      | _ =>
        terms ts
        say "-1 *"
    | _ => throw .assertion
  | _ => terms ts

def nameRule (name : Spot Translator) : ForthM Unit := do
  let (kind, v) ← lookup name.value
  if kind.same constantKind then put (" " ++ v.text ++ " ")
  else
    put " "
    put (← textOf v)
    put " "
    put (← get).access
    put " "

def declareVariables : List (Spot Translator) → ForthM Unit
  | [] => pure ()
  | v :: vs => do
    let (_, name) ← v.pair
    let x ← textOf name.value
    say ("variable " ++ x ++ "\n")
    declare (.str x) variableKind (.str x)
    declareVariables vs

def setRule (name e : Spot Translator) : ForthM Unit := do
  let _ ← e.act
  modify fun s => { s with access := "!" }
  let _ ← name.act
  modify fun s => { s with access := "@" }

/-- the five parts of a block -/
def blockParts (b : Spot Translator) :
    ForthM (List (Spot Translator) × Spot Translator) := do
  match ← b.items with
  | [_, c, v, p, s] => pure ([c, v, p], s)
  | _ => throw .badValue

def programRule (b : Spot Translator) : ForthM Unit := do
  let (decls, stmt) ← blockParts b
  let _ ← visitAll decls
  put ": run "
  let _ ← stmt.act
  put " ;\n"
  emit (.sayLine "run\n")

def procedureRule (name b : Spot Translator) : ForthM Unit := do
  let (decls, stmt) ← blockParts b
  modify fun s => { s with path := name.value :: s.path, scopes := s.scopes + 1 }
  let _ ← visitAll decls
  put (": " ++ (← textOf name.value) ++ " ")
  let _ ← stmt.act
  put " ;\n"
  modify fun s => { s with path := s.path.drop 1, scopes := s.scopes - 1 }

/-- a call; inside the procedure called, variables are kept on the stack meanwhile -/
def callRule (name : Spot Translator) : ForthM Unit := do
  let s ← get
  if s.path.any (·.same name.value) then
    for x in s.variableNames do put (x.text ++ " @ ")
    say " recurse "
    for x in s.variableNames.reverse do put (x.text ++ " ! ")
  else say name.value.text

def printRule (e : Spot Translator) : ForthM Unit := do
  let _ ← e.act
  say " . "

def termRule : List (Spot Translator) → ForthM Unit
  | [] => throw .outOfRange
  | f :: fs => do
    let _ ← f.act
    factors fs

def defineRule (name v : Spot Translator) : ForthM Unit := declare name.value constantKind v.value

def oddRule (e : Spot Translator) : ForthM Unit := do
  let _ ← e.act
  say "2 mod 1 ="

def conditionRule (l op r : Spot Translator) : ForthM Unit := do
  let _ ← l.act
  let _ ← r.act
  put (" " ++ (← wordFor relations op.value) ++ " ")

def ifRule (c s : Spot Translator) : ForthM Unit := do
  let _ ← c.act
  put " if "
  let _ ← s.act
  put " then "

def whileRule (c s : Spot Translator) : ForthM Unit := do
  say " begin "
  let _ ← c.act
  say " while "
  let _ ← s.act
  say " repeat "

/-- a rule for nodes with exactly the given number of parts -/
def exactly (n : Nat) (rule : List (Spot Translator) → ForthM Unit) :
    Option (List (Spot Translator) → Act Translator Value) :=
  some fun args => do
    if args.length ≠ n then throw .wrongType
    rule args
    pure .none

def onePart (rule : Spot Translator → ForthM Unit) :
    Option (List (Spot Translator) → Act Translator Value) :=
  exactly 2 fun
    | [_, a] => rule a
    | _ => pure ()

def twoParts (rule : Spot Translator → Spot Translator → ForthM Unit) :
    Option (List (Spot Translator) → Act Translator Value) :=
  exactly 3 fun
    | [_, a, b] => rule a b
    | _ => pure ()

def threeParts (rule : Spot Translator → Spot Translator → Spot Translator → ForthM Unit) :
    Option (List (Spot Translator) → Act Translator Value) :=
  exactly 4 fun
    | [_, a, b, c] => rule a b c
    | _ => pure ()

def rules : Rules Translator
  | "number" => onePart numberRule
  | "print" => onePart printRule
  | "term" => some fun args => do termRule (args.drop 1); pure .none
  | "expression" => some fun
    | _ :: sign :: ts => do expressionRule sign ts; pure .none
    | _ => throw .wrongType
  | "define" => twoParts defineRule
  | "name" => onePart nameRule
  | "variables" => some fun args => do declareVariables (args.drop 1); pure .none
  | "set" => twoParts setRule
  | "odd" => onePart oddRule
  | "condition" => threeParts conditionRule
  | "if" => twoParts ifRule
  | "while" => twoParts whileRule
  | "program" => onePart programRule
  | "procedure" => twoParts procedureRule
  | "call" => onePart callRule
  | _ => none

/-- translates one tree; answers the outcome, the text, and the translator without it -/
def translate (v : Value) (s : Translator) : Except Fault Value × String × Translator :=
  let r := (rules.run v).run.run { s with emissions := [] }
  (r.1, render false r.2.emissions, { r.2 with emissions := [] })

end Pl0Kit.Forth
