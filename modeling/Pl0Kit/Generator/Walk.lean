import Pl0Kit.Generator.Event

/-!
# Walking a tree to generate code

One walk serves all targets.  Each declaration and each control structure takes fresh labels from
one counter; a block's names live in a frame while the block is walked.  Only the declarations of a
procedure's constants and variables are walked, not those of procedures inside it.

State is kept on a fault: frames opened so far stay open, and labels are not given back.
-/

namespace Pl0Kit.Generator

structure Gen where
  frames : Frames := []
  /-- number of labels made -/
  labels : Nat := 0
  events : List Event := []
  deriving Inhabited

abbrev GenM (α : Type) := Act Gen α

def emit (e : Event) : GenM Unit := modify fun g => { g with events := g.events ++ [e] }

def openFrame : GenM Unit := modify fun g => { g with frames := g.frames.push }

/-- closes the innermost frame -/
def closeFrame : GenM Frame := do
  let g ← get
  match g.frames with
  | [] => throw .outOfRange
  | f :: rest =>
    set { g with frames := rest }
    pure f

def lift {α : Type} (r : Except Fault α) : GenM α := ExceptT.mk (pure r)

def find (name : Value) : GenM (EntryKind × Value) := do
  let (kind, v, _) ← lift ((← get).frames.find name)
  pure (kind, v)

def modifyTop (f : Frame → Frame) : GenM Unit :=
  modify fun g => { g with frames := g.frames.modifyTop f }

/-- a label made from a hint and the next serial number -/
def newLabel (T : Target) (hint : String) : GenM String := do
  modify fun g => { g with labels := g.labels + 1 }
  pure (T.label hint (← get).labels)

/-- a value that must be a text -/
def textOf : Value → GenM String
  | .str s => pure s
  | _ => throw .wrongType

/-- a label as it is written: as a text, or, where a target is not strict, as the text of any
value -/
def labelText (strict : Bool) (v : Value) : GenM String := if strict then textOf v else pure v.text

def key (v : Value) : GenM Value := if v.isKey then pure v else throw .wrongType

def declareVariables (T : Target) : List (Spot Gen) → GenM Unit
  | [] => pure ()
  | v :: vs => do
    let x ← textOf (← v.item 1).value
    let label ← newLabel T (T.varHint ++ x)
    modifyTop (·.update (.str x) (.str label))
    emit (.cell label)
    declareVariables T vs

def declareConstants : List (Spot Gen) → GenM Unit
  | [] => pure ()
  | v :: vs => do
    let x ← v.item 1
    let c ← v.item 2
    let x ← key x.value
    modifyTop (·.define x c.value)
    declareConstants vs

def declareProcedures (T : Target) : List (Spot Gen) → GenM Unit
  | [] => pure ()
  | p :: ps => do
    let x ← textOf (← p.item 1).value
    let label ← newLabel T (T.procHint ++ x)
    modifyTop (·.declare (.str x) (.str label))
    openFrame
    emit (.procHead x)
    let _ ← visitAll (← (← p.item 2).slice 1 3)
    emit (.procOpen label)
    let _ ← (← (← p.item 2).item 4).act
    emit (.procClose label)
    let _ ← closeFrame
    declareProcedures T ps

def programRule (_ : Target) (args : List (Spot Gen)) : GenM Value := do
  emit .start
  let block ← argument args 1
  let _ ← visitAll (← block.slice 1 4)
  emit .mainOpen
  let _ ← (← block.item 4).act
  emit .mainClose
  pure .none

def whileRule (T : Target) (args : List (Spot Gen)) : GenM Value := do
  let top ← newLabel T "while_start"
  let bottom ← newLabel T "while_end"
  let c ← argument args 1
  let b ← argument args 2
  emit (.loopOpen top bottom)
  if T.testFirst then
    let _ ← c.act
    emit (.loopExit top bottom)
    let _ ← b.act
  else
    let _ ← b.act
    let _ ← c.act
  emit (.loopClose top bottom)
  pure .none

def ifRule (T : Target) (args : List (Spot Gen)) : GenM Value := do
  let label ← newLabel T "if_false"
  let c ← argument args 1
  let b ← argument args 2
  let _ ← c.act
  emit (.branch label)
  let _ ← b.act
  emit (.join label)
  pure .none

def oddRule (args : List (Spot Gen)) : GenM Value := do
  let r ← (← argument args 1).act
  emit .odd
  pure r

def conditionRule (T : Target) (args : List (Spot Gen)) : GenM Value := do
  let op ← argument args 2
  let l ← argument args 1
  let r ← argument args 3
  let _ ← l.act
  let _ ← r.act
  emit (.compare (← lift (T.relation op.value)))
  pure .none

def setRule (T : Target) (args : List (Spot Gen)) : GenM Value := do
  let target ← argument args 1
  let x ← target.item 1
  let _ ← (← argument args 2).act
  let (kind, v) ← find x.value
  if kind = .var then
    emit (.save (← labelText T.savesText v))
    pure .none
  else
    let name ← textOf x.value
    throw (.wrongKind ("Invalid assignment to non-variable " ++ name ++ " of type " ++ kind.word))

def callRule (args : List (Spot Gen)) : GenM Value := do
  let (kind, v) ← find (← argument args 1).value
  if kind = .proc then
    emit (.call (← textOf v))
    pure .none
  else throw (.wrongKind ("Expecting procedure but got: " ++ kind.word))

/-- the factors after the first -/
def factors : List (Spot Gen) → GenM Unit
  | [] => pure ()
  | t :: ts => do
    let _ ← (← t.item 1).act
    match (← t.item 0).value with
    | .str "TIMES" => emit .mul
    | .str "DIVIDES" => emit .div
    | _ => pure ()
    factors ts

def termRule (args : List (Spot Gen)) : GenM Value := do
  let _ ← (← argument args 1).act
  factors (args.drop 2)
  pure .none

/-- the terms after the first -/
def terms : List (Spot Gen) → GenM Unit
  | [] => pure ()
  | t :: ts => do
    let _ ← (← t.item 1).act
    match (← t.item 0).value with
    | .str "PLUS" => emit .add
    | .str "MINUS" => emit .sub
    | _ => pure ()
    terms ts

def expressionRule (args : List (Spot Gen)) : GenM Value := do
  let _ ← (← argument args 2).act
  terms (args.drop 3)
  match (← argument args 1).value with
  | .str "MINUS" => emit .negate
  | _ => pure ()
  pure .none

def printRule (args : List (Spot Gen)) : GenM Value := do
  let _ ← (← argument args 1).act
  emit .print
  pure .none

def numberRule (args : List (Spot Gen)) : GenM Value := do
  emit (.number (← argument args 1).value.quoted)
  pure .none

def nameRule (T : Target) (args : List (Spot Gen)) : GenM Value := do
  let x := (← argument args 1).value
  let (kind, v) ← find x
  match kind with
  | .var => emit (.load (← labelText T.loadsText v))
  | .const => emit (.constant v.text)
  | .proc =>
    let name ← textOf x
    throw (.wrongKind ("Invalid value name " ++ name ++ " of type " ++ kind.word))
  pure .none

def rules (T : Target) : Rules Gen
  | "variables" => some fun args => do declareVariables T (args.drop 1); pure .none
  | "constants" => some fun args => do declareConstants (args.drop 1); pure .none
  | "procedures" => some fun args => do declareProcedures T (args.drop 1); pure .none
  | "program" => some (programRule T)
  | "while" => some (whileRule T)
  | "if" => some (ifRule T)
  | "odd" => if T.hasOdd then some oddRule else none
  | "condition" => some (conditionRule T)
  | "set" => some (setRule T)
  | "call" => some callRule
  | "term" => some termRule
  | "expression" => some expressionRule
  | "print" => some printRule
  | "number" => some numberRule
  | "name" => some (nameRule T)
  | _ => none

/-- generates code for a tree in a frame of its own; answers that frame and the tree's value -/
def generate (T : Target) (v : Value) : GenM (Frame × Value) := do
  openFrame
  let r ← (rules T).run v
  let f ← closeFrame
  pure (f, r)

/-- the text of the events emitted -/
def render (T : Target) (events : List Event) : String := String.join (events.map T.text)

/-- generates code for one tree; answers the outcome, the text, and the generator without it -/
def translate (T : Target) (v : Value) (g : Gen) : Except Fault (Frame × Value) × String × Gen :=
  let r := (generate T v).run.run { g with events := [] }
  (r.1, render T r.2.events, { r.2 with events := [] })

end Pl0Kit.Generator
