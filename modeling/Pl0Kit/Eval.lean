import Pl0Kit.Frame
import Pl0Kit.Value.Access

/-!
# Evaluation

Programs run on their trees.  Every evaluation of a node opens a frame and closes it again; names
are found in the frames that are open, so a procedure body sees its callers' names.  A procedure is
kept with its block.  Multiplication is by `TIMES` and floor division by `DIVIDES`; other words
between factors leave the product as it is.

Evaluation takes a budget of steps, since programs need not end.
-/

namespace Pl0Kit

/-- open frames and what was printed -/
structure Evaluator where
  frames : Frames := []
  out : String := ""
  deriving Inhabited

namespace Evaluator

abbrev Eval (α : Type) := Act Evaluator α

def openFrame : Eval Unit := modify fun s => { s with frames := s.frames.push }

/-- closes the innermost frame -/
def closeFrame : Eval Frame := do
  let s ← get
  match s.frames with
  | [] => throw .outOfRange
  | f :: rest =>
    set { s with frames := rest }
    pure f

def lift {α : Type} (r : Except Fault α) : Eval α := ExceptT.mk (pure r)

def find (name : Value) : Eval (EntryKind × Value × Nat) := do lift ((← get).frames.find name)

def modifyTop (g : Frame → Frame) : Eval Unit :=
  modify fun s => { s with frames := s.frames.modifyTop g }

/-- a value that can be a name -/
def key (v : Value) : Eval Value := if v.isKey then pure v else throw .wrongType

def arg (args : List Value) (i : Nat) : Eval Value :=
  match args[i]? with
  | some v => pure v
  | none => throw .outOfRange

def declareVariables : List Value → Eval Unit
  | [] => pure ()
  | v :: vs => do
    let x ← key (← lift (v.item 1))
    modifyTop (·.update x (.int 0))
    declareVariables vs

def declareConstants : List Value → Eval Unit
  | [] => pure ()
  | v :: vs => do
    let x ← lift (v.item 1)
    let c ← lift (v.item 2)
    let x ← key x
    modifyTop (·.define x c)
    declareConstants vs

def declareProcedures : List Value → Eval Unit
  | [] => pure ()
  | v :: vs => do
    let x ← lift (v.item 1)
    let b ← lift (v.item 2)
    let x ← key x
    modifyTop (·.declare x (.procedure x b))
    declareProcedures vs

/-- the truth of a comparison -/
def compareBy (op : Value) (l r : Value) : Eval Value := do
  match op with
  | .str "LT" => return .bool ((← lift (l.order r)) == .lt)
  | .str "LTE" => return .bool ((← lift (l.order r)) != .gt)
  | .str "GT" => return .bool ((← lift (l.order r)) == .gt)
  | .str "GTE" => return .bool ((← lift (l.order r)) != .lt)
  | .str "EQ" => return .bool (l.same r)
  | .str w => throw (.unknownOperator ("Unknown comparison operator " ++ w))
  | _ => throw .wrongType

/-- the effect of a factor after the first -/
def applyFactor (op total v : Value) : Eval Value :=
  match op with
  | .str "TIMES" => lift (total.mul v)
  | .str "DIVIDES" => lift (total.floorDiv v)
  | _ => pure total

/-- the effect of a term after the first -/
def applyTerm (op total v : Value) : Eval Value :=
  match op with
  | .str "PLUS" => lift (total.add v)
  | .str "MINUS" => lift (total.sub v)
  | _ => pure total

def printLine (v : Value) : Eval Unit :=
  modify fun s => { s with out := s.out ++ v.quoted ++ "\n" }

mutual

/-- evaluates a node in a frame of its own; answers that frame and the node's value -/
def evaluate : Nat → Value → Eval (Frame × Value)
  | 0, _ => throw .outOfFuel
  | n + 1, v => do
    openFrame
    let r ← visit n v
    let f ← closeFrame
    pure (f, r)

def visit : Nat → Value → Eval Value
  | 0, _ => throw .outOfFuel
  | n + 1, v =>
    match v with
    | .none => pure .none
    | .list xs | .tuple xs =>
      match xs with
      | [] => throw .outOfRange
      | .str tag :: _ => apply n tag.toLower xs
      | _ => throw .noSuchField
    | .str s => if s.isEmpty then throw .outOfRange else pure (.list [])
    | .dict es =>
      match Value.entry? 0 es with
      | some (.str tag) => apply n tag.toLower (es.map Prod.fst)
      | some _ => throw .noSuchField
      | none => throw (.missingKey (.int 0))
    | _ => throw .wrongType

/-- the rule for one kind of node, applied to the node's parts -/
def apply : Nat → String → List Value → Eval Value
  | 0, _, _ => throw .outOfFuel
  | n + 1, kind, args =>
    match kind with
    | "variables" => do declareVariables (args.drop 1); pure .none
    | "constants" => do declareConstants (args.drop 1); pure .none
    | "procedures" => do declareProcedures (args.drop 1); pure .none
    | "set" => do
      let x ← lift ((← arg args 1).item 1)
      let (_, r) ← evaluate n (← arg args 2)
      let (_, _, level) ← find x
      modify fun s => { s with frames := s.frames.modify (level - 1) (·.update x r) }
      pure .none
    | "while" => do
      let c ← arg args 1
      let b ← arg args 2
      loop n c b
      pure .none
    | "if" => do
      let c ← arg args 1
      let b ← arg args 2
      let (_, r) ← evaluate n c
      if r.truthy then
        let _ ← evaluate n b
      pure .none
    | "odd" =>
      match args with
      | [_, e] => do
        let (_, r) ← evaluate n e
        return .bool (← lift r.isOdd)
      | _ => throw .wrongType
    | "condition" => do
      let op ← arg args 2
      let (_, l) ← evaluate n (← arg args 1)
      let (_, r) ← evaluate n (← arg args 3)
      compareBy op l r
    | "number" => arg args 1
    | "name" => do
      let (_, v, _) ← find (← arg args 1)
      pure v
    | "call" => do
      let (kind, v, _) ← find (← arg args 1)
      match kind, v with
      | .proc, .procedure _ b =>
        let (_, r) ← evaluate n b
        pure r
      | .proc, _ => throw .noSuchField
      | _, _ => throw (.wrongKind ("Expecting procedure but got: " ++ kind.word))
    | "term" => do
      let (_, total) ← evaluate n (← arg args 1)
      factors n total (args.drop 2)
    | "expression" => do
      let (_, total) ← evaluate n (← arg args 2)
      let total ← terms n total (args.drop 3)
      match ← arg args 1 with
      | .str "MINUS" => lift (total.mul (.int (-1)))
      | _ => pure total
    | "print" => do
      let (_, r) ← evaluate n (← arg args 1)
      printLine r
      pure .none
    | _ => do
      let rs ← visitEach n (args.drop 1)
      pure (gather rs)

/-- the loop of a `while` -/
def loop : Nat → Value → Value → Eval Unit
  | 0, _, _ => throw .outOfFuel
  | n + 1, c, b => do
    let (_, r) ← evaluate n c
    if r.truthy then
      let _ ← evaluate n b
      loop n c b
    else pure ()

def factors : Nat → Value → List Value → Eval Value
  | 0, _, _ => throw .outOfFuel
  | _ + 1, total, [] => pure total
  | n + 1, total, t :: ts => do
    let (_, v) ← evaluate n (← lift (t.item 1))
    let total ← applyFactor (← lift (t.item 0)) total v
    factors n total ts

def terms : Nat → Value → List Value → Eval Value
  | 0, _, _ => throw .outOfFuel
  | _ + 1, total, [] => pure total
  | n + 1, total, t :: ts => do
    let (_, v) ← evaluate n (← lift (t.item 1))
    let total ← applyTerm (← lift (t.item 0)) total v
    terms n total ts

/-- the values of the nodes among the given parts -/
def visitEach : Nat → List Value → Eval (List Value)
  | 0, _ => throw .outOfFuel
  | _ + 1, [] => pure []
  | n + 1, v :: vs =>
    if v.isNode then do
      let r ← visit n v
      let rs ← visitEach n vs
      pure (r :: rs)
    else visitEach n vs

end

/-- evaluates a tree within a budget -/
def run (fuel : Nat) (v : Value) (s : Evaluator) : Except Fault (Frame × Value) × Evaluator :=
  (evaluate fuel v).run.run s

end Evaluator

end Pl0Kit
