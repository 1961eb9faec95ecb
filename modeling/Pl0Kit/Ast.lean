import Pl0Kit.Value

/-!
# PL/0 programs

The parts of a program as the grammar names them.  A constant part may be present and empty; a
variable part that is present has at least one name; an absent procedure part is an empty list.

`toValue` is the tree that the tools exchange: constants, variables, procedures, compound
statements, expressions and terms are lists, all other nodes are tuples.
-/

namespace Pl0Kit

inductive AddOp where
  | plus | minus
  deriving DecidableEq, Inhabited, Repr

inductive MulOp where
  | times | divide
  deriving DecidableEq, Inhabited, Repr

inductive RelOp where
  | lt | lte | gt | gte | e | ne
  deriving DecidableEq, Inhabited, Repr

mutual

inductive Expr where
  | mk (sign : Option AddOp) (first : Term) (rest : List (AddOp × Term))

inductive Term where
  | mk (first : Factor) (rest : List (MulOp × Factor))

inductive Factor where
  | name (x : String)
  | number (n : Nat)
  | paren (e : Expr)

end

inductive Condition where
  | odd (e : Expr)
  | compare (lhs : Expr) (op : RelOp) (rhs : Expr)

inductive Statement where
  | assign (x : String) (e : Expr)
  | call (p : String)
  | block (body : List Statement)
  | ifThen (c : Condition) (s : Statement)
  | whileDo (c : Condition) (s : Statement)
  | print (e : Expr)

inductive Block where
  | mk (consts : Option (List (String × Nat))) (vars : Option (List String))
      (procs : List (String × Block)) (body : Statement)

structure Program where
  block : Block

namespace AddOp

def word : AddOp → String
  | plus => "PLUS"
  | minus => "MINUS"

end AddOp

namespace MulOp

def word : MulOp → String
  | times => "TIMES"
  | divide => "DIVIDE"

end MulOp

namespace RelOp

def word : RelOp → String
  | lt => "LT" | lte => "LTE" | gt => "GT" | gte => "GTE" | e => "E" | ne => "NE"

end RelOp

/-- a use of a name, in expressions, declarations and assignments -/
def nameValue (x : String) : Value := .tuple [.str "NAME", .str x]

def signValue : Option AddOp → Value
  | some op => .str op.word
  | none => .none

mutual

def Expr.toValue : Expr → Value
  | .mk sign first rest =>
    .list (.str "EXPRESSION" :: signValue sign :: first.toValue :: Expr.tailValues rest)

def Expr.tailValues : List (AddOp × Term) → List Value
  | [] => []
  | (op, t) :: rest => .tuple [.str op.word, t.toValue] :: Expr.tailValues rest

def Term.toValue : Term → Value
  | .mk first rest => .list (.str "TERM" :: first.toValue :: Term.tailValues rest)

def Term.tailValues : List (MulOp × Factor) → List Value
  | [] => []
  | (op, f) :: rest => .tuple [.str op.word, f.toValue] :: Term.tailValues rest

def Factor.toValue : Factor → Value
  | .name x => nameValue x
  | .number n => .tuple [.str "NUMBER", .int n]
  | .paren e => e.toValue

end

def Condition.toValue : Condition → Value
  | .odd e => .tuple [.str "ODD", e.toValue]
  | .compare l op r => .tuple [.str "CONDITION", l.toValue, .str op.word, r.toValue]

def Statement.toValue : Statement → Value
  | .assign x e => .tuple [.str "SET", nameValue x, e.toValue]
  | .call p => .tuple [.str "CALL", .str p]
  | .block body => .list (.str "BEGIN" :: bodyValues body)
  | .ifThen c s => .tuple [.str "IF", c.toValue, s.toValue]
  | .whileDo c s => .tuple [.str "WHILE", c.toValue, s.toValue]
  | .print e => .tuple [.str "PRINT", e.toValue]
where
  bodyValues : List Statement → List Value
    | [] => []
    | s :: ss => s.toValue :: bodyValues ss

/-- one constant definition -/
def defineValue (d : String × Nat) : Value := .tuple [.str "DEFINE", .str d.1, .int d.2]

def constsValue : Option (List (String × Nat)) → Value
  | none => .none
  | some ds => .list (.str "CONSTANTS" :: ds.map defineValue)

def varsValue : Option (List String) → Value
  | none => .none
  | some xs => .list (.str "VARIABLES" :: xs.map nameValue)

/-- the procedure part: absent when no procedure is declared -/
def procsValue : List Value → Value
  | [] => .none
  | ps => .list (.str "PROCEDURES" :: ps)

mutual

def Block.toValue : Block → Value
  | .mk consts vars procs body =>
    .tuple [.str "BLOCK", constsValue consts, varsValue vars,
      procsValue (Block.procValues procs), body.toValue]

def Block.procValues : List (String × Block) → List Value
  | [] => []
  | (p, b) :: rest => .tuple [.str "PROCEDURE", .str p, b.toValue] :: Block.procValues rest

end

def Program.toValue (p : Program) : Value := .tuple [.str "PROGRAM", p.block.toValue]

end Pl0Kit
