import Pl0Kit.Ast

/-!
# Fragments of the language

A fragment says which operators a program may use, and `Program.Within` that it uses no others, in
its own statement and in those of all procedures.  `Statement.calls` and `Statement.assigned` are
the names that a statement calls and assigns to.
-/

namespace Pl0Kit

/-! ## the smallest expressions -/

def justName (x : String) : Expr := .mk none (.mk (.name x) []) []

def justNumber (n : Nat) : Expr := .mk none (.mk (.number n) []) []

/-! ## operators -/

/-- which operators may be used; `odd` stands for tests of parity -/
structure Fragment where
  add : AddOp → Prop := fun _ => True
  mul : MulOp → Prop := fun _ => True
  rel : RelOp → Prop := fun _ => True
  odd : Prop := True

variable (F : Fragment)

mutual

/-- leading signs are free -/
def Expr.Within : Expr → Prop
  | .mk _ first rest => first.Within ∧ Expr.tailWithin rest

def Expr.tailWithin : List (AddOp × Term) → Prop
  | [] => True
  | (op, x) :: rest => F.add op ∧ x.Within ∧ Expr.tailWithin rest

def Term.Within : Term → Prop
  | .mk first rest => first.Within ∧ Term.tailWithin rest

def Term.tailWithin : List (MulOp × Factor) → Prop
  | [] => True
  | (op, x) :: rest => F.mul op ∧ x.Within ∧ Term.tailWithin rest

def Factor.Within : Factor → Prop
  | .name _ => True
  | .number _ => True
  | .paren e => e.Within

end

def Condition.Within : Condition → Prop
  | .odd e => F.odd ∧ e.Within F
  | .compare l op r => F.rel op ∧ l.Within F ∧ r.Within F

def Statement.Within : Statement → Prop
  | .assign _ e => e.Within F
  | .call _ => True
  | .block body => allWithin body
  | .ifThen c s => c.Within F ∧ s.Within
  | .whileDo c s => c.Within F ∧ s.Within
  | .print e => e.Within F
where
  allWithin : List Statement → Prop
    | [] => True
    | s :: ss => s.Within ∧ allWithin ss

mutual

def Block.Within : Block → Prop
  | .mk _ _ procs body => Block.procsWithin procs ∧ body.Within F

def Block.procsWithin : List (String × Block) → Prop
  | [] => True
  | (_, b) :: rest => b.Within ∧ Block.procsWithin rest

end

/-- a program that uses only operators of the fragment -/
def Program.Within (p : Program) : Prop := p.block.Within F

/-- everything but division -/
def Fragment.noDivision : Fragment where
  mul op := op = .times

/-- sums, products and comparisons of order -/
def Fragment.ordered : Fragment where
  add op := op = .plus
  mul op := op = .times
  rel op := op ≠ .e ∧ op ≠ .ne
  odd := False

/-! ## calls and assignments -/

/-- the names that are called in a statement -/
def Statement.calls : Statement → List String
  | .assign _ _ | .print _ => []
  | .call p => [p]
  | .block body => all body
  | .ifThen _ s | .whileDo _ s => s.calls
where
  all : List Statement → List String
    | [] => []
    | s :: ss => s.calls ++ all ss

/-- the names that a statement assigns to -/
def Statement.assigned : Statement → List String
  | .call _ | .print _ => []
  | .assign x _ => [x]
  | .block body => all body
  | .ifThen _ s | .whileDo _ s => s.assigned
where
  all : List Statement → List String
    | [] => []
    | s :: ss => s.assigned ++ all ss

end Pl0Kit
