import Pl0Kit.Proofs.Fragment
import Pl0Kit.Proofs.Semantics

/-!
# What the machine computes

The machine takes the top of the stack as the left operand of an operation, and code for a sum
leaves the later term on top.  So the machine computes another value than the expression denotes:
each term is the left operand, and what the sum has come to before is the right one.

* `Expr.computed ρ e`         the value that the machine computes;
* `Expr.computed_eq_denote`   it is the value of the expression, as long as nothing is subtracted.
-/

namespace Pl0Kit

/-! ## computed values -/

mutual

def Expr.computed (ρ : String → Int) : Expr → Int
  | .mk sign first rest => signed sign (Expr.computedFrom ρ (first.computed ρ) rest)

/-- a sum that has come to `total`; each further term is the left operand -/
def Expr.computedFrom (ρ : String → Int) (total : Int) : List (AddOp × Term) → Int
  | [] => total
  | (op, x) :: rest => Expr.computedFrom ρ (op.apply (x.computed ρ) total) rest

def Term.computed (ρ : String → Int) : Term → Int
  | .mk first rest => Term.computedFrom ρ (first.computed ρ) rest

def Term.computedFrom (ρ : String → Int) (total : Int) : List (MulOp × Factor) → Int
  | [] => total
  | (op, x) :: rest => Term.computedFrom ρ (op.apply total (x.computed ρ)) rest

def Factor.computed (ρ : String → Int) : Factor → Int
  | .name x => ρ x
  | .number n => n
  | .paren e => e.computed ρ

end

/-- everything but subtraction -/
def Fragment.noMinus : Fragment where
  add op := op = .plus

section NoMinus

variable {F : Fragment} (ρ : String → Int)

mutual

/-- what is computed is what is denoted, in a fragment without subtraction -/
theorem Expr.computed_eq_denote (hF : ∀ op, F.add op → op = .plus) : ∀ {e : Expr}, e.Within F →
    e.computed ρ = e.denote ρ
  | .mk _ _ _, h => by
    rw [Expr.computed, Expr.denote, Term.computed_eq_denote hF h.1, Expr.computedFrom_eq hF h.2]

theorem Expr.computedFrom_eq (hF : ∀ op, F.add op → op = .plus) : ∀ {rest : List (AddOp × Term)},
    Expr.tailWithin F rest → ∀ {total : Int},
      Expr.computedFrom ρ total rest = Expr.sumFrom ρ total rest
  | [], _, _ => rfl
  | (op, x) :: _, h, total => by
    have hsum : op.apply (x.computed ρ) total = op.apply total (x.denote ρ) := by
      rw [Term.computed_eq_denote hF h.2.1, hF op h.1]
      exact Int.add_comm _ _
    rw [Expr.computedFrom, Expr.sumFrom, hsum, Expr.computedFrom_eq hF h.2.2]

theorem Term.computed_eq_denote (hF : ∀ op, F.add op → op = .plus) : ∀ {x : Term}, x.Within F →
    x.computed ρ = x.denote ρ
  | .mk _ _, h => by
    rw [Term.computed, Term.denote, Factor.computed_eq_denote hF h.1, Term.computedFrom_eq hF h.2]

theorem Term.computedFrom_eq (hF : ∀ op, F.add op → op = .plus) : ∀ {rest : List (MulOp × Factor)},
    Term.tailWithin F rest → ∀ {total : Int},
      Term.computedFrom ρ total rest = Term.productFrom ρ total rest
  | [], _, _ => rfl
  | (_, _) :: _, h, _ => by
    rw [Term.computedFrom, Term.productFrom, Factor.computed_eq_denote hF h.2.1,
      Term.computedFrom_eq hF h.2.2]

theorem Factor.computed_eq_denote (hF : ∀ op, F.add op → op = .plus) : ∀ {x : Factor}, x.Within F →
    x.computed ρ = x.denote ρ
  | .name _, _ => rfl
  | .number _, _ => rfl
  | .paren _, h => Expr.computed_eq_denote hF h

end

end NoMinus

end Pl0Kit
