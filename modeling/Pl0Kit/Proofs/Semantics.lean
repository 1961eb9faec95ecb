import Mathlib.Logic.Function.Basic
import Pl0Kit.Ast
import Pl0Kit.Ordered
import Pl0Kit.Text.Number

/-!
# Meaning of programs

What statements do to the values of variables and what they print, as a relation that does not speak
of frames or machines.  Names are resolved by a `Scope`: constants go before variables, and the
procedures are those of one block, without declarations of their own.

* `Expr.denote ρ e`       the value of an expression where names have the values `ρ`;
* `Condition.denote ρ c`  the truth of a condition;
* `Runs S s σ σ' out`     the statement `s` turns the store `σ` into `σ'` and prints `out`.
-/

namespace Pl0Kit

/-! ## expressions -/

def AddOp.apply : AddOp → Int → Int → Int
  | .plus, a, b => a + b
  | .minus, a, b => a - b

/-- a division leaves the product before it as it is -/
def MulOp.apply : MulOp → Int → Int → Int
  | .times, a, b => a * b
  | .divide, a, _ => a

/-- a leading sign, which acts on a whole sum -/
def signed : Option AddOp → Int → Int
  | some .minus, n => n * -1
  | _, n => n

mutual

def Expr.denote (ρ : String → Int) : Expr → Int
  | .mk sign first rest => signed sign (Expr.sumFrom ρ (first.denote ρ) rest)

/-- a sum that has come to `total` -/
def Expr.sumFrom (ρ : String → Int) (total : Int) : List (AddOp × Term) → Int
  | [] => total
  | (op, x) :: rest => Expr.sumFrom ρ (op.apply total (x.denote ρ)) rest

def Term.denote (ρ : String → Int) : Term → Int
  | .mk first rest => Term.productFrom ρ (first.denote ρ) rest

def Term.productFrom (ρ : String → Int) (total : Int) : List (MulOp × Factor) → Int
  | [] => total
  | (op, x) :: rest => Term.productFrom ρ (op.apply total (x.denote ρ)) rest

def Factor.denote (ρ : String → Int) : Factor → Int
  | .name x => ρ x
  | .number n => n
  | .paren e => e.denote ρ

end

def RelOp.denote : RelOp → Int → Int → Bool
  | .lt, a, b => a < b
  | .lte, a, b => a ≤ b
  | .gt, a, b => b < a
  | .gte, a, b => b ≤ a
  | .e, a, b => a = b
  | .ne, a, b => a ≠ b

def Condition.denote (ρ : String → Int) : Condition → Bool
  | .odd e => e.denote ρ % 2 ≠ 0
  | .compare l op r => op.denote (l.denote ρ) (r.denote ρ)

/-! ## statements -/

/-- what the names of a program stand for -/
structure Scope where
  const : String → Option Int
  vars : List String
  block : String → Option Block
  nodup : vars.Nodup

/-- values of variables -/
abbrev Store := String → Int

/-- the value of a name that is read -/
def Scope.value (S : Scope) (σ : Store) (x : String) : Int := (S.const x).getD (σ x)

/-- the value of a constant; later definitions of a name count -/
def constantOf (ds : List (String × Nat)) (x : String) : Option Int :=
  ds.foldl (fun r d => if x = d.1 then some (d.2 : Int) else r) none

theorem nodup_foldl_addNew (xs : List String) {ys : List String} (h : ys.Nodup) :
    (xs.foldl addNew ys).Nodup := by
  induction xs generalizing ys with
  | nil => exact h
  | cons x xs ih =>
    refine ih ?_
    rw [addNew]
    split
    · exact h
    · rename_i hx
      rw [List.contains_iff_mem] at hx
      exact List.nodup_append.2 ⟨h, List.pairwise_singleton _ _, fun y hy z hz =>
        List.mem_singleton.1 hz ▸ fun hyx => hx (hyx ▸ hy)⟩

namespace Block

def body : Block → Statement
  | .mk _ _ _ body => body

def procs : Block → List (String × Block)
  | .mk _ _ procs _ => procs

/-- the names that a block declares, in order -/
def names : Block → List String
  | .mk consts vars procs _ =>
    (consts.getD []).map Prod.fst ++ (vars.getD [] ++ procs.map Prod.fst)

/-- what the names that a block declares stand for -/
def scope : Block → Scope
  | .mk consts vars procs _ =>
    { const := constantOf (consts.getD [])
      vars := distinct (vars.getD [])
      block := fun p => procs.lookup p
      nodup := nodup_foldl_addNew _ List.nodup_nil }

/-- a block without declarations -/
def Bare : Block → Prop
  | .mk consts vars procs _ => consts.getD [] = [] ∧ vars.getD [] = [] ∧ procs = []

end Block

/-- a program whose procedures have different names and no declarations of their own -/
structure Program.Flat (p : Program) : Prop where
  nodup : (p.block.procs.map Prod.fst).Nodup
  bare : ∀ q ∈ p.block.procs, q.2.Bare

mutual

inductive Runs (S : Scope) : Statement → Store → Store → String → Prop
  | assign {x : String} {e : Expr} {σ : Store} :
      Runs S (.assign x e) σ (Function.update σ x (e.denote (S.value σ))) ""
  | call {p : String} {b : Block} {σ σ' : Store} {out : String} :
      S.block p = some b → Runs S b.body σ σ' out → Runs S (.call p) σ σ' out
  | block {ss : List Statement} {σ σ' : Store} {out : String} :
      RunsAll S ss σ σ' out → Runs S (.block ss) σ σ' out
  | ifTrue {c : Condition} {s : Statement} {σ σ' : Store} {out : String} :
      c.denote (S.value σ) = true → Runs S s σ σ' out → Runs S (.ifThen c s) σ σ' out
  | ifFalse {c : Condition} {s : Statement} {σ : Store} :
      c.denote (S.value σ) = false → Runs S (.ifThen c s) σ σ ""
  | whileTrue {c : Condition} {s : Statement} {σ σ₁ σ₂ : Store} {out₁ out₂ : String} :
      c.denote (S.value σ) = true → Runs S s σ σ₁ out₁ → Runs S (.whileDo c s) σ₁ σ₂ out₂ →
        Runs S (.whileDo c s) σ σ₂ (out₁ ++ out₂)
  | whileFalse {c : Condition} {s : Statement} {σ : Store} :
      c.denote (S.value σ) = false → Runs S (.whileDo c s) σ σ ""
  | print {e : Expr} {σ : Store} :
      Runs S (.print e) σ σ (Text.intText (e.denote (S.value σ)) ++ "\n")

inductive RunsAll (S : Scope) : List Statement → Store → Store → String → Prop
  | nil {σ : Store} : RunsAll S [] σ σ ""
  | cons {s : Statement} {ss : List Statement} {σ σ₁ σ₂ : Store} {out₁ out₂ : String} :
      Runs S s σ σ₁ out₁ → RunsAll S ss σ₁ σ₂ out₂ → RunsAll S (s :: ss) σ σ₂ (out₁ ++ out₂)

end

end Pl0Kit
