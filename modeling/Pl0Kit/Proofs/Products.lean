import Mathlib.Data.List.Forall2
import Pl0Kit.Parse
import Pl0Kit.Proofs.Results

/-!
# Products

A term whose factors have integers as values has the product of the factors that are multiplied.  A
factor after a `/` is evaluated like the others, and has to have a value, but it does not count: the
evaluator knows division by another word than the one in the trees of programs.  So nothing is
divided, and no division by zero is found.
-/

namespace Pl0Kit

open Evaluator

theorem Term.resultFrom_int {ρ : String → Except Fault Value} {rest : List (MulOp × Factor)}
    {vs : List Int} (h : List.Forall₂ (fun x n => x.2.result ρ = .ok (.int n)) rest vs)
    (total : Int) : Term.resultFrom ρ (.int total) rest =
      .ok (.int ((rest.zip vs).foldl (fun total x => x.1.1.apply total x.2) total)) := by
  induction h generalizing total with
  | nil => rfl
  | @cons x n rest vs hx _ ih =>
    obtain ⟨op, y⟩ := x
    have hy : y.result ρ = .ok (.int n) := hx
    rw [Term.resultFrom, hy]
    show (op.result (.int total) (.int n) >>= fun a => Term.resultFrom ρ a rest) = _
    rw [MulOp.result_int]
    exact ih (op.apply total n)

theorem Term.result_int {ρ : String → Except Fault Value} {first : Factor}
    {rest : List (MulOp × Factor)} {v : Int} {vs : List Int} (hv : first.result ρ = .ok (.int v))
    (hvs : List.Forall₂ (fun x n => x.2.result ρ = .ok (.int n)) rest vs) :
    (Term.mk first rest).result ρ =
      .ok (.int ((rest.zip vs).foldl (fun total x => x.1.1.apply total x.2) v)) := by
  rw [Term.result, hv]
  exact Term.resultFrom_int hvs v

/-- **The value of a term.**  Where its factors have integers as values, the evaluator answers what
comes from the first one by multiplying with each factor after a `*`; a factor after a `/` changes
nothing. -/
theorem term_evaluates {s : Evaluator} {first : Factor} {rest : List (MulOp × Factor)} {v : Int}
    {vs : List Int} (hfirst : Evaluates s first.toValue (.int v))
    (hrest : List.Forall₂ (fun x n => Evaluates s x.2.toValue (.int n)) rest vs) :
    ∃ K, ∀ N, K ≤ N → run N (Term.mk first rest).toValue s =
      (.ok ({}, .int ((rest.zip vs).foldl (fun total x => x.1.1.apply total x.2) v)), s) := by
  have hv : first.result s.frames.value = .ok (.int v) :=
    (gives_factor first s.frames).evaluates_iff.1 hfirst
  have hvs : List.Forall₂ (fun x n => x.2.result s.frames.value = .ok (.int n)) rest vs :=
    hrest.imp fun x n h => (gives_factor x.2 s.frames).evaluates_iff.1 h
  have hgives := gives_term (.mk first rest) s.frames
  rw [Term.result_int hv hvs] at hgives
  obtain ⟨K, hK⟩ := hgives.enough
  refine ⟨K, fun N hN => ?_⟩
  cases hK N hN rfl with
  | answer h => exact h

/-- the variable `x` has the value 6 -/
def sixKnown : Evaluator where
  frames := [{ vars := [(.str "x", .int 6)] }]

/-- `x - 1` -/
def oneLess : Expr := .mk none (.mk (.name "x") []) [(.minus, .mk (.number 1) [])]

def laterFactors : List (MulOp × Factor) :=
  [(.times, .number 3), (.divide, .number 0), (.times, .paren oneLess)]

/-- `x * 3 / 0 * (x - 1)` is `6 * 3 * 5` -/
theorem mixedTerm_evaluates : ∃ K, ∀ N, K ≤ N →
    run N (Term.mk (.name "x") laterFactors).toValue sixKnown = (.ok ({}, .int 90), sixKnown) := by
  have hfirst : Evaluates sixKnown (Factor.name "x").toValue (.int 6) :=
    ⟨4, {}, sixKnown, by with_unfolding_all rfl⟩
  have hthree : Evaluates sixKnown (Factor.number 3).toValue (.int 3) :=
    ⟨4, {}, sixKnown, by with_unfolding_all rfl⟩
  have hzero : Evaluates sixKnown (Factor.number 0).toValue (.int 0) :=
    ⟨4, {}, sixKnown, by with_unfolding_all rfl⟩
  have hless : Evaluates sixKnown (Factor.paren oneLess).toValue (.int 5) :=
    ⟨12, {}, sixKnown, by with_unfolding_all rfl⟩
  have hlater : List.Forall₂ (fun x n => Evaluates sixKnown x.2.toValue (.int n)) laterFactors
      [3, 0, 5] := .cons hthree (.cons hzero (.cons hless .nil))
  exact term_evaluates hfirst hlater

/-- `7 / n` -/
def sevenBy (n : Nat) : Term := .mk (.number 7) [(.divide, .number n)]

/-- **Nothing is divided**: the evaluator answers 7 for `7 / 2`, which is 3, and for `7 / 0`, and
the program prints it. -/
theorem quotient_not_computed :
    (parseText "! 7 / 2 .").1 = .ok ⟨.mk none none [] (.print (.mk none (sevenBy 2) []))⟩ ∧
      Int.fdiv 7 2 = 3 ∧
      run 8 (sevenBy 2).toValue {} = (.ok ({}, .int 7), {}) ∧
      run 8 (sevenBy 0).toValue {} = (.ok ({}, .int 7), {}) ∧
      (run 40 (Program.mk (.mk none none [] (.print (.mk none (sevenBy 2) [])))).toValue {}).2.out =
        "7\n" := by
  refine ⟨?_, ?_, ?_, ?_, ?_⟩ <;> with_unfolding_all rfl

end Pl0Kit
