import Mathlib.Data.List.Forall2
import Pl0Kit.Parse
import Pl0Kit.Proofs.Results

/-!
# Sums

An expression whose terms have integers as values has their sum, from left to right, and a leading
sign acts on that whole sum (`expression_evaluates`).  So a leading minus turns every term around,
not the first one only, and the terms after the first one have to cancel out for this to make no
difference.
-/

namespace Pl0Kit

open Evaluator

/-- what becomes of `total` when the values `vs` of the terms `rest` are added to it or taken from
it, one after the other -/
def leftToRight (rest : List (AddOp × Term)) (vs : List Int) (total : Int) : Int :=
  (rest.zip vs).foldl (fun total x => x.1.1.apply total x.2) total

/-- later terms add the same to every total -/
theorem leftToRight_eq (rest : List (AddOp × Term)) (vs : List Int) (total : Int) :
    leftToRight rest vs total = total + leftToRight rest vs 0 := by
  have hfold : ∀ (xs : List ((AddOp × Term) × Int)) (total : Int),
      xs.foldl (fun total x => x.1.1.apply total x.2) total =
        total + xs.foldl (fun total x => x.1.1.apply total x.2) 0 := by
    intro xs
    induction xs with
    | nil => exact fun total => (Int.add_zero total).symm
    | cons x xs ih =>
      intro total
      have happly : x.1.1.apply total x.2 = total + x.1.1.apply 0 x.2 := by
        cases x.1.1 <;> simp only [AddOp.apply] <;> omega
      rw [List.foldl_cons, List.foldl_cons, ih, ih (x.1.1.apply 0 x.2), happly, Int.add_assoc]
  exact hfold _ total

/-- a sign in front of a sum and one in front of its first term -/
theorem signed_leftToRight (sign : Option AddOp) (rest : List (AddOp × Term)) (vs : List Int)
    (v : Int) : signed sign (leftToRight rest vs v) = leftToRight rest vs (signed sign v) ↔
      sign = some .minus → leftToRight rest vs 0 = 0 := by
  rw [leftToRight_eq rest vs v, leftToRight_eq rest vs (signed sign v)]
  rcases sign with _ | _ | _
  · exact ⟨nofun, fun _ => rfl⟩
  · exact ⟨nofun, fun _ => rfl⟩
  · simp only [signed, forall_const]
    omega

theorem Expr.resultFrom_int {ρ : String → Except Fault Value} {rest : List (AddOp × Term)}
    {vs : List Int} (h : List.Forall₂ (fun x n => x.2.result ρ = .ok (.int n)) rest vs)
    (total : Int) :
    Expr.resultFrom ρ (.int total) rest = .ok (.int (leftToRight rest vs total)) := by
  induction h generalizing total with
  | nil => rfl
  | @cons x n rest vs hx _ ih =>
    obtain ⟨op, y⟩ := x
    have hy : y.result ρ = .ok (.int n) := hx
    rw [Expr.resultFrom, hy]
    show (op.result (.int total) (.int n) >>= fun a => Expr.resultFrom ρ a rest) = _
    rw [AddOp.result_int]
    exact ih (op.apply total n)

theorem signResult_int (sign : Option AddOp) (n : Int) :
    signResult sign (.int n) = .ok (.int (signed sign n)) := by
  rcases sign with _ | _ | _ <;> rfl

theorem Expr.result_int {ρ : String → Except Fault Value} (sign : Option AddOp) {first : Term}
    {rest : List (AddOp × Term)} {v : Int} {vs : List Int} (hv : first.result ρ = .ok (.int v))
    (hvs : List.Forall₂ (fun x n => x.2.result ρ = .ok (.int n)) rest vs) :
    (Expr.mk sign first rest).result ρ = .ok (.int (signed sign (leftToRight rest vs v))) := by
  rw [Expr.result, hv]
  show (Expr.resultFrom ρ (.int v) rest >>= signResult sign) = _
  rw [Expr.resultFrom_int hvs v]
  exact signResult_int sign _

/-- **The value of an expression.**  Where its terms have integers as values, the evaluator answers
their sum, from left to right, with the leading sign put before the whole of it.  That is the sum
which starts from the first term with the sign exactly if the sign is no minus, or the terms after
the first one add up to zero. -/
theorem expression_evaluates {s : Evaluator} {sign : Option AddOp} {first : Term}
    {rest : List (AddOp × Term)} {v : Int} {vs : List Int}
    (hfirst : Evaluates s first.toValue (.int v))
    (hrest : List.Forall₂ (fun x n => Evaluates s x.2.toValue (.int n)) rest vs) :
    ∃ K a, (∀ N, K ≤ N → run N (Expr.mk sign first rest).toValue s = (.ok ({}, .int a), s)) ∧
      a = signed sign (leftToRight rest vs v) ∧
      (a = leftToRight rest vs (signed sign v) ↔ sign = some .minus →
        leftToRight rest vs 0 = 0) := by
  have hv : first.result s.frames.value = .ok (.int v) :=
    (gives_term first s.frames).evaluates_iff.1 hfirst
  have hvs : List.Forall₂ (fun x n => x.2.result s.frames.value = .ok (.int n)) rest vs :=
    hrest.imp fun x n h => (gives_term x.2 s.frames).evaluates_iff.1 h
  have hgives := gives_expr (.mk sign first rest) s.frames
  rw [Expr.result_int sign hv hvs] at hgives
  obtain ⟨K, hK⟩ := hgives.enough
  refine ⟨K, _, fun N hN => ?_, rfl, signed_leftToRight sign rest vs v⟩
  cases hK N hN rfl with
  | answer h => exact h

/-- the variable `y` has the value 5 -/
def fiveKnown : Evaluator where
  frames := [{ vars := [(.str "y", .int 5)] }]

/-- `+ (3 - y) - 1` -/
def laterTerms : List (AddOp × Term) :=
  [(.plus, .mk (.paren (.mk none (.mk (.number 3) []) [(.minus, .mk (.name "y") [])])) []),
    (.minus, .mk (.number 1) [])]

/-- `-y * 2 + (3 - y) - 1` is `-(10 - 2 - 1)`, and not `-10 - 2 - 1` -/
theorem negatedSum_evaluates : ∃ K a,
    (∀ N, K ≤ N →
      run N (Expr.mk (some .minus) (.mk (.name "y") [(.times, .number 2)]) laterTerms).toValue
      fiveKnown = (.ok ({}, .int a), fiveKnown)) ∧
      a = -7 ∧ a ≠ leftToRight laterTerms [-2, 1] (-10) := by
  have hfirst : Evaluates fiveKnown (Term.mk (.name "y") [(.times, .number 2)]).toValue (.int 10) :=
    ⟨12, {}, fiveKnown, by with_unfolding_all rfl⟩
  have hdifference : Evaluates fiveKnown
      (Term.mk (.paren (.mk none (.mk (.number 3) []) [(.minus, .mk (.name "y") [])])) []).toValue
      (.int (-2)) := ⟨16, {}, fiveKnown, by with_unfolding_all rfl⟩
  have hone : Evaluates fiveKnown (Term.mk (.number 1) []).toValue (.int 1) :=
    ⟨8, {}, fiveKnown, by with_unfolding_all rfl⟩
  have hlater : List.Forall₂ (fun x n => Evaluates fiveKnown x.2.toValue (.int n)) laterTerms
      [-2, 1] :=
    .cons hdifference (.cons hone .nil)
  obtain ⟨K, a, hrun, ha, hiff⟩ := @expression_evaluates _ (some .minus) _ _ _ _ hfirst hlater
  refine ⟨K, a, hrun, ha, fun hsame => ?_⟩
  have hcancel : leftToRight laterTerms [-2, 1] 0 = 0 := hiff.1 hsame rfl
  exact absurd hcancel (by decide)

/-- `-1 + 2` -/
def minusOnePlusTwo : Expr := .mk (some .minus) (.mk (.number 1) []) [(.plus, .mk (.number 2) [])]

/-- **A leading minus does not stay with the first term**: the evaluator answers -3 for `-1 + 2`,
where the first term with its sign and the second one make 1, and the program prints it. -/
theorem minus_negates_sum :
    (parseText "! -1 + 2 .").1 = .ok ⟨.mk none none [] (.print minusOnePlusTwo)⟩ ∧
      leftToRight [(.plus, .mk (.number 2) [])] [2] (signed (some .minus) 1) = 1 ∧
      run 12 minusOnePlusTwo.toValue {} = (.ok ({}, .int (-3)), {}) ∧
      (run 40 (Program.mk (.mk none none [] (.print minusOnePlusTwo))).toValue {}).2.out =
        "-3\n" := by
  refine ⟨?_, ?_, ?_, ?_⟩ <;> with_unfolding_all rfl

end Pl0Kit
