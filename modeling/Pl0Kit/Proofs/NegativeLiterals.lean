import Mathlib.Tactic.Ring
import Pl0Kit.Proofs.ForthSpacing

/-!
# Negative literals in Forth expressions

An expression with a minus sign before one term is written as the term and `-1 *`, but if the term
starts with a number, as the same words with the number negated.  The words are run on a stack
machine with division rounded down (`calculate`):

* `ExprText.computes`   the words of an expression compute its value (`exprValue`), or stop at a
                        divisor of zero;
* `multiply_neg`        the negated number has the effect of division rounded up, and the sign put
                        before the term;
* `negative_literal_rounds_up`   so the two ways agree exactly if the two roundings do.
-/

namespace Pl0Kit.Forth

open Act Generator Text

/-! ## a stack machine -/

/-- what is on the stack: a number, or the address of a variable -/
inductive Cell where
  | int (n : Int)
  | address (x : String)
  deriving DecidableEq, Repr

/-- division rounds down, and there is none by zero -/
def operation? : String → Option (Int → Int → Option Int)
  | "+" => some fun a b => some (a + b)
  | "-" => some fun a b => some (a - b)
  | "*" => some fun a b => some (a * b)
  | "/" => some fun a b => if b = 0 then none else some (a.fdiv b)
  | _ => none

/-- an operation on the second and the top -/
def binary (f : Int → Int → Option Int) : List Cell → Option (List Cell)
  | .int b :: .int a :: st => (f a b).map (.int · :: st)
  | _ => none

def fetch (ρ : String → Int) : List Cell → Option (List Cell)
  | .address x :: st => some (.int (ρ x) :: st)
  | _ => none

/-- one word, where the variables have the values `ρ` -/
def perform (ρ : String → Int) (st : List Cell) (w : String) : Option (List Cell) :=
  match literal? w with
  | some n => some (.int n :: st)
  | none =>
    match operation? w with
    | some f => binary f st
    | none => if w = "@" then fetch ρ st else some (.address w :: st)

def calculate (ρ : String → Int) (ws : List String) (st : List Cell) : Option (List Cell) :=
  ws.foldlM (perform ρ) st

variable {ρ : String → Int}

@[simp] theorem calculate_cons (w : String) (ws : List String) (st : List Cell) :
    calculate ρ (w :: ws) st = (perform ρ st w).bind (calculate ρ ws) := rfl

@[simp] theorem calculate_append (ws vs : List String) (st : List Cell) :
    calculate ρ (ws ++ vs) st = (calculate ρ ws st).bind (calculate ρ vs) := List.foldlM_append

theorem perform_literal {w : String} {n : Int} (h : literal? w = some n) (st : List Cell) :
    perform ρ st w = some (.int n :: st) := by
  rw [perform, h]

theorem operation?_identifier {x : String} (h : Identifier x) : operation? x = none := by
  obtain ⟨c, cs, hx, hc, -⟩ := h.start
  unfold operation?
  split
  case h_5 => rfl
  all_goals
    cases hx
    exact absurd hc (by decide)

/-- a name puts the address of its variable on the stack -/
theorem perform_identifier {x : String} (h : Identifier x) (st : List Cell) :
    perform ρ st x = some (.address x :: st) := by
  simp only [perform, literal?_identifier h, operation?_identifier h]
  rw [if_neg (h.ne_of_start (w := "@") rfl)]

/-! ## values -/

/-- a product goes on with further factors -/
def multiply (div : Int → Int → Int) : Int → List (MulOp × Int) → Option Int
  | a, [] => some a
  | a, (.times, b) :: bs => multiply div (a * b) bs
  | a, (.divide, b) :: bs => if b = 0 then none else multiply div (div a b) bs

/-- a sum goes on with further terms -/
def add : Int → List (AddOp × Int) → Int
  | a, [] => a
  | a, (.plus, b) :: bs => add (a + b) bs
  | a, (.minus, b) :: bs => add (a - b) bs

/-- the number that a name stands for -/
def nameValue? (L : Lexicon) (ρ : String → Int) (x : String) : Option Int :=
  (L.find? x).map fun
    | .const n => n
    | .var => ρ x

section Values

variable (L : Lexicon) (ρ : String → Int)

mutual

/-- the value of an expression as it is written, if no divisor is zero -/
def exprValue : Expr → Option Int
  | .mk (some .minus) (.mk (.number n) rest) _ => (factorValues rest).bind (multiply Int.fdiv (-n))
  | .mk (some .minus) first _ => (termValue first).map (-·)
  | .mk _ first rest => (termValue first).bind fun a => (termValues rest).map (add a)

def termValues : List (AddOp × Term) → Option (List (AddOp × Int))
  | [] => some []
  | (op, x) :: rest => (termValue x).bind fun b => (termValues rest).map ((op, b) :: ·)

def termValue : Term → Option Int
  | .mk first rest => (factorValue first).bind fun a =>
    (factorValues rest).bind (multiply Int.fdiv a)

def factorValues : List (MulOp × Factor) → Option (List (MulOp × Int))
  | [] => some []
  | (op, x) :: rest => (factorValue x).bind fun b => (factorValues rest).map ((op, b) :: ·)

def factorValue : Factor → Option Int
  | .name x => nameValue? L ρ x
  | .number n => some n
  | .paren e => exprValue e

end

theorem exprValue_plain {sign : Option AddOp} (h : sign ≠ some .minus) (first : Term)
    (rest : List (AddOp × Term)) : exprValue L ρ (.mk sign first rest) =
      (termValue L ρ first).bind fun a => (termValues L ρ rest).map (add a) := by
  rcases sign with _ | _ | _
  · simp [exprValue]
  · simp [exprValue]
  · exact absurd rfl h

theorem exprValue_negated {first : Factor} (h : ∀ n, first ≠ .number n)
    (rest : List (MulOp × Factor)) :
    exprValue L ρ (.mk (some .minus) (.mk first rest) []) =
      (termValue L ρ (.mk first rest)).map (-·) := by
  cases first with
  | number n => exact absurd rfl (h n)
  | name x => simp [exprValue]
  | paren e => simp [exprValue]

end Values

/-! ## the words of an expression compute its value -/

@[simp] theorem ownWords_append (es ds : List Emission) :
    ownWords (es ++ ds) = ownWords es ++ ownWords ds :=
  List.flatMap_append

@[simp] theorem ownWords_cons (e : Emission) (es : List Emission) :
    ownWords (e :: es) = words e.text ++ ownWords es := rfl

@[simp] theorem ownWords_nil : ownWords [] = [] := rfl

theorem words_constant (n : Nat) : words (" " ++ intText n ++ " ") = [intText n] := by
  have hblank : words " " = [] := rfl
  rw [words_append_starts _ rfl, words_append_ends rfl, (solid_nat n).words, hblank]
  rfl

theorem words_addWord (op : AddOp) : words (addWord op) = [addWord op] := by cases op <;> rfl
theorem words_mulWord (op : MulOp) : words (mulWord op) = [mulWord op] := by cases op <;> rfl

/-- an operator of sums -/
theorem perform_addWord (op : AddOp) (a b : Int) (st : List Cell) :
    perform ρ (.int b :: .int a :: st) (addWord op) = some (.int (add a [(op, b)]) :: st) := by
  have hliteral : literal? (addWord op) = none := by cases op <;> rfl
  rw [perform, hliteral]
  cases op <;> rfl

/-- an operator of products -/
theorem perform_mulWord (op : MulOp) (a b : Int) (st : List Cell) :
    perform ρ (.int b :: .int a :: st) (mulWord op) =
      (multiply Int.fdiv a [(op, b)]).map (.int · :: st) := by
  have hliteral : literal? (mulWord op) = none := by cases op <;> rfl
  rw [perform, hliteral]
  cases op with
  | times => rfl
  | divide => by_cases hb : b = 0 <;> simp [mulWord, operation?, binary, multiply, hb]

theorem add_cons (a : Int) (d : AddOp × Int) (bs : List (AddOp × Int)) :
    add a (d :: bs) = add (add a [d]) bs := by
  obtain ⟨op, b⟩ := d
  cases op <;> rfl

theorem multiply_cons (div : Int → Int → Int) (a : Int) (d : MulOp × Int)
    (bs : List (MulOp × Int)) :
    multiply div a (d :: bs) = (multiply div a [d]).bind fun k => multiply div k bs := by
  obtain ⟨op, b⟩ := d
  cases op with
  | times => rfl
  | divide => by_cases hb : b = 0 <;> simp [multiply, hb]

/-- a sign that is put after a term -/
theorem calculate_sign (a : Int) (st : List Cell) :
    calculate ρ ["-1", "*"] (.int a :: st) = some (.int (-a) :: st) := by
  have hliteral : literal? "-1" = some (-1) := rfl
  have htimes : perform ρ (.int (-1) :: .int a :: st) "*" = some (.int (a * -1) :: st) :=
    perform_mulWord .times a (-1) st
  rw [calculate_cons, perform_literal hliteral, Option.bind_some, calculate_cons, htimes,
    Int.mul_neg_one]
  rfl

variable {L : Lexicon}

theorem AccessText.computes (hL : L.Named) {x : String} {es : List Emission}
    (h : AccessText L x "@" es) (st : List Cell) :
    calculate ρ (ownWords es) st = (nameValue? L ρ x).map (.int · :: st) := by
  cases h with
  | @const n hx =>
    have hwords : ownWords [.put (" " ++ intText n ++ " ")] = [intText n] := by
      rw [ownWords, List.flatMap_singleton, Emission.text, words_constant]
    rw [hwords, nameValue?, hx, calculate_cons, perform_literal (literal?_nat n)]
    rfl
  | var hx =>
    have hid : Identifier x := hL x (Lexicon.mem_vars.2 hx)
    have hblank : words " " = [] := rfl
    have hat : words "@" = ["@"] := rfl
    have hwords : ownWords ([" ", x, " ", "@", " "].map .put) = [x, "@"] := by
      simp [Emission.text, hblank, hat, (Solid.ofIdentifier hid).words]
    have hfetch : perform ρ (.address x :: st) "@" = some (.int (ρ x) :: st) := by
      have hliteral : literal? "@" = none := rfl
      rw [perform, hliteral]
      rfl
    rw [hwords, nameValue?, hx, calculate_cons, perform_identifier hid, Option.bind_some,
      calculate_cons, hfetch]
    rfl

mutual

theorem ExprText.computes (hL : L.Named) :
    ∀ {e : Expr} {es : List Emission}, ExprText L e es →
    ∀ st, calculate ρ (ownWords es) st = (exprValue L ρ e).map (.int · :: st)
  | _, _, @ExprText.plain _ sign first rest es ds hsign hfirst hrest, st => by
    rw [ownWords_append, calculate_append, hfirst.computes hL st, exprValue_plain L ρ hsign]
    cases termValue L ρ first with
    | none => rfl
    | some a => exact hrest.computes hL a st
  | _, _, @ExprText.literal _ n rest es hrest, st => by
    rw [ownWords_cons, Emission.text, (solid_minus n).words, List.singleton_append, calculate_cons,
      perform_literal (literal?_minus n), exprValue]
    exact hrest.computes hL (-n) st
  | _, _, @ExprText.negated _ first rest es hfirst hterm, st => by
    have hwords : ownWords [.say "-1 *"] = ["-1", "*"] := rfl
    rw [ownWords_append, calculate_append, hterm.computes hL st,
      exprValue_negated L ρ hfirst, hwords]
    cases termValue L ρ (.mk first rest) with
    | none => rfl
    | some a => exact calculate_sign a st

theorem TermsText.computes (hL : L.Named) :
    ∀ {xs : List (AddOp × Term)} {es : List Emission}, TermsText L xs es →
    ∀ a st, calculate ρ (ownWords es) (.int a :: st) =
      ((termValues L ρ xs).map (add a)).map (.int · :: st)
  | _, _, .nil, a, st => rfl
  | _, _, @TermsText.cons _ op x rest es ds hx hrest, a, st => by
    rw [ownWords_append, ownWords_cons, calculate_append, hx.computes hL, termValues, Emission.text,
      words_addWord, List.singleton_append]
    cases termValue L ρ x with
    | none => rfl
    | some b =>
      rw [Option.map_some, Option.bind_some, calculate_cons, perform_addWord, Option.bind_some,
        hrest.computes hL]
      cases termValues L ρ rest with
      | none => rfl
      | some bs =>
        show some (Cell.int (add (add a [(op, b)]) bs) :: st) =
          some (.int (add a ((op, b) :: bs)) :: st)
        rw [add_cons a (op, b) bs]

theorem TermText.computes (hL : L.Named) :
    ∀ {x : Term} {es : List Emission}, TermText L x es →
    ∀ st, calculate ρ (ownWords es) st = (termValue L ρ x).map (.int · :: st)
  | _, _, @TermText.mk _ first rest es ds hfirst hrest, st => by
    rw [ownWords_append, calculate_append, hfirst.computes hL st, termValue]
    cases factorValue L ρ first with
    | none => rfl
    | some a => exact hrest.computes hL a st

theorem FactorsText.computes (hL : L.Named) : ∀ {xs : List (MulOp × Factor)} {es : List Emission},
    FactorsText L xs es → ∀ a st, calculate ρ (ownWords es) (.int a :: st) =
      ((factorValues L ρ xs).bind (multiply Int.fdiv a)).map (.int · :: st)
  | _, _, .nil, a, st => rfl
  | _, _, @FactorsText.cons _ op x rest es ds hx hrest, a, st => by
    rw [ownWords_append, ownWords_cons, calculate_append, hx.computes hL, factorValues,
      Emission.text, words_mulWord, List.singleton_append]
    cases factorValue L ρ x with
    | none => rfl
    | some b =>
      have hsteps := multiply_cons Int.fdiv a (op, b)
      rw [Option.map_some, Option.bind_some, calculate_cons, perform_mulWord, Option.bind_some]
      -- the division fails, or goes on with the next factors; these may fail too
      cases hstep : multiply Int.fdiv a [(op, b)] with
      | none =>
        cases factorValues L ρ rest with
        | none => rfl
        | some bs =>
          show none = (multiply Int.fdiv a ((op, b) :: bs)).map (Cell.int · :: st)
          rw [hsteps, hstep]
          rfl
      | some k =>
        rw [Option.map_some, Option.bind_some, hrest.computes hL]
        cases factorValues L ρ rest with
        | none => rfl
        | some bs =>
          show (multiply Int.fdiv k bs).map _ =
            (multiply Int.fdiv a ((op, b) :: bs)).map (Cell.int · :: st)
          rw [hsteps, hstep]
          rfl

theorem FactorText.computes (hL : L.Named) :
    ∀ {x : Factor} {es : List Emission}, FactorText L x es →
    ∀ st, calculate ρ (ownWords es) st = (factorValue L ρ x).map (.int · :: st)
  | _, _, .name h, st => h.computes hL st
  | _, _, @FactorText.number _ n, st => by
    have hblank : words " " = [] := rfl
    have hwords : ownWords [.put " ", .say (intText n)] = [intText n] := by
      simp [Emission.text, hblank, (solid_nat n).words]
    rw [hwords, calculate_cons, perform_literal (literal?_nat n)]
    rfl
  | _, _, .paren h, st => h.computes hL st

end

/-! ## texts that are written -/

/-- from a translator at `c`, the visit answers and emits `es` -/
def Returns {α : Type} (c : Context) (p : ForthM α) (es : List Emission) : Prop :=
  ∀ ⦃t⦄, At c t → ∃ v, exec p t = (.ok v, t.after es)

namespace Returns

variable {α β : Type} {c : Context} {p q : ForthM α} {f : α → ForthM β} {as bs : List Emission}

theorem bind (h : Returns c p as) (hf : ∀ a, Returns c (f a) bs) :
    Returns c (p >>= f) (as ++ bs) := by
  intro t hat
  obtain ⟨a, ha⟩ := h hat
  obtain ⟨b, hb⟩ := hf a (hat.after as)
  exact ⟨b, by rw [exec_then ha, hb, after_after]⟩

theorem congr (h : Returns c q as) (heq : ∀ t, At c t → exec p t = exec q t) : Returns c p as := by
  intro t hat
  rw [heq t hat]
  exact h hat

theorem emit (e : Emission) : Returns c (Forth.emit e) [e] := fun t _ => ⟨(), exec_emit e t⟩

theorem nothing (a : α) : Returns c (pure a) [] := fun t _ => ⟨a, by rw [after_nil]; rfl⟩

theorem rule (h : Returns c p as) (b : β) : Returns c (p >>= fun _ => pure b) as := by
  have hend := h.bind fun _ => nothing b
  rwa [List.append_nil] at hend

end Returns

theorem returns_operator {c : Context} {op w : String} (h : operators.lookup op = some w) :
    Returns c (do say (← wordFor operators (.str op))) [.say w] := by
  refine (Returns.emit (.say w)).congr fun t _ => ?_
  rw [wordFor, h]
  rfl

theorem AccessText.returns {c : Context} {x : String} {es : List Emission}
    (h : AccessText c.names x "@" es) : Returns c (rules.run (nameValue x)) es := by
  intro t hat
  have hlook := exec_lookup_table hat.names x
  rw [run_name, nameRule, value_spot, bind_assoc]
  cases h with
  | const hx =>
    rw [hx] at hlook
    exact ⟨.none, by rw [exec_then hlook]; rfl⟩
  | var hx =>
    rw [hx] at hlook
    have hputs : t.after ([" ", x, " ", t.access, " "].map .put) =
        ((((t.after [.put " "]).after [.put x]).after
        [.put " "]).after [.put t.access]).after [.put " "] := by simp [Translator.after]
    rw [← hat.access, hputs]
    exact ⟨.none, by rw [exec_then hlook]; rfl⟩

variable {c : Context}

mutual

theorem ExprText.returns : ∀ {e : Expr} {es : List Emission}, ExprText c.names e es →
    Returns c (rules.run e.toValue) es
  | _, _, @ExprText.plain _ sign first rest es ds hsign hfirst hrest => by
    rw [run_expr]
    refine Returns.rule ?_ _
    rw [expressionRule_plain hsign]
    exact (hfirst.returns.bind fun _ => hrest.returns).congr fun t _ => exec_firstTerm first _ t
  | _, _, @ExprText.literal _ n rest es hrest => by
    rw [run_expr]
    refine Returns.rule ?_ _
    intro t hat
    obtain ⟨_, hfactors⟩ := hrest.returns (hat.after [.say ("-" ++ intText n)])
    -- the number takes the sign and gives the flag back
    rw [Expr.tailValues, List.map_singleton, exec_minusNumber, ← List.map_singleton, exec_firstTerm,
      run_term, bind_assoc, exec_then (exec_negative n t), (hat.after _).positive, bind_assoc,
      exec_then hfactors, after_after]
    exact ⟨(), rfl⟩
  | _, _, @ExprText.negated _ first rest es hfirst hterm => by
    rw [run_expr]
    refine Returns.rule ?_ _
    have hterms : Returns c (terms [rules.spot (Term.mk first rest).toValue]) es := by
      refine (hterm.returns.rule ⟨⟩).congr fun t _ => ?_
      rw [← List.map_singleton, exec_firstTerm]
      rfl
    exact (hterms.bind fun _ => .emit _).congr fun t _ => exec_minusOther hfirst rest t

theorem TermsText.returns :
    ∀ {xs : List (AddOp × Term)} {es : List Emission}, TermsText c.names xs es →
    Returns c (terms ((Expr.tailValues xs).map rules.spot)) es
  | _, _, .nil => .nothing ()
  | _, _, @TermsText.cons _ op x rest es ds hx hrest => by
    refine (hx.returns.bind fun _ => (returns_operator (lookup_addWord op)).bind fun _ =>
      hrest.returns).congr fun t _ => ?_
    rw [Expr.tailValues, exec_nextTerm]
    simp only [bind_assoc]

theorem TermText.returns : ∀ {x : Term} {es : List Emission}, TermText c.names x es →
    Returns c (rules.run x.toValue) es
  | _, _, @TermText.mk _ first rest es ds hfirst hrest => by
    rw [run_term]
    exact hfirst.returns.bind fun _ => hrest.returns.rule Value.none

theorem FactorsText.returns :
    ∀ {xs : List (MulOp × Factor)} {es : List Emission}, FactorsText c.names xs es →
    Returns c (factors ((Term.tailValues xs).map rules.spot)) es
  | _, _, .nil => .nothing ()
  | _, _, @FactorsText.cons _ op x rest es ds hx hrest => by
    refine (hx.returns.bind fun _ => (returns_operator (lookup_mulWord op)).bind fun _ =>
      hrest.returns).congr fun t _ => ?_
    rw [Term.tailValues, List.map_cons, factors, exec_pair]
    simp only [bind_assoc]
    rfl

theorem FactorText.returns : ∀ {x : Factor} {es : List Emission}, FactorText c.names x es →
    Returns c (rules.run x.toValue) es
  | _, _, .name h => h.returns
  | _, _, @FactorText.number _ n => by
    intro t hat
    rw [run_number, numberRule, bind_assoc, exec_then (exec_get t), hat.negate]
    exact ⟨.none, congrArg (Prod.mk _) (after_after t [.put " "] [.say (intText n)])⟩
  | _, _, .paren h => h.returns

end

/-! ## rounding -/

/-- division rounded up -/
def roundUp (a b : Int) : Int := -((-a).fdiv b)

theorem fmod_nonpos (a : Int) {b : Int} (hb : b < 0) : a.fmod b ≤ 0 := by
  have hneg := Int.fmod_nonneg_of_pos (-a) (Int.neg_pos_of_neg hb)
  rw [Int.neg_fmod_neg] at hneg
  omega

/-- the two roundings agree where nothing is left over -/
theorem roundUp_eq_fdiv_iff {a b : Int} (hb : b ≠ 0) : roundUp a b = a.fdiv b ↔ b ∣ a := by
  have hdown := Int.mul_fdiv_add_fmod a b
  have hup := Int.mul_fdiv_add_fmod (-a) b
  rw [roundUp]
  constructor
  · intro heq
    have hsum : a.fmod b + (-a).fmod b = 0 := by
      have hq : (-a).fdiv b = -(a.fdiv b) := by omega
      rw [hq, Int.mul_neg] at hup
      omega
    have hzero : a.fmod b = 0 := by
      rcases lt_or_gt_of_ne hb with hneg | hpos
      · have h₁ := fmod_nonpos a hneg
        have h₂ := fmod_nonpos (-a) hneg
        omega
      · have h₁ := Int.fmod_nonneg_of_pos a hpos
        have h₂ := Int.fmod_nonneg_of_pos (-a) hpos
        omega
    exact Int.dvd_of_fmod_eq_zero hzero
  · rintro ⟨k, rfl⟩
    rw [← Int.mul_neg, Int.mul_fdiv_cancel_left _ hb, Int.mul_fdiv_cancel_left _ hb, Int.neg_neg]

/-- **A negated number rounds the other way**: the product is that with division rounded up,
negated. -/
theorem multiply_neg (a : Int) (bs : List (MulOp × Int)) :
    multiply Int.fdiv (-a) bs = (multiply roundUp a bs).map (-·) := by
  induction bs generalizing a with
  | nil => rfl
  | cons d bs ih =>
    obtain ⟨op, b⟩ := d
    cases op with
    | times => rw [multiply, multiply, Int.neg_mul, ih]
    | divide =>
      have hround : (-a).fdiv b = -(roundUp a b) := (Int.neg_neg _).symm
      rw [multiply, multiply, hround, ih]
      split
      · rfl
      · rfl

/-- nothing is left over in any division of a product -/
def Exact : Int → List (MulOp × Int) → Prop
  | _, [] => True
  | a, (.times, b) :: bs => Exact (a * b) bs
  | a, (.divide, b) :: bs => b ∣ a ∧ Exact (a.fdiv b) bs

theorem multiply_exact {a : Int} {bs : List (MulOp × Int)} (h : Exact a bs) :
    multiply roundUp a bs = multiply Int.fdiv a bs := by
  induction bs generalizing a with
  | nil => rfl
  | cons d bs ih =>
    obtain ⟨op, b⟩ := d
    cases op with
    | times => exact ih h
    | divide =>
      rw [multiply, multiply]
      split
      · rfl
      · rename_i hb
        rw [(roundUp_eq_fdiv_iff hb).2 h.1]
        exact ih h.2

/-! ## the two ways to write a sign -/

/-- words of an expression are apart -/
theorem ExprText.words (hL : L.Named) {e : Expr} {es : List Emission} (h : ExprText L e es)
    (pending : Bool) : Text.words (render pending es) = ownWords es := by
  obtain ⟨_, hpiece⟩ := h.piece hL
  exact (words_render pending hpiece.filled).2 hpiece.joins

section Signs

variable {n : Nat} {rest : List (MulOp × Factor)} {es : List Emission}

/-- the expression without the sign is written too -/
theorem ExprText.unsigned (h : ExprText L (.mk (some .minus) (.mk (.number n) rest) []) es) :
    ∃ ds, ExprText L (.mk none (.mk (.number n) rest) []) ds := by
  cases h with
  | plain hsign _ _ => exact absurd rfl hsign
  | literal hrest => exact ⟨_, .plain (by decide) (.mk .number hrest) .nil⟩
  | negated hfirst _ => exact absurd rfl (hfirst n)

/-- the sign in the number -/
theorem ExprText.computes_literal (hL : L.Named)
    (h : ExprText L (.mk (some .minus) (.mk (.number n) rest) []) es) (st : List Cell) :
    calculate ρ (Text.words (render false es)) st =
      ((factorValues L ρ rest).bind (multiply roundUp n)).map (fun k => .int (-k) :: st) := by
  rw [h.words hL, h.computes hL, exprValue]
  cases factorValues L ρ rest with
  | none => rfl
  | some bs =>
    rw [Option.bind_some, Option.bind_some, multiply_neg, Option.map_map]
    rfl

/-- the sign after the product -/
theorem ExprText.computes_signed (hL : L.Named)
    (h : ExprText L (.mk none (.mk (.number n) rest) []) es) (st : List Cell) :
    calculate ρ (Text.words (render false es) ++ ["-1", "*"]) st =
      ((factorValues L ρ rest).bind (multiply Int.fdiv n)).map (fun k => .int (-k) :: st) := by
  have hplain : exprValue L ρ (.mk none (.mk (.number n) rest) []) =
      (factorValues L ρ rest).bind (multiply Int.fdiv n) := by
    rw [exprValue_plain L ρ (by decide), termValue, factorValue, termValues, Option.bind_some]
    exact Option.bind_fun_some _
  rw [calculate_append, h.words hL, h.computes hL, hplain]
  cases (factorValues L ρ rest).bind (multiply Int.fdiv n) with
  | none => rfl
  | some a => exact calculate_sign a st

end Signs

/-- **Negative literals.**  Let a translator be between two parts of a statement, and its variables
be identifiers, as those of a parsed program are.  Where an expression with a minus sign before a
number and further factors is translated, so is the one without the sign.  The words of the first
compute the product with division rounded up, negated; those of the second, with `-1 *` after them,
the product with division rounded down, negated.  So they compute the same exactly if the roundings
make no difference, as where nothing is left over in any division. -/
theorem negative_literal_rounds_up {t t' : Translator} {v : Value} {n : Nat}
    {rest : List (MulOp × Factor)} (hat : At c t) (hnamed : c.names.Named)
    (h : exec (rules.run (Expr.mk (some .minus) (.mk (.number n) rest) []).toValue) t =
      (.ok v, t')) :
    ∃ es ds, t' = t.after es ∧
      (∃ w, exec (rules.run (Expr.mk none (.mk (.number n) rest) []).toValue) t =
        (.ok w, t.after ds)) ∧
      ∀ (ρ : String → Int) (st : List Cell),
        calculate ρ (words (render false es)) st =
            ((factorValues c.names ρ rest).bind (multiply roundUp n)).map
            (fun k => .int (-k) :: st) ∧
        calculate ρ (words (render false ds) ++ ["-1", "*"]) st =
            ((factorValues c.names ρ rest).bind (multiply Int.fdiv n)).map
            (fun k => .int (-k) :: st) ∧
        (calculate ρ (words (render false es)) st =
          calculate ρ (words (render false ds) ++ ["-1", "*"]) st ↔
          (factorValues c.names ρ rest).bind (multiply roundUp n) =
            (factorValues c.names ρ rest).bind (multiply Int.fdiv n)) ∧
        ∀ bs, factorValues c.names ρ rest = some bs → Exact n bs →
          calculate ρ (words (render false es)) st =
            calculate ρ (words (render false ds) ++ ["-1", "*"]) st := by
  obtain ⟨es, hes, rfl⟩ := emits_expr _ hat h
  obtain ⟨ds, hds⟩ := hes.unsigned
  refine ⟨es, ds, rfl, hds.returns hat, fun ρ st => ?_⟩
  have hup := hes.computes_literal (ρ := ρ) hnamed st
  have hdown := hds.computes_signed (ρ := ρ) hnamed st
  have hinj : Function.Injective fun k : Int => Cell.int (-k) :: st :=
    fun a b hab => by simpa using hab
  have hiff : calculate ρ (words (render false es)) st =
      calculate ρ (words (render false ds) ++ ["-1", "*"]) st ↔
      (factorValues c.names ρ rest).bind (multiply roundUp n) =
        (factorValues c.names ρ rest).bind (multiply Int.fdiv n) := by
    rw [hup, hdown]
    exact (Option.map_injective hinj).eq_iff
  refine ⟨hup, hdown, hiff, fun bs hbs hexact => hiff.2 ?_⟩
  rw [hbs]
  exact multiply_exact hexact

/-- six times a variable divided by three, with a minus sign -/
def minusThird : Expr :=
  .mk (some .minus) (.mk (.number 6) [(.times, .name "x"), (.divide, .number 3)]) []

def xKnown : Lexicon := Lexicon.empty.declare "x" .var

theorem minusThird_agrees :
    (parseText "VAR x; ! -6 * x / 3 .").1 = .ok ⟨.mk none (some ["x"]) [] (.print minusThird)⟩ ∧
      ∃ es ds v w, exec (rules.run minusThird.toValue) { names := xKnown.table } =
          (.ok v, Translator.after { names := xKnown.table } es) ∧
        exec (rules.run
          (Expr.mk none (.mk (.number 6) [(.times, .name "x"), (.divide, .number 3)]) []).toValue)
          { names := xKnown.table } = (.ok w, Translator.after { names := xKnown.table } ds) ∧
        ∀ ρ st, calculate ρ (words (render false es)) st =
          calculate ρ (words (render false ds) ++ ["-1", "*"]) st := by
  have hat : At ⟨[], xKnown⟩ { names := xKnown.table } := ⟨rfl, rfl, rfl, rfl⟩
  have hnamed : xKnown.Named := by
    have hx : Identifier "x" := ⟨⟨'x', [], rfl, by decide, List.forall_mem_nil _⟩, by decide⟩
    intro y hy
    rw [List.mem_singleton.1 hy]
    exact hx
  obtain ⟨v, t', hrun⟩ : ∃ v t', exec (rules.run minusThird.toValue) { names := xKnown.table } =
      (.ok v, t') :=
    ⟨_, _, by with_unfolding_all rfl⟩
  obtain ⟨es, ds, rfl, ⟨w, hplain⟩, hagree⟩ := negative_literal_rounds_up hat hnamed hrun
  refine ⟨by with_unfolding_all rfl, es, ds, v, w, hrun, hplain, fun ρ st => ?_⟩
  refine (hagree ρ st).2.2.2 [(.times, ρ "x"), (.divide, 3)] rfl ⟨⟨2 * ρ "x", ?_⟩, trivial⟩
  push_cast
  ring

/-- **A negative literal before a division changes the value.**  The text computes that minus seven
divided by two is minus four; the sign put after the division gives minus three. -/
theorem negative_literal_changes_value :
    (parseText "! -7/2 .").1 =
        .ok ⟨.mk none none []
          (.print (.mk (some .minus) (.mk (.number 7) [(.divide, .number 2)]) []))⟩ ∧
      translate (Program.toValue
        ⟨.mk none none [] (.print (.mk (some .minus) (.mk (.number 7) [(.divide, .number 2)]) []))⟩)
          {} =
        (.ok .none, ": run -7 2 /  .  ;\nrun\n\n", {}) ∧
      ∃ es ds, exec
        (rules.run (Expr.mk (some .minus) (.mk (.number 7) [(.divide, .number 2)]) []).toValue) {} =
          (.ok .none, Translator.after {} es) ∧
        exec (rules.run (Expr.mk none (.mk (.number 7) [(.divide, .number 2)]) []).toValue) {} =
          (.ok .none, Translator.after {} ds) ∧
        ∀ ρ, calculate ρ (words (render false es)) [] = some [.int (-4)] ∧
          calculate ρ (words (render false ds) ++ ["-1", "*"]) [] = some [.int (-3)] := by
  refine ⟨by with_unfolding_all rfl, by with_unfolding_all rfl, [.say "-7", .put " ", .say "2",
    .say "/"], [.put " ", .say "7", .put " ", .say "2",
      .say "/"], by with_unfolding_all rfl, by with_unfolding_all rfl, ?_⟩
  intro ρ
  have hup : words (render false [.say "-7", .put " ", .say "2", .say "/"]) = ["-7", "2", "/"] :=
    rfl
  have hdown : words (render false [.put " ", .say "7", .put " ", .say "2", .say "/"]) =
    ["7", "2", "/"] := rfl
  rw [hup, hdown]
  exact ⟨by with_unfolding_all rfl, by with_unfolding_all rfl⟩

end Pl0Kit.Forth
