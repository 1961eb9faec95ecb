import Pl0Kit.Proofs.Generated
import Pl0Kit.Proofs.Results
import Pl0Kit.Proofs.Semantics

/-!
# Evaluation on trees

The evaluator walks trees and opens a frame for every node.  An expression whose names are in scope
leaves all frames as they are and answers its value (`answers_expr`), in any frames, and a condition
its truth (`answers_condition`).  With enough fuel an expression does answer (`settles_expr`).  That
names are in scope is known from the code that was generated for them, and then the result of an
expression is the value that it denotes (`result_expr`).
-/

namespace Pl0Kit.Evaluator

open Act Generator

/-! ## nodes -/

section Nodes

variable {N : Nat} {v : Value} {s s' : Evaluator}

/-- a node is visited with one more frame, which is closed at the end -/
theorem evaluate_ok {r : Frame × Value} (h : exec (evaluate N v) s = (.ok r, s')) :
    ∃ M, N = M + 1 ∧
      exec (visit M v) ⟨{} :: s.frames, s.out⟩ = (.ok r.2, ⟨r.1 :: s'.frames, s'.out⟩) := by
  cases N with
  | zero => cases h
  | succ M =>
    refine ⟨M, rfl, ?_⟩
    rw [evaluate] at h
    obtain ⟨_, s₁, h₁, h⟩ := exec_bind_ok.1 h
    cases h₁
    obtain ⟨r', s₂, h₂, h⟩ := exec_bind_ok.1 h
    obtain ⟨f, s₃, h₃, h⟩ := exec_bind_ok.1 h
    cases h
    refine h₂.trans ?_
    obtain ⟨frames, out⟩ := s₂
    cases frames with
    | nil => cases h₃
    | cons g gs =>
      cases h₃
      rfl

theorem visit_list_ok {tag : String} {xs : List Value} (low : String) (hlow : tag.toLower = low)
    (h : exec (visit N (.list (.str tag :: xs))) s = (.ok v, s')) :
    ∃ M, N = M + 2 ∧ exec (apply (M + 1) low (.str tag :: xs)) s = (.ok v, s') := by
  subst hlow
  match N, h with
  | M + 2, h => exact ⟨M, rfl, h⟩

theorem visit_tuple_ok {tag : String} {xs : List Value} (low : String) (hlow : tag.toLower = low)
    (h : exec (visit N (.tuple (.str tag :: xs))) s = (.ok v, s')) :
    ∃ M, N = M + 2 ∧ exec (apply (M + 1) low (.str tag :: xs)) s = (.ok v, s') := by
  subst hlow
  match N, h with
  | M + 2, h => exact ⟨M, rfl, h⟩

end Nodes

/-! ## rules -/

section Rules

variable (N : Nat) (v w : Value) (vs : List Value)

theorem apply_set (x : String) : apply (N + 1) "set" [.str "SET", nameValue x, v] = (do
    let r ← evaluate N v
    let q ← find (.str x)
    modify fun s => { s with frames := s.frames.modify (q.2.2 - 1) (·.update (.str x) r.2) }
    pure .none) := rfl

theorem apply_print : apply (N + 1) "print" [.str "PRINT", v] = (do
    let r ← evaluate N v
    printLine r.2
    pure .none) := rfl

theorem apply_if : apply (N + 1) "if" [.str "IF", v, w] = (do
    let r ← evaluate N v
    if r.2.truthy then do
      let _ ← evaluate N w
      pure .none
    else pure .none) := rfl

theorem apply_while : apply (N + 1) "while" [.str "WHILE", v, w] = (do
    loop N v w
    pure .none) := rfl

theorem loop_succ : loop (N + 1) v w = (do
    let r ← evaluate N v
    if r.2.truthy then do
      let _ ← evaluate N w
      loop N v w
    else pure ()) := rfl

theorem apply_begin : apply (N + 1) "begin" (.str "BEGIN" :: vs) = (do
    let rs ← visitEach N vs
    pure (gather rs)) := rfl

theorem apply_block : apply (N + 1) "block" (.str "BLOCK" :: vs) = (do
    let rs ← visitEach N vs
    pure (gather rs)) := rfl

theorem apply_program : apply (N + 1) "program" (.str "PROGRAM" :: vs) = (do
    let rs ← visitEach N vs
    pure (gather rs)) := rfl

theorem apply_odd : apply (N + 1) "odd" [.str "ODD", v] = (do
    let r ← evaluate N v
    let o ← lift r.2.isOdd
    pure (.bool o)) := rfl

theorem apply_condition (op : RelOp) :
    apply (N + 1) "condition" [.str "CONDITION", v, .str op.word, w] = (do
      let p ← evaluate N v
      let q ← evaluate N w
      compareBy (.str op.word) p.2 q.2) := rfl

end Rules

/-! ## expressions -/

/-- in the frames `gs`, a node can only have the value `a`, and evaluating it changes nothing -/
def Answers (gs : Frames) (v a : Value) : Prop :=
  ∀ ⦃N : Nat⦄ ⦃s s' : Evaluator⦄ ⦃r : Frame × Value⦄, s.frames = gs →
    exec (evaluate N v) s = (.ok r, s') → s' = s ∧ r.2 = a

/-- names that the frames `fs` know as constants or variables have the values `ρ` in the frames
`gs` -/
def Reads (fs gs : Frames) (ρ : String → Int) : Prop :=
  ∀ ⦃x : String⦄ ⦃kind : EntryKind⦄ ⦃v : Value⦄ ⦃n : Nat⦄,
    fs.find? (.str x) = some (kind, v, n) → kind ≠ .proc →
      ∃ kind' n', gs.find? (.str x) = some (kind', .int (ρ x), n')

theorem Reads.push {fs gs : Frames} {ρ : String → Int} (h : Reads fs gs ρ) :
    Reads fs ({} :: gs) ρ := by
  intro x kind v n hx hkind
  obtain ⟨kind', n', hx'⟩ := h hx hkind
  rw [Frames.find?_push, hx']
  exact ⟨kind', n' + 1, rfl⟩

/-- the answer of a node that is a tuple is that of the rule for its kind, in frames with one
more -/
theorem Answers.tuple {gs : Frames} {tag : String} {xs : List Value} {a : Value} (low : String)
    (hlow : tag.toLower = low)
    (happly : ∀ {N : Nat} {s s' : Evaluator} {r : Value}, s.frames = {} :: gs →
      exec (apply (N + 1) low (.str tag :: xs)) s = (.ok r, s') → s' = s ∧ r = a) :
    Answers gs (.tuple (.str tag :: xs)) a := by
  rintro N ⟨frames, out⟩ ⟨frames', out'⟩ r hs h
  obtain ⟨M, -, h⟩ := evaluate_ok h
  obtain ⟨M, -, h⟩ := visit_tuple_ok low hlow h
  obtain ⟨hs', hr⟩ := happly (congrArg (List.cons {}) hs) h
  obtain ⟨hframes, rfl⟩ := Evaluator.mk.inj hs'
  obtain ⟨-, rfl⟩ := List.cons.inj hframes
  exact ⟨rfl, hr⟩

theorem Gives.answers {gs : Frames} {v a : Value} (h : Gives gs v (.ok a)) : Answers gs v a := by
  intro N s s' r hs hexec
  rcases h.only N hs with hstops | hfuel
  · cases hstops with
    | answer ha =>
      rw [ha] at hexec
      cases hexec
      exact ⟨rfl, rfl⟩
  · rw [hexec] at hfuel
    cases hfuel

theorem exec_find {x : String} {s : Evaluator} {r : EntryKind × Value × Nat}
    (h : s.frames.find? (.str x) = some r) : exec (find (.str x)) s = (.ok r, s) := by
  show (s.frames.find (.str x), s) = _
  rw [Frames.find_str, h]

section Expressions

variable {fs gs : Frames} {ρ : String → Int}

theorem value_of_reads {x : String} {kind : EntryKind} {v : Value} {n : Nat}
    (hx : fs.find? (.str x) = some (kind, v, n)) (hkind : kind ≠ .proc) (hr : Reads fs gs ρ) :
    gs.value x = .ok (.int (ρ x)) := by
  obtain ⟨kind', n', hx'⟩ := hr hx hkind
  rw [Frames.value, Frames.seen, Frames.find_str, hx']
  rfl

mutual

/-- expressions whose names are in scope have the values that they denote -/
theorem result_expr (hr : Reads fs gs ρ) : ∀ {e : Expr} {es : List Event}, ExprCode fs e es →
    e.result gs.value = .ok (.int (e.denote ρ))
  | .mk sign first rest, _, .mk ht hrest => by
    rw [Expr.result, result_term hr ht]
    show (Expr.resultFrom gs.value (.int (first.denote ρ)) rest >>= signResult sign) = _
    rw [result_terms hr hrest]
    rcases sign with _ | _ | _ <;> rfl

theorem result_terms (hr : Reads fs gs ρ) : ∀ {rest : List (AddOp × Term)} {es : List Event}
    {total : Int}, TermsCode fs rest es →
      Expr.resultFrom gs.value (.int total) rest = .ok (.int (Expr.sumFrom ρ total rest))
  | [], _, _, .nil => rfl
  | (op, x) :: rest, _, total, .cons hx hrest => by
    rw [Expr.resultFrom, result_term hr hx]
    show (op.result (.int total) (.int (x.denote ρ)) >>= fun a => Expr.resultFrom gs.value a rest) =
      _
    rw [AddOp.result_int]
    exact result_terms hr hrest

theorem result_term (hr : Reads fs gs ρ) : ∀ {x : Term} {es : List Event}, TermCode fs x es →
    x.result gs.value = .ok (.int (x.denote ρ))
  | .mk first rest, _, .mk hf hrest => by
    rw [Term.result, result_factor hr hf]
    exact result_factors hr hrest

theorem result_factors (hr : Reads fs gs ρ) : ∀ {rest : List (MulOp × Factor)} {es : List Event}
    {total : Int}, FactorsCode fs rest es →
      Term.resultFrom gs.value (.int total) rest = .ok (.int (Term.productFrom ρ total rest))
  | [], _, _, .nil => rfl
  | (op, x) :: rest, _, total, .cons hx hrest => by
    rw [Term.resultFrom, result_factor hr hx]
    show (op.result (.int total) (.int (x.denote ρ)) >>= fun a => Term.resultFrom gs.value a rest) =
      _
    rw [MulOp.result_int]
    exact result_factors hr hrest

theorem result_factor (hr : Reads fs gs ρ) : ∀ {x : Factor} {es : List Event}, FactorCode fs x es →
    x.result gs.value = .ok (.int (x.denote ρ))
  | .name _, _, .var hx => value_of_reads hx nofun hr
  | .name _, _, .const hx => value_of_reads hx nofun hr
  | .number _, _, .number => rfl
  | .paren _, _, .paren he => result_expr hr he

end

theorem answers_expr {e : Expr} {es : List Event} (h : ExprCode fs e es) (hr : Reads fs gs ρ) :
    Answers gs e.toValue (.int (e.denote ρ)) := by
  have hgives := gives_expr e gs
  rw [result_expr hr h] at hgives
  exact hgives.answers

/-- in the frames `gs`, a node has the value `a` if there is enough fuel, and evaluating it changes
nothing -/
def Settles (gs : Frames) (v a : Value) : Prop :=
  ∃ K, ∀ N, K ≤ N → ∀ {s : Evaluator}, s.frames = gs → exec (evaluate N v) s = (.ok ({}, a), s)

theorem Gives.settles {v a : Value} (h : Gives gs v (.ok a)) : Settles gs v a := by
  obtain ⟨K, hK⟩ := h.enough
  refine ⟨K, fun N hN s hs => ?_⟩
  cases hK N hN hs with
  | answer ha => exact ha

/-- **Expressions whose names are in scope have values.** -/
theorem settles_expr {e : Expr} {es : List Event} (h : ExprCode fs e es) (hr : Reads fs gs ρ) :
    Settles gs e.toValue (.int (e.denote ρ)) := by
  have hgives := gives_expr e gs
  rw [result_expr hr h] at hgives
  exact hgives.settles

/-! ## conditions -/

theorem exec_compareBy {op : RelOp} {a b : Int} {s s' : Evaluator} {v : Value}
    (h : exec (compareBy (.str op.word) (.int a) (.int b)) s = (.ok v, s')) :
    s' = s ∧ v = .bool (op.denote a b) := by
  have hcompare : compare a b = if a < b then .lt else if a = b then .eq else .gt := rfl
  cases op with
  | lt | lte | gt | gte =>
    cases h
    refine ⟨rfl, congrArg Value.bool ?_⟩
    rw [hcompare, RelOp.denote]
    grind
  | e | ne => cases h

theorem answers_condition {T : Target} {c : Condition} {es : List Event}
    (h : ConditionCode T fs c es) (hr : Reads fs gs ρ) :
    Answers gs c.toValue (.bool (c.denote ρ)) := by
  cases h with
  | @odd e cs he =>
    refine .tuple "odd" ruleNames.odd fun {N s s' r} hs h => ?_
    rw [apply_odd] at h
    obtain ⟨p, s₁, h₁, hnext⟩ := exec_bind_ok.1 h
    obtain ⟨rfl, hp⟩ := answers_expr he hr.push hs h₁
    rw [hp] at hnext
    cases hnext
    refine ⟨rfl, congrArg Value.bool ?_⟩
    rw [Condition.denote, decide_not]
    rfl
  | @compare l r op w cs ds hl hr' hop =>
    refine .tuple "condition" ruleNames.condition fun {N s s' v} hs h => ?_
    rw [apply_condition] at h
    obtain ⟨p, s₁, h₁, hnext⟩ := exec_bind_ok.1 h
    obtain ⟨rfl, hp⟩ := answers_expr hl hr.push hs h₁
    obtain ⟨q, s₂, h₂, hcompare⟩ := exec_bind_ok.1 hnext
    obtain ⟨rfl, hq⟩ := answers_expr hr' hr.push hs h₂
    rw [hp, hq] at hcompare
    exact exec_compareBy hcompare

end Expressions

end Pl0Kit.Evaluator
