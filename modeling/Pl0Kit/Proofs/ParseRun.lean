import Pl0Kit.Parse
import Pl0Kit.Proofs.Outcome
import Pl0Kit.Proofs.Phrase

/-!
# The cursor as a list of tokens

A parser looks at its cursor only through the tokens still to come.  `Cursor.Has c ts` says that
`ts` are those tokens (and that the cursor has a text at all); the lemmas below give every primitive
of the parser its effect in these terms, so that no later proof looks inside a cursor.
-/

namespace Pl0Kit

open Act

/-- the tokens of some readings, up to the reading that finds none -/
def upcoming : List Reading → List Token
  | [] => []
  | r :: rs =>
    match r.token with
    | some t => t :: upcoming rs
    | none => []

namespace Cursor

/-- the lookahead token and all that follow it -/
def tokens (c : Cursor) : List Token :=
  match c.sym with
  | some t => t :: upcoming c.ahead
  | none => []

/-- the cursor stands in a text whose tokens from here on are `ts` -/
structure Has (c : Cursor) (ts : List Token) : Prop where
  label : c.label.isSome
  tokens : c.tokens = ts

theorem sym_eq (c : Cursor) : c.sym = c.tokens.head? := by
  rw [Cursor.tokens]
  cases c.sym <;> rfl

theorem Has.sym {c : Cursor} {ts : List Token} (h : c.Has ts) : c.sym = ts.head? := by
  rw [sym_eq, h.tokens]

theorem label_step (c : Cursor) : c.step.label = c.label := by
  unfold Cursor.step
  split <;> rfl

theorem step_tokens (c : Cursor) : c.step.tokens = upcoming c.ahead := by
  unfold step Cursor.tokens
  cases c.ahead with
  | nil => rfl
  | cons r rest =>
    cases hr : r.token <;> simp [upcoming, hr]

theorem Has.step {c : Cursor} {t : Token} {ts : List Token} (h : c.Has (t :: ts)) :
    c.step.Has ts := by
  constructor
  · rw [label_step]
    exact h.label
  · have hs : c.sym = some t := h.sym
    have ht := h.tokens
    rw [Cursor.tokens, hs] at ht
    rw [step_tokens]
    exact (List.cons.inj ht).2

theorem length_upcoming_le (rs : List Reading) : (upcoming rs).length ≤ rs.length := by
  induction rs with
  | nil => exact Nat.le_refl 0
  | cons r rs ih =>
    rw [upcoming]
    cases r.token with
    | none => exact Nat.zero_le _
    | some t => exact Nat.succ_le_succ ih

theorem length_tokens_le (c : Cursor) : c.tokens.length ≤ c.size := by
  have := length_upcoming_le c.ahead
  rw [size, Cursor.tokens]
  cases c.sym with
  | none => exact Nat.zero_le _
  | some t =>
    simp only [List.length_cons, Option.isSome_some, if_true]
    omega

end Cursor

namespace Kind

/-- all kinds of tokens -/
def all : List Kind :=
  [name, number, dot, eos, update, comma, lparen, rparen, lt, lte, gt, gte, e, ne, plus, minus,
    times, divide, assign, print] ++ Keyword.all.map keyword

theorem find?_label (k : Kind) : all.find? (fun k' => k'.label == k.label) = some k := by
  cases k with
  | keyword w => cases w <;> decide +kernel
  | _ => decide +kernel

/-- different kinds have different labels -/
theorem label_inj {a b : Kind} (h : a.label = b.label) : a = b := by
  have ha := find?_label a
  rw [h, find?_label b] at ha
  exact (Option.some.inj ha).symm

end Kind

/-- whether the first of some tokens is of kind `k` -/
def startsWith (k : Kind) (ts : List Token) : Bool := ts.head?.any fun t => t.kind == k

@[simp] theorem startsWith_nil (k : Kind) : startsWith k [] = false := rfl

@[simp] theorem startsWith_cons (k : Kind) (t : Token) (ts : List Token) :
    startsWith k (t :: ts) = (t.kind == k) := rfl

theorem startsWith_iff {k : Kind} {ts : List Token} :
    startsWith k ts = true ↔ ∃ t rest, ts = t :: rest ∧ t.kind = k := by
  cases ts with
  | nil => simp
  | cons t rest => simp

namespace Parse

variable {c c' : Cursor} {ts : List Token} {t : Token} {k : Kind}

theorem exec_sym (h : c.Has ts) : exec sym c = (.ok ts.head?, c) := by
  rw [← h.sym]
  rfl

theorem exec_isSym (h : c.Has ts) : exec (isSym k) c = (.ok (startsWith k ts), c) := by
  have hc : exec (isSym k) c = (.ok (match c.sym with
      | some t => t.kind == k
      | none => false), c) := rfl
  rw [hc, h.sym]
  cases ts <;> rfl

theorem exec_advance (h : c.Has (t :: ts)) : exec advance c = (.ok (), c.step) := by
  have hl : c.label.isNone = false := by
    have := h.label
    cases hc : c.label with
    | none => rw [hc] at this; cases this
    | some _ => rfl
  show exec (do set c.step; if c.label.isNone then throw .noInput) c = _
  rw [exec_then (exec_set c c.step), hl]
  rfl

/-- a cursor that can be advanced, and the cursor after it -/
theorem advance_has (h : c.Has (t :: ts)) :
    ∃ c₁, exec advance c = (.ok (), c₁) ∧ c₁.Has ts :=
  ⟨c.step, exec_advance h, h.step⟩

theorem exec_fail {α : Type} (wanted : String) (c : Cursor) :
    exec (fail wanted : Parse α) c = (.error (unexpected c wanted), c) := rfl

theorem exec_expect (h : c.Has (t :: ts)) (hk : t.kind = k) : exec (expect k) c = (.ok t, c) := by
  have hs : c.sym = some t := h.sym
  show exec (match c.sym with
    | some t => if t.kind.label == k.label then pure t else fail k.label
    | none => fail k.label : Parse Token) c = _
  rw [hs]
  simp [hk]

/-- an expected token is met, or its absence is reported where the cursor stands -/
theorem expect_cases (k : Kind) (h : c.Has ts) :
    (∃ t rest, ts = t :: rest ∧ t.kind = k ∧ exec (expect k) c = (.ok t, c)) ∨
      (startsWith k ts = false ∧ exec (expect k) c = (.error (unexpected c k.label), c)) := by
  cases ts with
  | nil =>
    have hs : c.sym = none := h.sym
    refine .inr ⟨rfl, ?_⟩
    show exec (match c.sym with
      | some t => if t.kind.label == k.label then pure t else fail k.label
      | none => fail k.label : Parse Token) c = _
    rw [hs]
    rfl
  | cons t rest =>
    by_cases hk : t.kind = k
    · exact .inl ⟨t, rest, rfl, hk, exec_expect h hk⟩
    · have hs : c.sym = some t := h.sym
      refine .inr ⟨beq_eq_false_iff_ne.2 hk, ?_⟩
      show exec (match c.sym with
        | some t => if t.kind.label == k.label then pure t else fail k.label
        | none => fail k.label : Parse Token) c = _
      rw [hs]
      simp only [beq_eq_false_iff_ne.2 fun he => hk (Kind.label_inj he), Bool.false_eq_true,
        if_false]
      exact exec_fail _ c

theorem exec_expectName {x : String} (h : c.Has (t :: ts)) (ht : t.IsName x) :
    exec expectName c = (.ok x, c) := by
  rw [expectName, exec_then (exec_expect h ht.1), ht.2]
  rfl

end Parse

end Pl0Kit
