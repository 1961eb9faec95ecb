import Pl0Kit.Proofs.ParseRun

/-!
# Laws of the parser

The rules of the parser are put together in a few ways: look at the token ahead, test its kind,
insist on a kind, step over a token, and go on with another rule.  A `Law` is a relation between two
rules that all of these ways keep, whatever the rules are.  Since every rule is built by them, a law
relates each rule of the grammar, with some budget, to the same rule with a budget at least as large
(`Law.program`).

A rule may step over a token only where there is one.  `Start` tells apart the rules that may be
asked for anywhere and those that begin with such a step.
-/

namespace Pl0Kit.Parse

/-- where a rule may be asked for: anywhere, or before some token only -/
inductive Start where
  | anywhere
  | atToken
  deriving DecidableEq

/-- a relation between rules that is kept by the ways in which the parser puts rules together -/
structure Law where
  Holds {α : Type} : Start → Parse α → Parse α → Prop
  weaken {α : Type} {st : Start} {p q : Parse α} : Holds .anywhere p q → Holds st p q
  answer {α : Type} (a : α) : Holds .anywhere (pure a) (pure a)
  fail {α : Type} (wanted : String) : Holds .anywhere (fail wanted : Parse α) (fail wanted)
  /-- a budget that is used up says nothing about a larger one -/
  spent {α : Type} (q : Parse α) : Holds .anywhere (throw .outOfFuel) q
  bind {α β : Type} {st : Start} {p q : Parse α} {f g : α → Parse β} : Holds st p q →
    (∀ a, Holds .anywhere (f a) (g a)) → Holds st (p >>= f) (q >>= g)
  advance {α : Type} {p q : Parse α} : Holds .anywhere p q →
    Holds .atToken (advance >>= fun _ => p) (advance >>= fun _ => q)
  /-- only a condition asks for a comparison operator -/
  test {α : Type} {k : Kind} {p q p' q' : Parse α} : relOp? k = none → Holds .atToken p q →
    Holds .anywhere p' q' →
      Holds .anywhere (isSym k >>= fun b => if b = true then p else p')
        (isSym k >>= fun b => if b = true then q else q')
  expect {α : Type} {k : Kind} {f g : Token → Parse α} : relOp? k = none →
    (∀ t, Holds .atToken (f t) (g t)) → Holds .anywhere (expect k >>= f) (expect k >>= g)
  /-- a look at the token ahead, where a comparison operator counts as little as the end of the
  text -/
  look {α : Type} {f g : Option Token → Parse α} : (∀ t, Holds .atToken (f (some t)) (g (some t))) →
    Holds .anywhere (f none) (g none) →
      (∀ t op, t.kind = RelOp.kind op → g (some t) = g none) →
      Holds .anywhere (sym >>= f) (sym >>= g)
  /-- a look at the token ahead that fails if there is none -/
  demand {α : Type} {f g : Option Token → Parse α} :
    (∀ t, Holds .atToken (f (some t)) (g (some t))) →
    f none = throw .noSuchField → g none = throw .noSuchField →
    Holds .anywhere (sym >>= f) (sym >>= g)

namespace Law

variable (L : Law)

section

variable {α β : Type}

theorem expectName {f g : String → Parse α} (hf : ∀ x, L.Holds .atToken (f x) (g x)) :
    L.Holds .anywhere (expectName >>= f) (expectName >>= g) := by
  unfold Parse.expectName
  rw [bind_assoc, bind_assoc]
  refine L.expect rfl fun t => ?_
  split
  · rw [pure_bind, pure_bind]
    exact hf _
  · rw [pure_bind, pure_bind]
    exact hf _

/-- an alternative that is taken if it is there -/
theorem orElse {p q : Parse (Option α)} {f g : Option α → Parse α} (hp : L.Holds .anywhere p q)
    (hf : ∀ a, f (some a) = pure a) (hg : ∀ a, g (some a) = pure a)
    (hnone : L.Holds .anywhere (f none) (g none)) : L.Holds .anywhere (p >>= f) (q >>= g) := by
  refine L.bind hp fun o => ?_
  cases o with
  | none => exact hnone
  | some a =>
    rw [hf, hg]
    exact L.answer a

/-- a rule whose answer is put into a form -/
theorem thenAnswer {st : Start} {p q : Parse α} (f : α → β) (hp : L.Holds st p q) :
    L.Holds st (p >>= fun a => pure (f a)) (q >>= fun a => pure (f a)) :=
  L.bind hp fun a => L.answer (f a)

end

/-! ## expressions -/

section

variable {n m : Nat}

theorem addOp : L.Holds .anywhere addOp? addOp? :=
  L.test rfl (L.advance (L.answer _)) (L.test rfl (L.advance (L.answer _)) (L.answer _))

theorem mulOp : L.Holds .anywhere mulOp? mulOp? :=
  L.test rfl (L.advance (L.answer _)) (L.test rfl (L.advance (L.answer _)) (L.answer _))

/-- the five rules of expressions, with budgets of `n` and `m` -/
structure Expressions (n m : Nat) : Prop where
  expression : L.Holds .anywhere (expression n) (expression m)
  expressionTail : L.Holds .anywhere (expressionTail n) (expressionTail m)
  term : L.Holds .anywhere (term n) (term m)
  termTail : L.Holds .anywhere (termTail n) (termTail m)
  factor : L.Holds .anywhere (factor? n) (factor? m)

theorem expression_succ (ih : L.Expressions n m) :
    L.Holds .anywhere (expression (n + 1)) (expression (m + 1)) := by
  simp only [expression]
  refine L.bind L.addOp fun _ => L.bind ih.term fun _ => ?_
  exact L.thenAnswer _ ih.expressionTail

theorem expressionTail_succ (ih : L.Expressions n m) :
    L.Holds .anywhere (expressionTail (n + 1)) (expressionTail (m + 1)) := by
  simp only [expressionTail]
  refine L.bind L.addOp fun op => ?_
  cases op with
  | none => exact L.answer _
  | some op => exact L.bind ih.term fun _ => L.thenAnswer _ ih.expressionTail

theorem term_succ (ih : L.Expressions n m) : L.Holds .anywhere (term (n + 1)) (term (m + 1)) := by
  simp only [term]
  refine L.bind ih.factor fun x => ?_
  cases x with
  | none => exact L.fail _
  | some x => exact L.thenAnswer _ ih.termTail

theorem termTail_succ (ih : L.Expressions n m) :
    L.Holds .anywhere (termTail (n + 1)) (termTail (m + 1)) := by
  simp only [termTail]
  refine L.bind L.mulOp fun op => ?_
  cases op with
  | none => exact L.answer _
  | some op =>
    refine L.bind ih.factor fun x => ?_
    cases x with
    | none => exact L.fail _
    | some x => exact L.thenAnswer _ ih.termTail

theorem factor_succ (ih : L.Expressions n m) :
    L.Holds .anywhere (factor? (n + 1)) (factor? (m + 1)) := by
  simp only [factor?]
  refine L.look (fun t => ?_) (L.answer _) fun t op ht => ?_
  · obtain ⟨k, v, l, p⟩ := t
    split
    · exact L.advance (L.answer _)
    · exact L.advance (L.answer _)
    · refine L.advance (L.bind ih.expression fun _ => ?_)
      exact L.expect rfl fun _ => L.advance (L.answer _)
    · exact L.weaken (L.answer _)
  · obtain ⟨k, v, l, p⟩ := t
    obtain rfl : k = op.kind := ht
    cases op <;> rfl

theorem expressions (h : n ≤ m) : L.Expressions n m := by
  induction n generalizing m with
  | zero => constructor <;> exact L.spent _
  | succ n ih =>
    obtain ⟨m, rfl⟩ := Nat.exists_eq_add_of_le' (Nat.le_trans (Nat.le_add_left 1 n) h)
    have ih := ih (Nat.le_of_succ_le_succ h)
    exact ⟨L.expression_succ ih, L.expressionTail_succ ih, L.term_succ ih, L.termTail_succ ih,
      L.factor_succ ih⟩

/-! ## statements -/

theorem condition (h : n ≤ m) : L.Holds .anywhere (condition n) (condition m) := by
  have he : L.Holds .anywhere (expression n) (expression m) := (L.expressions h).expression
  refine L.test rfl (L.advance (L.thenAnswer _ he)) (L.bind he fun lhs => ?_)
  refine L.demand (fun t => ?_) rfl rfl
  cases hop : relOp? t.kind with
  | none =>
    simp only [hop]
    exact L.weaken (L.fail _)
  | some op =>
    simp only [hop]
    exact L.advance (L.thenAnswer _ he)

theorem assign (h : n ≤ m) : L.Holds .anywhere (assign? n) (assign? m) := by
  have he : L.Holds .anywhere (expression n) (expression m) := (L.expressions h).expression
  refine L.look (fun t => ?_) (L.answer _) fun t op ht => ?_
  · obtain ⟨k, v, l, p⟩ := t
    split
    · exact L.advance (L.expect rfl fun _ => L.advance (L.thenAnswer _ he))
    · exact L.weaken (L.answer _)
  · obtain ⟨k, v, l, p⟩ := t
    obtain rfl : k = op.kind := ht
    cases op <;> rfl

theorem print (h : n ≤ m) : L.Holds .anywhere (print? n) (print? m) :=
  L.test rfl (L.advance (L.thenAnswer _ (L.expressions h).expression)) (L.answer _)

theorem call : L.Holds .anywhere call? call? :=
  L.test rfl (L.advance (L.expectName fun _ => L.advance (L.answer _))) (L.answer _)

/-- the recursive rules of statements, with budgets of `n` and `m` -/
structure Statements (n m : Nat) : Prop where
  statement : L.Holds .anywhere (statement n) (statement m)
  begin : L.Holds .anywhere (begin? n) (begin? m)
  compound : L.Holds .atToken (compound n) (compound m)
  ifThen : L.Holds .anywhere (if? n) (if? m)
  whileDo : L.Holds .anywhere (while? n) (while? m)

theorem statement_succ (h : n ≤ m) (ih : L.Statements n m) :
    L.Holds .anywhere (statement (n + 1)) (statement (m + 1)) := by
  simp only [statement]
  refine L.orElse (L.assign h) (fun _ => rfl) (fun _ => rfl) ?_
  refine L.orElse L.call (fun _ => rfl) (fun _ => rfl) ?_
  refine L.orElse ih.begin (fun _ => rfl) (fun _ => rfl) ?_
  refine L.orElse ih.ifThen (fun _ => rfl) (fun _ => rfl) ?_
  refine L.orElse ih.whileDo (fun _ => rfl) (fun _ => rfl) ?_
  exact L.orElse (L.print h) (fun _ => rfl) (fun _ => rfl) (L.fail _)

theorem begin_succ (ih : L.Statements n m) :
    L.Holds .anywhere (begin? (n + 1)) (begin? (m + 1)) := by
  simp only [begin?]
  exact L.test rfl (L.thenAnswer _ ih.compound) (L.answer _)

theorem compound_succ (ih : L.Statements n m) :
    L.Holds .atToken (compound (n + 1)) (compound (m + 1)) := by
  simp only [compound]
  refine L.advance (L.bind ih.statement fun _ => L.test rfl (L.advance (L.answer _)) ?_)
  exact L.expect rfl fun _ => L.thenAnswer _ ih.compound

theorem if_succ (h : n ≤ m) (ih : L.Statements n m) :
    L.Holds .anywhere (if? (n + 1)) (if? (m + 1)) := by
  simp only [if?]
  refine L.test rfl (L.advance (L.bind (L.condition h) fun _ => ?_)) (L.answer _)
  exact L.expect rfl fun _ => L.advance (L.thenAnswer _ ih.statement)

theorem while_succ (h : n ≤ m) (ih : L.Statements n m) :
    L.Holds .anywhere (while? (n + 1)) (while? (m + 1)) := by
  simp only [while?]
  refine L.test rfl (L.advance (L.bind (L.condition h) fun _ => ?_)) (L.answer _)
  exact L.expect rfl fun _ => L.advance (L.thenAnswer _ ih.statement)

theorem statements (h : n ≤ m) : L.Statements n m := by
  induction n generalizing m with
  | zero => constructor <;> exact L.weaken (L.spent _)
  | succ n ih =>
    obtain ⟨m, rfl⟩ := Nat.exists_eq_add_of_le' (Nat.le_trans (Nat.le_add_left 1 n) h)
    have h' := Nat.le_of_succ_le_succ h
    have ih := ih h'
    exact ⟨L.statement_succ h' ih, L.begin_succ ih, L.compound_succ ih, L.if_succ h' ih,
      L.while_succ h' ih⟩

/-! ## declarations -/

theorem define : L.Holds .anywhere define? define? := by
  refine L.look (fun t => ?_) (L.answer _) fun t op ht => ?_
  · obtain ⟨k, v, l, p⟩ := t
    split
    · refine L.advance (L.expect rfl fun _ => L.advance (L.expect rfl fun u => L.advance ?_))
      split
      · exact L.answer _
      · exact L.answer _
    · exact L.weaken (L.answer _)
  · obtain ⟨k, v, l, p⟩ := t
    obtain rfl : k = op.kind := ht
    cases op <;> rfl

theorem defines (h : n ≤ m) : L.Holds .atToken (defines n) (defines m) := by
  induction n generalizing m with
  | zero => exact L.weaken (L.spent _)
  | succ n ih =>
    obtain ⟨m, rfl⟩ := Nat.exists_eq_add_of_le' (Nat.le_trans (Nat.le_add_left 1 n) h)
    simp only [Parse.defines]
    refine L.advance (L.bind L.define fun _ => L.test rfl (L.advance (L.answer _)) ?_)
    exact L.expect rfl fun _ => L.thenAnswer _ (ih (Nat.le_of_succ_le_succ h))

theorem constDecl (h : n ≤ m) : L.Holds .anywhere (constants? n) (constants? m) := by
  simp only [constants?, map_eq_pure_bind]
  exact L.test rfl (L.thenAnswer _ (L.defines h)) (L.answer _)

theorem names (h : n ≤ m) : L.Holds .atToken (names n) (names m) := by
  induction n generalizing m with
  | zero => exact L.weaken (L.spent _)
  | succ n ih =>
    obtain ⟨m, rfl⟩ := Nat.exists_eq_add_of_le' (Nat.le_trans (Nat.le_add_left 1 n) h)
    simp only [Parse.names]
    refine L.advance (L.expectName fun _ => L.advance (L.test rfl (L.advance (L.answer _)) ?_))
    exact L.expect rfl fun _ => L.thenAnswer _ (ih (Nat.le_of_succ_le_succ h))

theorem varDecl (h : n ≤ m) : L.Holds .anywhere (variables? n) (variables? m) := by
  simp only [variables?, map_eq_pure_bind]
  exact L.test rfl (L.thenAnswer _ (L.names h)) (L.answer _)

/-! ## blocks and programs -/

structure Blocks (n m : Nat) : Prop where
  block : L.Holds .anywhere (block n) (block m)
  procedures : L.Holds .anywhere (procedures n) (procedures m)

theorem block_succ (h : n ≤ m) (ih : L.Blocks n m) :
    L.Holds .anywhere (block (n + 1)) (block (m + 1)) := by
  simp only [block]
  refine L.bind (L.constDecl h) fun _ => L.bind (L.varDecl h) fun _ => ?_
  exact L.bind ih.procedures fun _ => L.thenAnswer _ (L.statements h).statement

theorem procedures_succ (ih : L.Blocks n m) :
    L.Holds .anywhere (procedures (n + 1)) (procedures (m + 1)) := by
  simp only [procedures]
  refine L.test rfl (L.advance (L.expectName fun _ => L.advance ?_)) (L.answer _)
  refine L.expect rfl fun _ => L.advance (L.bind ih.block fun _ => ?_)
  exact L.expect rfl fun _ => L.advance (L.thenAnswer _ ih.procedures)

theorem blocks (h : n ≤ m) : L.Blocks n m := by
  induction n generalizing m with
  | zero => constructor <;> exact L.spent _
  | succ n ih =>
    obtain ⟨m, rfl⟩ := Nat.exists_eq_add_of_le' (Nat.le_trans (Nat.le_add_left 1 n) h)
    have h' := Nat.le_of_succ_le_succ h
    exact ⟨L.block_succ h' (ih h'), L.procedures_succ (ih h')⟩

/-- **A law of the parser relates programs** read with some budget and with one at least as
large. -/
theorem program (h : n ≤ m) : L.Holds .anywhere (program n) (program m) :=
  L.bind (L.blocks h).block fun _ => L.expect rfl fun _ => L.advance (L.answer _)

end

end Law

end Pl0Kit.Parse
