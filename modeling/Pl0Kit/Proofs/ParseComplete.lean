import Pl0Kit.Proofs.ParseRun

/-!
# Phrases are read by the parser

`Takes p ts a rest` says that from the tokens `ts` the rule `p` answers `a` and stands before
`rest`. Every rule takes the phrases of the grammar of the same name, as long as what follows cannot
continue the phrase and the budget is at least about three times the length of the phrase: each
round of nested rules passes at most three calls between two tokens.
-/

namespace Pl0Kit

open Act

/-! ## what can follow -/

theorem startsWith_of_kind {t : Token} {k k' : Kind} {ts : List Token} (ht : t.kind = k)
    (hne : k ≠ k') : startsWith k' (t :: ts) = false := by
  rw [startsWith_cons, ht, beq_eq_false_iff_ne]
  exact hne

/-- no sum can go on here -/
structure NoAdd (ts : List Token) : Prop where
  plus : startsWith .plus ts = false
  minus : startsWith .minus ts = false

/-- no product can go on here -/
structure NoMul (ts : List Token) : Prop where
  times : startsWith .times ts = false
  divide : startsWith .divide ts = false

/-- no expression can go on here -/
structure Ends (ts : List Token) : Prop where
  noAdd : NoAdd ts
  noMul : NoMul ts

/-- kinds of tokens that continue an expression -/
def isOperator (k : Kind) : Bool := [Kind.plus, .minus, .times, .divide].contains k

theorem ends_of_kind {t : Token} {k : Kind} {ts : List Token} (ht : t.kind = k)
    (hk : isOperator k = false) : Ends (t :: ts) := by
  simp only [isOperator, List.contains_cons, List.contains_nil, Bool.or_false,
    Bool.or_eq_false_iff, beq_eq_false_iff_ne] at hk
  obtain ⟨h₁, h₂, h₃, h₄⟩ := hk
  exact ⟨⟨startsWith_of_kind ht h₁, startsWith_of_kind ht h₂⟩,
    ⟨startsWith_of_kind ht h₃, startsWith_of_kind ht h₄⟩⟩

theorem FactorPhrase.head {ts : List Token} {f : Factor} (h : FactorPhrase ts f) :
    ∃ t us, ts = t :: us ∧ (t.kind = .name ∨ t.kind = .number ∨ t.kind = .lparen) := by
  cases h with
  | name ht => exact ⟨_, [], rfl, .inl ht.1⟩
  | number ht => exact ⟨_, [], rfl, .inr (.inl ht.1)⟩
  | paren hl _ _ => exact ⟨_, _, rfl, .inr (.inr hl)⟩

theorem FactorPhrase.length_pos {ts : List Token} {f : Factor} (h : FactorPhrase ts f) :
    0 < ts.length := by
  obtain ⟨t, us, rfl, _⟩ := h.head
  exact Nat.succ_pos _

theorem TermPhrase.length_pos {ts : List Token} {x : Term} (h : TermPhrase ts x) :
    0 < ts.length := by
  cases h with
  | mk hf _ =>
    rw [List.length_append]
    exact Nat.add_pos_left hf.length_pos _

theorem TermPhrase.noAdd {ts rest : List Token} {x : Term} (h : TermPhrase ts x) :
    NoAdd (ts ++ rest) := by
  cases h with
  | mk hf _ =>
    obtain ⟨t, us, rfl, ht | ht | ht⟩ := hf.head <;>
      exact ⟨startsWith_of_kind ht (by decide), startsWith_of_kind ht (by decide)⟩

theorem ExprPhrase.not_odd {ts rest : List Token} {e : Expr} (h : ExprPhrase ts e) :
    startsWith (.keyword .odd) (ts ++ rest) = false := by
  cases h with
  | mk hs ht hu =>
    cases hs with
    | @present t op hk => exact startsWith_of_kind hk (by cases op <;> decide)
    | absent =>
      cases ht with
      | mk hf _ =>
        obtain ⟨t, us, rfl, ht | ht | ht⟩ := hf.head <;> exact startsWith_of_kind ht (by decide)

theorem TermsPhrase.noMul {us rest : List Token} {xs : List (AddOp × Term)}
    (h : TermsPhrase us xs) (hr : NoMul rest) : NoMul (us ++ rest) := by
  cases h with
  | nil => exact hr
  | @cons t ts us op x xs ht _ _ =>
    exact ⟨startsWith_of_kind ht (by cases op <;> decide),
      startsWith_of_kind ht (by cases op <;> decide)⟩

/-- kinds of tokens that a statement can start with -/
def statementStarts : List Kind :=
  [.name, .keyword .call, .keyword .begin, .keyword .if, .keyword .while, .print]

theorem StatementPhrase.head {ts : List Token} {s : Statement} (h : StatementPhrase ts s) :
    ∃ t us, ts = t :: us ∧ t.kind ∈ statementStarts := by
  cases h with
  | assign ht _ _ => exact ⟨_, _, rfl, by simp [ht.1, statementStarts]⟩
  | call ht _ | block ht _ _ _ | ifThen ht _ _ _ | whileDo ht _ _ _ | print ht _ =>
    exact ⟨_, _, rfl, by simp [ht, statementStarts]⟩

theorem StatementPhrase.length_pos {ts : List Token} {s : Statement} (h : StatementPhrase ts s) :
    0 < ts.length := by
  obtain ⟨t, us, rfl, _⟩ := h.head
  exact Nat.succ_pos _

theorem StatementPhrase.startsWith {ts rest : List Token} {s : Statement} {k : Kind}
    (h : StatementPhrase ts s) (hk : statementStarts.contains k = false) :
    startsWith k (ts ++ rest) = false := by
  obtain ⟨t, us, rfl, ht⟩ := h.head
  refine startsWith_of_kind rfl fun hkt => ?_
  rw [hkt, ← List.contains_iff_mem, hk] at ht
  cases ht

theorem ProceduresPhrase.startsWith {ts rest : List Token} {ps : List (String × Block)} {k : Kind}
    (h : ProceduresPhrase ts ps) (hr : startsWith k rest = false)
    (hk : Kind.keyword .procedure ≠ k) : startsWith k (ts ++ rest) = false := by
  cases h with
  | nil => exact hr
  | cons ht _ _ _ _ _ => exact startsWith_of_kind ht hk

theorem VariablesPhrase.startsWith {ts rest : List Token} {o : Option (List String)} {k : Kind}
    (h : VariablesPhrase ts o) (hr : startsWith k rest = false) (hk : Kind.keyword .var ≠ k) :
    startsWith k (ts ++ rest) = false := by
  cases h with
  | absent => exact hr
  | present ht _ _ => exact startsWith_of_kind ht hk

namespace Parse

/-- from the tokens `ts` the rule `p` answers `a` and stands before `rest` -/
def Takes {α : Type} (p : Parse α) (ts : List Token) (a : α) (rest : List Token) : Prop :=
  ∀ c, c.Has ts → ∃ c', exec p c = (.ok a, c') ∧ c'.Has rest

section
variable {α β : Type} {ts us rest : List Token} {t : Token} {k : Kind}

theorem Takes.pure (a : α) (ts : List Token) : Takes (pure a) ts a ts :=
  fun c hc => ⟨c, rfl, hc⟩

theorem Takes.bind {p : Parse α} {f : α → Parse β} {a : α} {b : β} (hp : Takes p ts a us)
    (hf : Takes (f a) us b rest) : Takes (p >>= f) ts b rest := by
  intro c hc
  obtain ⟨c₁, h₁, hc₁⟩ := hp c hc
  obtain ⟨c₂, h₂, hc₂⟩ := hf c₁ hc₁
  exact ⟨c₂, by rw [exec_then h₁, h₂], hc₂⟩

theorem Takes.advance {p : Parse α} {a : α} (hp : Takes p ts a rest) :
    Takes (advance >>= fun _ => p) (t :: ts) a rest :=
  .bind (fun _ hc => advance_has hc) hp

theorem Takes.expect {p : Token → Parse α} {a : α} (hk : t.kind = k)
    (hp : Takes (p t) (t :: ts) a rest) : Takes (expect k >>= p) (t :: ts) a rest :=
  .bind (fun c hc => ⟨c, exec_expect hc hk, hc⟩) hp

/-- an expected token that is advanced over -/
theorem Takes.skip {p : Token → Parse α} {a : α} (hk : t.kind = k) (hp : Takes (p t) ts a rest) :
    Takes (Parse.expect k >>= fun t => Parse.advance >>= fun _ => p t) (t :: ts) a rest :=
  .expect hk (.advance hp)

/-- an expected name that is advanced over -/
theorem Takes.skipName {p : String → Parse α} {a : α} {x : String} (hx : t.IsName x)
    (hp : Takes (p x) ts a rest) :
    Takes (expectName >>= fun x => Parse.advance >>= fun _ => p x) (t :: ts) a rest :=
  .bind (fun c hc => ⟨c, exec_expectName hc hx, hc⟩) (.advance hp)

theorem Takes.sym {p : Option Token → Parse α} {a : α} (hp : Takes (p ts.head?) ts a rest) :
    Takes (Parse.sym >>= p) ts a rest :=
  .bind (fun c hc => ⟨c, exec_sym hc, hc⟩) hp

/-- the lookahead token is of the kind asked for -/
theorem Takes.found {p q : Parse α} {a : α} (hk : t.kind = k) (hp : Takes p (t :: ts) a rest) :
    Takes (isSym k >>= fun b => if b = true then p else q) (t :: ts) a rest := by
  refine .bind (fun c hc => ⟨c, exec_isSym hc, hc⟩) ?_
  rw [startsWith_cons, hk, if_pos (beq_self_eq_true k)]
  exact hp

/-- the lookahead token is of another kind, or there is none -/
theorem Takes.missed {p q : Parse α} {a : α} (hk : startsWith k ts = false)
    (hq : Takes q ts a rest) :
    Takes (isSym k >>= fun b => if b = true then p else q) ts a rest := by
  refine .bind (fun c hc => ⟨c, exec_isSym hc, hc⟩) ?_
  rw [hk, if_neg Bool.false_ne_true]
  exact hq

end

/-! ## expressions -/

theorem addOp?_none {ts : List Token} (h : NoAdd ts) : Takes addOp? ts none ts :=
  .missed h.plus (.missed h.minus (.pure none ts))

theorem addOp?_some {t : Token} {ts : List Token} {op : AddOp} (ht : t.kind = op.kind) :
    Takes addOp? (t :: ts) (some op) ts := by
  cases op with
  | plus => exact .found ht (.advance (.pure _ ts))
  | minus =>
    exact .missed (startsWith_of_kind ht (by decide)) (.found ht (.advance (.pure _ ts)))

theorem mulOp?_none {ts : List Token} (h : NoMul ts) : Takes mulOp? ts none ts :=
  .missed h.times (.missed h.divide (.pure none ts))

theorem mulOp?_some {t : Token} {ts : List Token} {op : MulOp} (ht : t.kind = op.kind) :
    Takes mulOp? (t :: ts) (some op) ts := by
  cases op with
  | times => exact .found ht (.advance (.pure _ ts))
  | divide =>
    exact .missed (startsWith_of_kind ht (by decide)) (.found ht (.advance (.pure _ ts)))

/-- the five rules of expressions, with a budget of `n` -/
structure ExprTakes (n : Nat) : Prop where
  expression : ∀ {ts e rest}, ExprPhrase ts e → Ends rest → 3 * ts.length + 2 ≤ n →
    Takes (expression n) (ts ++ rest) e rest
  expressionTail : ∀ {ts xs rest}, TermsPhrase ts xs → Ends rest → 3 * ts.length + 2 ≤ n →
    Takes (expressionTail n) (ts ++ rest) xs rest
  term : ∀ {ts x rest}, TermPhrase ts x → NoMul rest → 3 * ts.length + 1 ≤ n →
    Takes (term n) (ts ++ rest) x rest
  termTail : ∀ {ts xs rest}, FactorsPhrase ts xs → NoMul rest → 3 * ts.length + 1 ≤ n →
    Takes (termTail n) (ts ++ rest) xs rest
  factor : ∀ {ts f rest}, FactorPhrase ts f → 3 * ts.length ≤ n →
    Takes (factor? n) (ts ++ rest) (some f) rest

section
variable {n : Nat} {ts rest : List Token}

theorem sign_takes {ss : List Token} {sign : Option AddOp} (h : SignPhrase ss sign)
    (hr : NoAdd rest) : Takes addOp? (ss ++ rest) sign rest := by
  cases h with
  | absent => exact addOp?_none hr
  | present hk => exact addOp?_some hk

theorem expression_takes (ih : ExprTakes n) {e : Expr} (h : ExprPhrase ts e) (hr : Ends rest)
    (hn : 3 * ts.length + 2 ≤ n + 1) : Takes (expression (n + 1)) (ts ++ rest) e rest := by
  cases h with
  | mk hs ht hu =>
    simp only [List.length_append] at hn
    rw [expression, List.append_assoc, List.append_assoc]
    refine .bind (sign_takes hs ht.noAdd) ?_
    refine .bind (ih.term ht (hu.noMul hr.noMul) (by omega)) ?_
    have := ht.length_pos
    refine .bind (ih.expressionTail hu hr (by omega)) ?_
    exact .pure _ rest

theorem expressionTail_takes (ih : ExprTakes n) {xs : List (AddOp × Term)}
    (h : TermsPhrase ts xs) (hr : Ends rest) (hn : 3 * ts.length + 2 ≤ n + 1) :
    Takes (expressionTail (n + 1)) (ts ++ rest) xs rest := by
  rw [expressionTail]
  cases h with
  | nil => exact .bind (addOp?_none hr.noAdd) (.pure _ rest)
  | cons hk ht hu =>
    simp only [List.length_cons, List.length_append] at hn
    rw [List.cons_append, List.append_assoc]
    refine .bind (addOp?_some hk) ?_
    refine .bind (ih.term ht (hu.noMul hr.noMul) (by omega)) ?_
    refine .bind (ih.expressionTail hu hr (by omega)) ?_
    exact .pure _ rest

theorem term_takes (ih : ExprTakes n) {x : Term} (h : TermPhrase ts x) (hr : NoMul rest)
    (hn : 3 * ts.length + 1 ≤ n + 1) : Takes (term (n + 1)) (ts ++ rest) x rest := by
  cases h with
  | mk hf hu =>
    simp only [List.length_append] at hn
    have := hf.length_pos
    rw [term, List.append_assoc]
    refine .bind (ih.factor hf (by omega)) ?_
    refine .bind (ih.termTail hu hr (by omega)) ?_
    exact .pure _ rest

theorem termTail_takes (ih : ExprTakes n) {xs : List (MulOp × Factor)} (h : FactorsPhrase ts xs)
    (hr : NoMul rest) (hn : 3 * ts.length + 1 ≤ n + 1) :
    Takes (termTail (n + 1)) (ts ++ rest) xs rest := by
  rw [termTail]
  cases h with
  | nil => exact .bind (mulOp?_none hr) (.pure _ rest)
  | cons hk hf hu =>
    simp only [List.length_cons, List.length_append] at hn
    rw [List.cons_append, List.append_assoc]
    refine .bind (mulOp?_some hk) ?_
    refine .bind (ih.factor hf (by omega)) ?_
    refine .bind (ih.termTail hu hr (by omega)) ?_
    exact .pure _ rest

theorem factor?_takes (ih : ExprTakes n) {f : Factor} (h : FactorPhrase ts f)
    (hn : 3 * ts.length ≤ n + 1) : Takes (factor? (n + 1)) (ts ++ rest) (some f) rest := by
  rw [factor?]
  cases h with
  | @name t x ht =>
    obtain ⟨k, v, l, p⟩ := t
    obtain ⟨rfl, rfl⟩ := ht
    exact .sym (.advance (.pure _ rest))
  | @number t v ht =>
    obtain ⟨k, v, l, p⟩ := t
    obtain ⟨rfl, rfl⟩ := ht
    exact .sym (.advance (.pure _ rest))
  | @paren t u ts e hl he hu =>
    obtain ⟨k, v, l, p⟩ := t
    obtain rfl : k = .lparen := hl
    simp only [List.length_cons, List.length_append, List.length_nil] at hn
    rw [List.cons_append, List.append_assoc]
    refine .sym (.advance ?_)
    refine .bind (ih.expression he (ends_of_kind hu rfl) (by omega)) ?_
    exact .skip hu (.pure _ rest)

end

theorem exprTakes (n : Nat) : ExprTakes n := by
  induction n with
  | zero =>
    constructor
    case factor =>
      intro ts f rest h hn
      have := h.length_pos
      omega
    all_goals intros; omega
  | succ n ih =>
    exact ⟨expression_takes ih, expressionTail_takes ih, term_takes ih, termTail_takes ih,
      factor?_takes ih⟩

/-! ## statements -/

theorem relOp?_kind_eq (op : RelOp) : relOp? op.kind = some op := by
  cases op <;> rfl

theorem condition_takes {n : Nat} {ts rest : List Token} {x : Condition} (h : ConditionPhrase ts x)
    (hr : Ends rest) (hn : 3 * ts.length + 2 ≤ n) : Takes (condition n) (ts ++ rest) x rest := by
  cases h with
  | odd hk he =>
    simp only [List.length_cons] at hn
    refine .found hk (.advance ?_)
    exact .bind ((exprTakes n).expression he hr (by omega)) (.pure _ rest)
  | @compare t ts us l r op hl hk hu =>
    simp only [List.length_cons, List.length_append] at hn
    rw [List.append_assoc]
    refine .missed hl.not_odd ?_
    have hop : Ends (t :: us ++ rest) := ends_of_kind hk (by cases op <;> rfl)
    refine .bind ((exprTakes n).expression hl hop (by omega)) (.sym ?_)
    simp only [List.cons_append, List.head?_cons, hk, relOp?_kind_eq]
    refine .advance ?_
    exact .bind ((exprTakes n).expression hu hr (by omega)) (.pure _ rest)

/-- what the rules of statements do before a token of another kind -/
structure Skipped (n : Nat) (ts : List Token) : Prop where
  assign : startsWith .name ts = false → Takes (assign? n) ts none ts
  call : startsWith (.keyword .call) ts = false → Takes call? ts none ts
  begin : startsWith (.keyword .begin) ts = false → Takes (begin? (n + 1)) ts none ts
  ifThen : startsWith (.keyword .if) ts = false → Takes (if? (n + 1)) ts none ts
  whileDo : startsWith (.keyword .while) ts = false → Takes (while? (n + 1)) ts none ts

theorem skipped (n : Nat) (ts : List Token) : Skipped n ts where
  assign h := by
    refine .sym ?_
    cases ts with
    | nil => exact .pure none []
    | cons t us =>
      rw [startsWith_cons] at h
      obtain ⟨k, v, l, p⟩ := t
      split
      · rename_i x l p hs
        cases hs
        cases h
      · exact .pure none _
  call h := .missed h (.pure none ts)
  begin h := by rw [begin?]; exact .missed h (.pure none ts)
  ifThen h := by rw [if?]; exact .missed h (.pure none ts)
  whileDo h := by rw [while?]; exact .missed h (.pure none ts)

/-- the recursive rules of statements, with a budget of `n`; `compound` starts at the token before
its first statement -/
structure StatementTakes (n : Nat) : Prop where
  statement : ∀ {ts x rest}, StatementPhrase ts x → Ends rest → 3 * ts.length + 2 ≤ n →
    Takes (statement n) (ts ++ rest) x rest
  begin : ∀ {t u ts us x xs rest}, t.kind = .keyword .begin → StatementPhrase ts x →
    StatementsPhrase us xs → u.kind = .keyword .end → 3 * (ts.length + us.length + 2) + 1 ≤ n →
      Takes (begin? n) (t :: (ts ++ (us ++ u :: rest))) (some (.block (x :: xs))) rest
  compound : ∀ {t u ts us x xs rest}, StatementPhrase ts x → StatementsPhrase us xs →
    u.kind = .keyword .end → 3 * (ts.length + us.length + 2) ≤ n →
      Takes (compound n) (t :: (ts ++ (us ++ u :: rest))) (x :: xs) rest
  ifThen : ∀ {t u ts us c x rest}, t.kind = .keyword .if → ConditionPhrase ts c →
    u.kind = .keyword .then → StatementPhrase us x → Ends rest →
      3 * (ts.length + us.length + 2) ≤ n →
        Takes (if? n) (t :: (ts ++ u :: (us ++ rest))) (some (.ifThen c x)) rest
  whileDo : ∀ {t u ts us c x rest}, t.kind = .keyword .while → ConditionPhrase ts c →
    u.kind = .keyword .do → StatementPhrase us x → Ends rest →
      3 * (ts.length + us.length + 2) ≤ n →
        Takes (while? n) (t :: (ts ++ u :: (us ++ rest))) (some (.whileDo c x)) rest

section
variable {n : Nat} {t u : Token} {ts us rest : List Token} {c : Condition} {x : Statement}

theorem assign?_takes {y : String} {e : Expr} (ht : t.IsName y) (hu : u.kind = .update)
    (he : ExprPhrase ts e) (hr : Ends rest) (hn : 3 * ts.length + 2 ≤ n) :
    Takes (assign? n) (t :: u :: (ts ++ rest)) (some (.assign y e)) rest := by
  obtain ⟨k, v, l, p⟩ := t
  obtain ⟨rfl, rfl⟩ := ht
  refine .sym (.advance (.skip hu ?_))
  exact .bind ((exprTakes n).expression he hr hn) (.pure _ rest)

theorem print?_takes {e : Expr} (ht : t.kind = .print) (he : ExprPhrase ts e) (hr : Ends rest)
    (hn : 3 * ts.length + 2 ≤ n) :
    Takes (print? n) (t :: (ts ++ rest)) (some (.print e)) rest :=
  .found ht (.advance (.bind ((exprTakes n).expression he hr hn) (.pure _ rest)))

theorem statement_takes (ih : StatementTakes n) (h : StatementPhrase ts x) (hr : Ends rest)
    (hn : 3 * ts.length + 2 ≤ n + 1) : Takes (statement (n + 1)) (ts ++ rest) x rest := by
  -- rules that are tried before the right one need a budget of their own
  obtain ⟨m, rfl⟩ : ∃ m, n = m + 1 := ⟨n - 1, by have := h.length_pos; omega⟩
  have skip := skipped (m + 1) (ts ++ rest)
  have skip' := skipped m (ts ++ rest)
  rw [statement]
  cases h with
  | assign ht hu he =>
    simp only [List.length_cons] at hn
    exact .bind (assign?_takes ht hu he hr (by omega)) (.pure _ rest)
  | call ht hu =>
    refine .bind (skip.assign (startsWith_of_kind ht (by decide))) ?_
    exact .bind (.found ht (.advance (.skipName hu (.pure _ rest)))) (.pure _ rest)
  | block ht hs hss hu =>
    simp only [List.length_cons, List.length_append, List.length_nil] at hn
    refine .bind (skip.assign (startsWith_of_kind ht (by decide))) ?_
    refine .bind (skip.call (startsWith_of_kind ht (by decide))) ?_
    simp only [List.cons_append, List.append_assoc, List.nil_append]
    exact .bind (ih.begin ht hs hss hu (by omega)) (.pure _ rest)
  | ifThen ht hc hu hs =>
    simp only [List.length_cons, List.length_append] at hn
    refine .bind (skip.assign (startsWith_of_kind ht (by decide))) ?_
    refine .bind (skip.call (startsWith_of_kind ht (by decide))) ?_
    refine .bind (skip'.begin (startsWith_of_kind ht (by decide))) ?_
    simp only [List.cons_append, List.append_assoc]
    exact .bind (ih.ifThen ht hc hu hs hr (by omega)) (.pure _ rest)
  | whileDo ht hc hu hs =>
    simp only [List.length_cons, List.length_append] at hn
    refine .bind (skip.assign (startsWith_of_kind ht (by decide))) ?_
    refine .bind (skip.call (startsWith_of_kind ht (by decide))) ?_
    refine .bind (skip'.begin (startsWith_of_kind ht (by decide))) ?_
    refine .bind (skip'.ifThen (startsWith_of_kind ht (by decide))) ?_
    simp only [List.cons_append, List.append_assoc]
    exact .bind (ih.whileDo ht hc hu hs hr (by omega)) (.pure _ rest)
  | print ht he =>
    simp only [List.length_cons] at hn
    refine .bind (skip.assign (startsWith_of_kind ht (by decide))) ?_
    refine .bind (skip.call (startsWith_of_kind ht (by decide))) ?_
    refine .bind (skip'.begin (startsWith_of_kind ht (by decide))) ?_
    refine .bind (skip'.ifThen (startsWith_of_kind ht (by decide))) ?_
    refine .bind (skip'.whileDo (startsWith_of_kind ht (by decide))) ?_
    exact .bind (print?_takes ht he hr (by omega)) (.pure _ rest)

theorem begin?_takes (ih : StatementTakes n) {xs : List Statement} (ht : t.kind = .keyword .begin)
    (hs : StatementPhrase ts x) (hss : StatementsPhrase us xs) (hu : u.kind = .keyword .end)
    (hn : 3 * (ts.length + us.length + 2) + 1 ≤ n + 1) :
    Takes (begin? (n + 1)) (t :: (ts ++ (us ++ u :: rest))) (some (.block (x :: xs))) rest := by
  rw [begin?]
  refine .found ht ?_
  exact .bind (ih.compound hs hss hu (by omega)) (.pure _ rest)

theorem compound_takes (ih : StatementTakes n) {xs : List Statement} (hs : StatementPhrase ts x)
    (hss : StatementsPhrase us xs) (hu : u.kind = .keyword .end)
    (hn : 3 * (ts.length + us.length + 2) ≤ n + 1) :
    Takes (compound (n + 1)) (t :: (ts ++ (us ++ u :: rest))) (x :: xs) rest := by
  rw [compound]
  refine .advance ?_
  cases hss with
  | nil =>
    simp only [List.length_nil] at hn
    refine .bind (ih.statement hs (ends_of_kind hu rfl) (by omega)) ?_
    exact .found hu (.advance (.pure _ rest))
  | cons hv hs' hss =>
    simp only [List.length_cons, List.length_append] at hn
    simp only [List.cons_append, List.append_assoc]
    refine .bind (ih.statement hs (ends_of_kind hv rfl) (by omega)) ?_
    refine .missed (startsWith_of_kind hv (by decide)) (.expect hv ?_)
    exact .bind (ih.compound hs' hss hu (by omega)) (.pure _ rest)

theorem if?_takes (ih : StatementTakes n) (ht : t.kind = .keyword .if) (hc : ConditionPhrase ts c)
    (hu : u.kind = .keyword .then) (hs : StatementPhrase us x) (hr : Ends rest)
    (hn : 3 * (ts.length + us.length + 2) ≤ n + 1) :
    Takes (if? (n + 1)) (t :: (ts ++ u :: (us ++ rest))) (some (.ifThen c x)) rest := by
  rw [if?]
  refine .found ht (.advance ?_)
  refine .bind (condition_takes hc (ends_of_kind hu rfl) (by omega)) (.skip hu ?_)
  exact .bind (ih.statement hs hr (by omega)) (.pure _ rest)

theorem while?_takes (ih : StatementTakes n) (ht : t.kind = .keyword .while)
    (hc : ConditionPhrase ts c) (hu : u.kind = .keyword .do) (hs : StatementPhrase us x)
    (hr : Ends rest) (hn : 3 * (ts.length + us.length + 2) ≤ n + 1) :
    Takes (while? (n + 1)) (t :: (ts ++ u :: (us ++ rest))) (some (.whileDo c x)) rest := by
  rw [while?]
  refine .found ht (.advance ?_)
  refine .bind (condition_takes hc (ends_of_kind hu rfl) (by omega)) (.skip hu ?_)
  exact .bind (ih.statement hs hr (by omega)) (.pure _ rest)

end

theorem statementTakes (n : Nat) : StatementTakes n := by
  induction n with
  | zero => constructor <;> intros <;> omega
  | succ n ih =>
    exact ⟨statement_takes ih, begin?_takes ih, compound_takes ih, if?_takes ih, while?_takes ih⟩

/-! ## declarations -/

theorem define?_takes {ts rest : List Token} {d : List (String × Nat)} (h : DefinePhrase ts d)
    (hr : startsWith .name rest = false) :
    ∃ o : Option (String × Nat), o.toList = d ∧ Takes define? (ts ++ rest) o rest := by
  cases h with
  | absent =>
    refine ⟨none, rfl, .sym ?_⟩
    cases rest with
    | nil => exact .pure none []
    | cons t us =>
      rw [startsWith_cons] at hr
      obtain ⟨k, v, l, p⟩ := t
      rw [List.nil_append]
      split
      · rename_i x l p hs
        cases hs
        cases hr
      · exact .pure none _
  | @present t u v x n ht hu hv =>
    obtain ⟨k, w, l, p⟩ := t
    obtain ⟨rfl, rfl⟩ := ht
    refine ⟨some (x, n), rfl, .sym (.advance (.skip hu (.skip hv.1 ?_)))⟩
    rw [hv.2]
    exact .pure _ rest

theorem defines_takes {t u : Token} {ts rest : List Token} {ds : List (String × Nat)}
    (h : DefinesPhrase ts ds) (hu : u.kind = .eos) (n : Nat) (hn : ts.length + 1 ≤ n) :
    Takes (defines n) (t :: (ts ++ u :: rest)) ds rest := by
  induction h generalizing t n with
  | last hd =>
    obtain ⟨m, rfl⟩ : ∃ m, n = m + 1 := ⟨n - 1, by omega⟩
    rw [defines]
    obtain ⟨o, rfl, ho⟩ := define?_takes hd (startsWith_of_kind hu (by decide))
    exact .advance (.bind ho (.found hu (.advance (.pure _ rest))))
  | more hd hk _ ih =>
    obtain ⟨m, rfl⟩ : ∃ m, n = m + 1 := ⟨n - 1, by omega⟩
    simp only [List.length_append, List.length_cons] at hn
    rw [defines, List.append_assoc]
    obtain ⟨o, rfl, ho⟩ := define?_takes hd (startsWith_of_kind hk (by decide))
    refine .advance (.bind ho (.missed (startsWith_of_kind hk (by decide)) (.expect hk ?_)))
    exact .bind (ih m (by omega)) (.pure _ rest)

theorem constants?_takes {ts rest : List Token} {o : Option (List (String × Nat))}
    (h : ConstantsPhrase ts o) (hr : startsWith (.keyword .const) rest = false) (n : Nat)
    (hn : ts.length ≤ n) : Takes (constants? n) (ts ++ rest) o rest := by
  cases h with
  | absent => exact .missed hr (.pure none rest)
  | present ht hd hu =>
    simp only [List.length_cons, List.length_append, List.length_nil] at hn
    rw [List.cons_append, List.append_assoc]
    refine .found ht ?_
    rw [map_eq_pure_bind]
    exact .bind (defines_takes hd hu n (by omega)) (.pure _ rest)

theorem names_takes {t u : Token} {ts rest : List Token} {xs : List String}
    (h : NamesPhrase ts xs) (hu : u.kind = .eos) (n : Nat) (hn : ts.length ≤ n) :
    Takes (names n) (t :: (ts ++ u :: rest)) xs rest := by
  induction h generalizing t n with
  | last hx =>
    obtain ⟨m, rfl⟩ : ∃ m, n = m + 1 := ⟨n - 1, by simp at hn; omega⟩
    rw [names]
    exact .advance (.skipName hx (.found hu (.advance (.pure _ rest))))
  | more hx hk _ ih =>
    simp only [List.length_cons] at hn
    obtain ⟨m, rfl⟩ : ∃ m, n = m + 1 := ⟨n - 1, by omega⟩
    rw [names]
    refine .advance (.skipName hx (.missed (startsWith_of_kind hk (by decide)) (.expect hk ?_)))
    exact .bind (ih m (by omega)) (.pure _ rest)

theorem variables?_takes {ts rest : List Token} {o : Option (List String)}
    (h : VariablesPhrase ts o) (hr : startsWith (.keyword .var) rest = false) (n : Nat)
    (hn : ts.length ≤ n) : Takes (variables? n) (ts ++ rest) o rest := by
  cases h with
  | absent => exact .missed hr (.pure none rest)
  | present ht hx hu =>
    simp only [List.length_cons, List.length_append, List.length_nil] at hn
    rw [List.cons_append, List.append_assoc]
    refine .found ht ?_
    rw [map_eq_pure_bind]
    exact .bind (names_takes hx hu n (by omega)) (.pure _ rest)

/-! ## blocks and programs -/

structure BlockTakes (n : Nat) : Prop where
  block : ∀ {ts b rest}, BlockPhrase ts b → Ends rest → 3 * ts.length + 3 ≤ n →
    Takes (block n) (ts ++ rest) b rest
  procedures : ∀ {ts ps rest}, ProceduresPhrase ts ps →
    startsWith (.keyword .procedure) rest = false → 3 * ts.length + 1 ≤ n →
      Takes (procedures n) (ts ++ rest) ps rest

theorem block_takes {n : Nat} (ih : BlockTakes n) {ts rest : List Token} {b : Block}
    (h : BlockPhrase ts b) (hr : Ends rest) (hn : 3 * ts.length + 3 ≤ n + 1) :
    Takes (block (n + 1)) (ts ++ rest) b rest := by
  cases h with
  | mk hc hv hp hs =>
    simp only [List.length_append] at hn
    simp only [block, List.append_assoc]
    have hpos := hs.length_pos
    refine .bind (constants?_takes hc (hv.startsWith (hp.startsWith (hs.startsWith rfl) (by decide))
      (by decide)) n (by omega)) ?_
    refine .bind (variables?_takes hv (hp.startsWith (hs.startsWith rfl) (by decide)) n
      (by omega)) ?_
    refine .bind (ih.procedures hp (hs.startsWith rfl) (by omega)) ?_
    exact .bind ((statementTakes n).statement hs hr (by omega)) (.pure _ rest)

theorem procedures_takes {n : Nat} (ih : BlockTakes n) {ts rest : List Token}
    {ps : List (String × Block)} (h : ProceduresPhrase ts ps)
    (hr : startsWith (.keyword .procedure) rest = false) (hn : 3 * ts.length + 1 ≤ n + 1) :
    Takes (procedures (n + 1)) (ts ++ rest) ps rest := by
  rw [procedures]
  cases h with
  | nil => exact .missed hr (.pure _ rest)
  | cons ht hu hv hb hw hp =>
    simp only [List.length_cons, List.length_append] at hn
    simp only [List.cons_append, List.append_assoc]
    refine .found ht (.advance (.skipName hu (.skip hv ?_)))
    refine .bind (ih.block hb (ends_of_kind hw rfl) (by omega)) (.skip hw ?_)
    exact .bind (ih.procedures hp hr (by omega)) (.pure _ rest)

theorem blockTakes (n : Nat) : BlockTakes n := by
  induction n with
  | zero => constructor <;> intros <;> omega
  | succ n ih => exact ⟨block_takes ih, procedures_takes ih⟩

theorem program_takes {n : Nat} {ts rest : List Token} {p : Program} (h : ProgramPhrase ts p)
    (hn : 3 * ts.length ≤ n) : Takes (program n) (ts ++ rest) p rest := by
  cases h with
  | mk hb ht =>
    simp only [List.length_append, List.length_cons, List.length_nil] at hn
    rw [List.append_assoc]
    refine .bind ((blockTakes n).block hb (ends_of_kind ht rfl) (by omega)) ?_
    exact .skip ht (.pure _ rest)

end Parse

end Pl0Kit
