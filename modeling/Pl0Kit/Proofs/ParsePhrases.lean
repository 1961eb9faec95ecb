import Pl0Kit.Proofs.ParseRun

/-!
# What a run of the parser comes to

A rule that answers has consumed a phrase for its answer and stands right after it.  A rule that
fails has consumed the beginning of a phrase: some further tokens would have completed it.  It fails
because the token ahead is another one than it wants, or there is none; and once, in a condition
that is cut off before its comparison operator, because it looks at a token that is not there.

`After n k pre hs p P D` says both of a rule `p` that goes on where the tokens `pre` are consumed
and the tokens `hs` are ahead: together with `pre`, what it consumes is a phrase of `P`, or the
beginning of one of `D`.  It is kept by the ways in which the parser puts rules together, so that
the lemma about a rule follows its text.  No rule runs out of its budget `n`, if that is at least
three times the number of tokens and `k`.

* `program_reads`   what is consumed with an answer;
* `program_sticks`  what is consumed before a failure.
-/

namespace Pl0Kit

open Act

/-! ## tokens to complete a phrase with -/

namespace Token

/-- some token of a kind -/
def sample (k : Kind) : Token where
  kind := k
  payload := match k with
    | .name => .text "x"
    | .number => .number 0
    | _ => .text ""
  line := 0
  pos := 0

theorem kind_sample (k : Kind) : (sample k).kind = k := rfl

theorem name_sample : (sample .name).IsName "x" := ⟨rfl, rfl⟩

theorem number_sample : (sample .number).IsNumber 0 := ⟨rfl, rfl⟩

end Token

open Token (sample kind_sample name_sample number_sample)

theorem zero_factor : FactorPhrase [sample .number] (.number 0) := .number number_sample

theorem zero_term : TermPhrase [sample .number] (.mk (.number 0) []) := .mk zero_factor .nil

theorem zero_expression : ExprPhrase [sample .number] (.mk none (.mk (.number 0) []) []) :=
  .mk .absent zero_term .nil

/-- `! 0` -/
theorem printZero_statement :
    StatementPhrase [sample .print, sample .number] (.print (.mk none (.mk (.number 0) []) [])) :=
  .print rfl zero_expression

/-- `! 0` is a block -/
theorem printZero_block :
    BlockPhrase [sample .print, sample .number]
      (.mk none none [] (.print (.mk none (.mk (.number 0) []) []))) :=
  .mk .absent .absent .nil printZero_statement

/-- an expression is the beginning of a comparison -/
theorem lessZero_condition {ts : List Token} {l : Expr} (h : ExprPhrase ts l) :
    ConditionPhrase (ts ++ [sample .lt, sample .number])
      (.compare l .lt (.mk none (.mk (.number 0) []) [])) :=
  .compare h rfl zero_expression

namespace Parse

/-! ## outcomes -/

section

variable {α β γ δ : Type} {P : List Token → α → Prop} {D : List Token → β → Prop}
  {R : List Token → γ → Prop} {C : List Token → δ → Prop} {n k j : Nat} {c : Cursor} {e : Fault}
  {pre hs ts rest more : List Token} {t : Token} {kind : Kind} {p q : Parse α}

/-- why a rule stops before `rest`, where `more` would complete its phrase -/
inductive Reason (c : Cursor) (rest more : List Token) : Fault → Prop
  | wanted (w : String) : Reason c rest more (unexpected c w)
  | comparison {t : Token} {us : List Token} {op : RelOp} : rest = [] → more = t :: us →
      t.kind = op.kind → Reason c rest more .noSuchField

theorem Reason.append (h : Reason c rest more e) (post : List Token) :
    Reason c rest (more ++ post) e := by
  cases h with
  | wanted w => exact .wanted w
  | comparison hr hm ht => exact .comparison hr (by rw [hm]; rfl) ht

/-- the outcome of a run before `ts`, where `pre` was consumed, with a budget that lasts or does
not -/
inductive Comes (P : List Token → α → Prop) (D : List Token → β → Prop) (pre ts : List Token)
    (lasts : Prop) : Except Fault α × Cursor → Prop
  | answer {used rest : List Token} {a : α} {c : Cursor} : ts = used ++ rest → c.Has rest →
      P (pre ++ used) a → Comes P D pre ts lasts (.ok a, c)
  | stop {used rest more : List Token} {b : β} {e : Fault} {c : Cursor} : ts = used ++ rest →
      c.Has rest → D (pre ++ (used ++ more)) b → Reason c rest more e →
        Comes P D pre ts lasts (.error e, c)
  | spent {e : Fault} {c : Cursor} : ¬ lasts → Comes P D pre ts lasts (.error e, c)

/-- after `pre` and before `hs`, the rule consumes the rest of a phrase of `P`, or stops inside one
of `D` -/
def After (n k : Nat) (pre hs : List Token) (p : Parse α) (P : List Token → α → Prop)
    (D : List Token → β → Prop) : Prop :=
  ∀ ⦃c ts⦄, c.Has (hs ++ ts) → (∀ t ∈ hs ++ ts, t.Proper) →
    Comes P D pre (hs ++ ts) (3 * (hs ++ ts).length + k ≤ n) (exec p c)

/-- a part that may be missing: then nothing is consumed -/
def Optional (R : List Token → α → Prop) (used : List Token) : Option α → Prop
  | some a => R used a
  | none => used = []

/-- a rule of the grammar that reads phrases of `R` -/
def Rule (n k : Nat) (p : Parse α) (R : List Token → α → Prop) : Prop := After n k [] [] p R R

/-- a rule that may find nothing to read -/
def OptRule (n k : Nat) (p : Parse (Option α)) (R : List Token → α → Prop) : Prop :=
  After n k [] [] p (Optional R) R

/-- a phrase after the token `t` -/
inductive Past (t : Token) (R : List Token → α → Prop) : List Token → α → Prop
  | mk {us : List Token} {a : α} : R us a → Past t R (t :: us) a

theorem proper_of_append {us vs : List Token} (h : ∀ t ∈ us ++ vs, t.Proper) :
    ∀ t ∈ vs, t.Proper :=
  fun t ht => h t (List.mem_append_right us ht)

namespace After

theorem answer {a : α} {phrase : List Token} (hphrase : pre = phrase) (h : P phrase a) :
    After n k pre hs (pure a) P D := by
  intro c ts hc _
  subst hphrase
  exact .answer (List.nil_append _).symm hc (by rwa [List.append_nil])

/-- something else is wanted inside a phrase -/
theorem fail {b : β} {phrase : List Token} (wanted : String) (hpre : pre <+: phrase)
    (h : D phrase b) : After n k pre hs (fail wanted) P D := by
  intro c ts hc _
  obtain ⟨more, rfl⟩ := hpre
  exact .stop (List.nil_append _).symm hc h (.wanted wanted)

theorem spent (pre hs : List Token) : After 0 (k + 1) pre hs (throw .outOfFuel) P D :=
  fun _ _ _ _ => .spent (by omega)

/-- a budget that is at least as large -/
theorem budget {m : Nat} (h : After n j pre hs p P D)
    (hm : ∀ x, 3 * x + k ≤ m → 3 * x + j ≤ n) : After m k pre hs p P D := by
  intro c ts hc hp
  have hrun := h hc hp
  generalize exec p c = r at hrun ⊢
  cases hrun with
  | answer hts hc' hP => exact .answer hts hc' hP
  | stop hts hc' hD hreason => exact .stop hts hc' hD hreason
  | spent hlasts => exact .spent fun h => hlasts (hm _ h)

/-- a rule that calls others with a budget of one less -/
theorem succ (h : After n k pre hs p P D) : After (n + 1) (k + 1) pre hs p P D :=
  h.budget fun _ _ => by omega

theorem mono (h : After n j pre hs p P D) (hjk : j ≤ k) : After n k pre hs p P D :=
  h.budget fun _ _ => by omega

/-- a rule, and then another one after the phrase that it has consumed -/
theorem bind {p : Parse γ} {f : γ → Parse α} (hp : After n j [] hs p R C) (hj : j ≤ k)
    (hC : ∀ {us d}, C us d → ∃ phrase b, pre ++ us <+: phrase ∧ D phrase b)
    (hf : ∀ us a, R us a → After n (k + 3 * us.length) (pre ++ us) [] (f a) P D) :
    After n k pre hs (p >>= f) P D := by
  intro c ts hc hproper
  have hfirst := hp hc hproper
  rw [exec_bind]
  generalize exec p c = r at hfirst ⊢
  generalize hs ++ ts = ts at hfirst hproper
  cases hfirst with
  | spent hlasts => exact .spent (by omega)
  | @stop used rest more d e c' hts hc' hd hreason =>
    obtain ⟨_, b, ⟨post, rfl⟩, hb⟩ := hC hd
    rw [List.nil_append, List.append_assoc, List.append_assoc] at hb
    exact .stop hts hc' hb (hreason.append post)
  | @answer used rest a c' hts hc' ha =>
    subst hts
    have hsecond := hf used a ha hc' (proper_of_append hproper)
    show Comes P D pre _ _ (exec (f a) c')
    generalize exec (f a) c' = r at hsecond ⊢
    cases hsecond with
    | answer hts hc'' hP =>
      rw [List.nil_append] at hts
      rw [List.append_assoc] at hP
      exact .answer (by rw [hts, List.append_assoc]) hc'' hP
    | stop hts hc'' hD hreason =>
      rw [List.nil_append] at hts
      rw [List.append_assoc, ← List.append_assoc used] at hD
      exact .stop (by rw [hts, List.append_assoc]) hc'' hD hreason
    | spent hlasts =>
      refine .spent fun h => hlasts ?_
      rw [List.length_append] at h
      rw [List.nil_append]
      omega

/-- a rule whose answer completes the phrase -/
theorem last {p : Parse γ} {f : γ → α} {g : γ → β} (hp : After n j [] hs p R R) (hj : j ≤ k)
    (hP : ∀ {us a}, D us (g a) → P us (f a))
    (hR : ∀ {us a}, R us a → ∃ phrase, pre ++ us = phrase ∧ D phrase (g a)) :
    After n k pre hs (p >>= fun a => pure (f a)) P D := by
  refine hp.bind hj (fun h => ?_) fun us a h => ?_
  · obtain ⟨phrase, hphrase, hD⟩ := hR h
    exact ⟨phrase, _, hphrase ▸ List.prefix_rfl, hD⟩
  · obtain ⟨phrase, hphrase, hD⟩ := hR h
    exact .answer hphrase (hP hD)

/-- a token that is advanced over leaves three more of the budget -/
theorem advance (h : After n (k + 3) (pre ++ [t]) [] p P D) :
    After n k pre [t] (advance >>= fun _ => p) P D := by
  intro c ts hc hproper
  have hrun := h hc.step (fun u hu => hproper u (List.mem_cons_of_mem t hu))
  rw [exec_then (exec_advance hc)]
  generalize exec p c.step = r at hrun ⊢
  cases hrun with
  | @answer used rest a c' hts hc' hP =>
    have htoken : [t] ++ ts = ([t] ++ used) ++ rest := congrArg (t :: ·) hts
    rw [List.append_assoc] at hP
    exact .answer htoken hc' hP
  | @stop used rest more b e c' hts hc' hD hreason =>
    have htoken : [t] ++ ts = ([t] ++ used) ++ rest := congrArg (t :: ·) hts
    rw [List.append_assoc, ← List.append_assoc [t]] at hD
    exact .stop htoken hc' hD hreason
  | spent hlasts =>
    refine .spent fun h => hlasts ?_
    rw [List.singleton_append, List.length_cons] at h
    rw [List.nil_append]
    omega

/-- a test of the token ahead -/
theorem test (hp : ∀ t, t.kind = kind → After n k pre [t] p P D) (hq : After n k pre [] q P D) :
    After n k pre [] (isSym kind >>= fun b => if b = true then p else q) P D := by
  intro c ts hc hproper
  rw [exec_then (exec_isSym hc)]
  split
  · rename_i hstart
    obtain ⟨t, rest, hts, ht⟩ := startsWith_iff.1 hstart
    rw [hts] at hc hproper ⊢
    exact hp t ht hc hproper
  · exact hq hc hproper

/-- a token that must be of a kind -/
theorem expect {f : Token → Parse α} {b : β} {phrase : List Token} (hpre : pre <+: phrase)
    (h : D phrase b) (hf : ∀ t, t.kind = kind → t.Proper → After n k pre [t] (f t) P D) :
    After n k pre [] (expect kind >>= f) P D := by
  intro c ts hc hproper
  rcases expect_cases kind hc with ⟨t, rest, hts, ht, hmet⟩ | ⟨-, hmissed⟩
  · rw [exec_then hmet]
    rw [hts] at hc hproper ⊢
    exact hf t ht (hproper t List.mem_cons_self) hc hproper
  · rw [exec_bind, hmissed]
    exact @fail _ _ P D n k pre [] b phrase _ hpre h c ts hc hproper

theorem expectName {f : String → Parse α} {b : β} {phrase : List Token} (hpre : pre <+: phrase)
    (h : D phrase b) (hf : ∀ t x, t.IsName x → After n k pre [t] (f x) P D) :
    After n k pre [] (expectName >>= f) P D := by
  rw [Parse.expectName, bind_assoc]
  refine .expect hpre h fun t ht hproper => ?_
  obtain ⟨x, hx⟩ := hproper.1 ht
  rw [hx, pure_bind]
  exact hf t x ⟨ht, hx⟩

/-- a look at the token ahead -/
theorem look {f : Option Token → Parse α} (hsome : ∀ t, After n k pre [t] (f (some t)) P D)
    (hnone : ∀ ⦃c⦄, c.Has [] → Comes P D pre [] (k ≤ n) (exec (f none) c)) :
    After n k pre [] (sym >>= f) P D := by
  intro c ts hc hproper
  rw [exec_then (exec_sym hc)]
  cases ts with
  | nil =>
    have hrun := hnone hc
    rwa [List.append_nil, List.length_nil, Nat.mul_zero, Nat.zero_add]
  | cons t ts => exact hsome t hc hproper

/-- an alternative that is taken if it is there -/
theorem orElse {p : Parse (Option α)} {f : Option α → Parse α} (hp : OptRule n k p P)
    (hsome : ∀ a, f (some a) = pure a) (hnone : Rule n k (f none) P) : Rule n k (p >>= f) P := by
  refine hp.bind (Nat.le_refl k) (fun {us a} h => ⟨us, a, List.prefix_rfl, h⟩) fun us o ho => ?_
  cases o with
  | none =>
    obtain rfl : us = [] := ho
    exact hnone
  | some a =>
    rw [hsome]
    exact .answer rfl ho

end After

end

/-! ## expressions -/

/-- no phrase, for rules that never fail -/
def NoPhrase (_ : List Token) (_ : Unit) : Prop := False

theorem addOp?_phrase (n : Nat) : After n 0 [] [] addOp? SignPhrase NoPhrase :=
  .test (fun _ ht => .advance (.answer rfl (.present ht)))
    (.test (fun _ ht => .advance (.answer rfl (.present ht))) (.answer rfl .absent))

theorem mulOp?_phrase (n : Nat) : After n 0 [] [] mulOp?
    (Optional fun used op => ∃ t, used = [t] ∧ t.kind = MulOp.kind op) NoPhrase :=
  .test (fun t ht => .advance (.answer rfl ⟨t, rfl, ht⟩))
    (.test (fun t ht => .advance (.answer rfl ⟨t, rfl, ht⟩)) (.answer rfl rfl))

/-- the five rules of expressions, with a budget of `n` -/
structure ExprRules (n : Nat) : Prop where
  expression : Rule n 3 (expression n) ExprPhrase
  expressionTail : Rule n 1 (expressionTail n) TermsPhrase
  term : Rule n 2 (term n) TermPhrase
  termTail : Rule n 1 (termTail n) FactorsPhrase
  factor : OptRule n 1 (factor? n) FactorPhrase

section

variable {n : Nat}

theorem expression_phrase (ih : ExprRules n) :
    Rule (n + 1) 3 (expression (n + 1)) ExprPhrase := by
  simp only [expression]
  refine .succ (.bind (addOp?_phrase n) (by omega) False.elim fun ss sign hsign => ?_)
  refine .bind ih.term (by omega) (fun h => ⟨_, _, by simp, .mk hsign h .nil⟩) fun us x hx => ?_
  exact .last ih.expressionTail (by omega) id fun h => ⟨_, by simp, .mk hsign hx h⟩

theorem expressionTail_phrase (ih : ExprRules n) :
    Rule (n + 1) 1 (expressionTail (n + 1)) TermsPhrase := by
  simp only [expressionTail]
  refine .succ (.bind (addOp?_phrase n) (by omega) False.elim fun ss sign hsign => ?_)
  cases hsign with
  | absent => exact .answer rfl .nil
  | @present t op ht =>
    refine .bind ih.term (by simp) (fun h => ⟨_, _, by simp, .cons ht h .nil⟩) fun us x hx => ?_
    exact .last ih.expressionTail (by simp; omega) id fun h => ⟨_, by simp, .cons ht hx h⟩

theorem term_phrase (ih : ExprRules n) : Rule (n + 1) 2 (term (n + 1)) TermPhrase := by
  simp only [term]
  refine .succ (.bind ih.factor (by omega) (fun h => ⟨_, _, by simp, .mk h .nil⟩) fun us x hx => ?_)
  cases x with
  | none =>
    obtain rfl : us = [] := hx
    exact .fail _ List.nil_prefix zero_term
  | some x => exact .last ih.termTail (by omega) id fun h => ⟨_, by simp, .mk hx h⟩

theorem termTail_phrase (ih : ExprRules n) :
    Rule (n + 1) 1 (termTail (n + 1)) FactorsPhrase := by
  simp only [termTail]
  refine .succ (.bind (mulOp?_phrase n) (by omega) False.elim fun ss op hop => ?_)
  cases op with
  | none =>
    obtain rfl : ss = [] := hop
    exact .answer rfl .nil
  | some op =>
    obtain ⟨t, rfl, ht⟩ := hop
    refine .bind ih.factor (by simp) (fun h => ⟨_, _, by simp, .cons ht h .nil⟩) fun us x hx => ?_
    cases x with
    | none =>
      obtain rfl : us = [] := hx
      exact .fail _ (by simp) (.cons ht zero_factor .nil)
    | some x => exact .last ih.termTail (by simp; omega) id fun h => ⟨_, by simp, .cons ht hx h⟩

theorem factor?_phrase (ih : ExprRules n) :
    OptRule (n + 1) 1 (factor? (n + 1)) FactorPhrase := by
  simp only [factor?]
  refine .succ (.look (fun t => ?_) fun c hc => .answer rfl hc rfl)
  split
  · rename_i ht
    cases ht
    exact .advance (.answer rfl (.name ⟨rfl, rfl⟩))
  · rename_i ht
    cases ht
    exact .advance (.answer rfl (.number ⟨rfl, rfl⟩))
  · rename_i v l q ht
    have hl : t.kind = .lparen := by rw [Option.some.inj ht]
    have hr := kind_sample .rparen
    refine .advance (.bind ih.expression (by omega) (fun h => ⟨_, _, by simp, .paren hl h hr⟩)
      fun us e he => ?_)
    exact .expect (by simp) (.paren hl he hr) fun r hr _ =>
      .advance (.answer (by simp) (.paren hl he hr))
  · exact .answer rfl rfl

theorem exprRules (n : Nat) : ExprRules n := by
  induction n with
  | zero => constructor <;> exact .spent [] []
  | succ n ih =>
    exact ⟨expression_phrase ih, expressionTail_phrase ih, term_phrase ih, termTail_phrase ih,
      factor?_phrase ih⟩

end

/-! ## statements -/

theorem relOp?_kind {k : Kind} {op : RelOp} (h : relOp? k = some op) : k = op.kind := by
  unfold relOp? at h
  split at h <;> cases h <;> rfl

theorem condition_phrase (n : Nat) : Rule n 3 (condition n) ConditionPhrase := by
  have hexpr := (exprRules n).expression
  refine .test (fun t ht => .advance (.last hexpr (by omega) id fun h => ⟨_, rfl, .odd ht h⟩)) ?_
  refine .bind hexpr (by omega) (fun h => ⟨_, _, by simp, lessZero_condition h⟩) fun us l hl => ?_
  refine .look (fun t => ?_) fun c hc => ?_
  · cases hop : relOp? t.kind with
    | none =>
      simp only [hop]
      exact .fail _ (by simp) (lessZero_condition hl)
    | some op =>
      simp only [hop]
      exact .advance
        (.last hexpr (by omega) id fun h => ⟨_, by simp, .compare hl (relOp?_kind hop) h⟩)
  · -- there is no token to look at
    have hkind : (sample .lt).kind = RelOp.lt.kind := rfl
    have hless : ConditionPhrase ([] ++ us ++ ([] ++ [sample .lt, sample .number])) _ :=
      lessZero_condition hl
    exact .stop rfl hc hless (.comparison rfl rfl hkind)

theorem assign?_phrase (n : Nat) :
    OptRule n 1 (assign? n) StatementPhrase := by
  refine .look (fun t => ?_) fun c hc => .answer rfl hc rfl
  split
  · rename_i x l q ht
    have hx : t.IsName x := by
      rw [Option.some.inj ht]
      exact ⟨rfl, rfl⟩
    refine .advance
      (.expect (by simp) (.assign hx (kind_sample _) zero_expression) fun u hu _ => ?_)
    exact .advance (.last (exprRules n).expression (by omega) id fun h => ⟨_, rfl, .assign hx hu h⟩)
  · exact .answer rfl rfl

theorem print?_phrase (n : Nat) :
    OptRule n 1 (print? n) StatementPhrase := by
  refine .test (fun t ht => .advance ?_) (.answer rfl rfl)
  exact .last (exprRules n).expression (by omega) id fun h => ⟨_, rfl, .print ht h⟩

theorem call?_phrase (n : Nat) : OptRule n 1 call? StatementPhrase := by
  refine .test (fun t ht => .advance ?_) (.answer rfl rfl)
  exact .expectName (by simp) (.call ht name_sample) fun u p hp =>
    .advance (.answer rfl (.call ht hp))

/-- the statements of a compound statement up to its end -/
inductive BodyPhrase : List Token → List Statement → Prop
  | mk {u : Token} {ts us : List Token} {s : Statement} {rest : List Statement} :
      StatementPhrase ts s → StatementsPhrase us rest → u.kind = .keyword .end →
        BodyPhrase (ts ++ (us ++ [u])) (s :: rest)

/-- the recursive rules of statements, with a budget of `n`; `compound` starts at any token -/
structure StatementRules (n : Nat) : Prop where
  statement : Rule n 3 (statement n) StatementPhrase
  begin : OptRule n 2 (begin? n) StatementPhrase
  compound : ∀ t, After n 1 [] [t] (compound n) (Past t BodyPhrase) (Past t BodyPhrase)
  ifThen : OptRule n 1 (if? n) StatementPhrase
  whileDo : OptRule n 1 (while? n) StatementPhrase

section

variable {n : Nat}

theorem statement_phrase (ih : StatementRules n) :
    Rule (n + 1) 3 (statement (n + 1)) StatementPhrase := by
  simp only [statement]
  refine .succ (.orElse ((assign?_phrase n).mono (by omega)) (fun _ => rfl) ?_)
  refine .orElse ((call?_phrase n).mono (by omega)) (fun _ => rfl) ?_
  refine .orElse ih.begin (fun _ => rfl) ?_
  refine .orElse (ih.ifThen.mono (by omega)) (fun _ => rfl) ?_
  refine .orElse (ih.whileDo.mono (by omega)) (fun _ => rfl) ?_
  refine .orElse ((print?_phrase n).mono (by omega)) (fun _ => rfl) ?_
  exact .fail _ List.nil_prefix printZero_statement

theorem begin?_phrase (ih : StatementRules n) :
    OptRule (n + 1) 2 (begin? (n + 1)) StatementPhrase := by
  simp only [begin?]
  refine .succ (.test (fun t ht => .last (ih.compound t) (by omega) id ?_) (.answer rfl rfl))
  rintro _ _ ⟨⟨hs, hss, hu⟩⟩
  exact ⟨_, rfl, .block ht hs hss hu⟩

theorem compound_phrase (ih : StatementRules n) (t : Token) :
    After (n + 1) 1 [] [t] (compound (n + 1)) (Past t BodyPhrase) (Past t BodyPhrase) := by
  have hend := kind_sample (.keyword .end)
  simp only [compound]
  refine .succ (.advance (.bind ih.statement (by omega)
    (fun h => ⟨_, _, by simp, .mk (.mk h .nil hend)⟩) fun us s hs => ?_))
  refine .test (fun u hu => .advance (.answer (by simp) (.mk (.mk hs .nil hu)))) ?_
  refine .expect (by simp) (.mk (.mk hs .nil hend)) fun u hu _ =>
    .last (ih.compound u) (by omega) id ?_
  rintro _ _ ⟨⟨hs', hss, hv⟩⟩
  exact ⟨_, by simp, .mk (.mk hs (.cons hu hs' hss) hv)⟩

/-- a condition between two keywords, and the statement that it guards -/
theorem guarded_phrase (ih : StatementRules n) {k l : Kind}
    {form : Condition → Statement → Statement}
    (hform : ∀ {t u : Token} {ts us : List Token} {b : Condition} {s : Statement}, t.kind = k →
      ConditionPhrase ts b → u.kind = l → StatementPhrase us s →
        StatementPhrase (t :: (ts ++ u :: us)) (form b s)) :
    OptRule (n + 1) 1 (do
      if ← isSym k then
        advance
        let b ← condition n
        let _ ← expect l
        advance
        let s ← statement n
        pure (some (form b s))
      else pure none) StatementPhrase := by
  have hl := kind_sample l
  refine .succ (.test (fun t ht => .advance ?_) (.answer rfl rfl))
  refine .bind (condition_phrase n) (by omega)
    (fun h => ⟨_, _, by simp, hform ht h hl printZero_statement⟩) fun us b hb => ?_
  refine .expect (by simp) (hform ht hb hl printZero_statement) fun u hu _ => .advance ?_
  exact .last ih.statement (by omega) id fun h => ⟨_, by simp, hform ht hb hu h⟩

theorem if?_phrase (ih : StatementRules n) :
    OptRule (n + 1) 1 (if? (n + 1)) StatementPhrase := by
  rw [if?]
  exact guarded_phrase ih .ifThen

theorem while?_phrase (ih : StatementRules n) :
    OptRule (n + 1) 1 (while? (n + 1)) StatementPhrase := by
  rw [while?]
  exact guarded_phrase ih .whileDo

theorem statementRules (n : Nat) : StatementRules n := by
  induction n with
  | zero =>
    constructor
    case compound => exact fun t => .spent [] [t]
    all_goals exact .spent [] []
  | succ n ih =>
    exact ⟨statement_phrase ih, begin?_phrase ih, compound_phrase ih, if?_phrase ih,
      while?_phrase ih⟩

end

/-! ## declarations -/

/-- declarations up to the separator after them -/
inductive EndedPhrase {α : Type} (R : List Token → α → Prop) : List Token → α → Prop
  | mk {u : Token} {us : List Token} {a : α} : R us a → u.kind = .eos → EndedPhrase R (us ++ [u]) a

theorem define?_phrase (n : Nat) :
    After n 1 [] [] define? (fun used d => DefinePhrase used d.toList) DefinePhrase := by
  refine .look (fun t => ?_) fun c hc => .answer rfl hc .absent
  split
  · rename_i x l q ht
    have hx : t.IsName x := by
      rw [Option.some.inj ht]
      exact ⟨rfl, rfl⟩
    refine .advance (.expect (by simp) (.present hx (kind_sample _) number_sample) fun u hu _ => ?_)
    refine .advance (.expect (by simp) (.present hx hu number_sample) fun v hv hproper =>
      .advance ?_)
    obtain ⟨m, hm⟩ := hproper.2 hv
    rw [hm]
    exact .answer rfl (.present hx hu ⟨hv, hm⟩)
  · exact .answer rfl .absent

theorem defines_phrase (n : Nat) (t : Token) : After n 1 [] [t] (defines n)
    (Past t (EndedPhrase DefinesPhrase)) (Past t (EndedPhrase DefinesPhrase)) := by
  induction n generalizing t with
  | zero => exact .spent [] [t]
  | succ n ih =>
    have heos := kind_sample .eos
    simp only [defines]
    refine .succ (.advance (.bind (define?_phrase n) (by omega)
      (fun h => ⟨_, _, by simp, .mk (.mk (.last h) heos)⟩) fun us d hd => ?_))
    refine .test (fun u hu => .advance (.answer (by simp) (.mk (.mk (.last hd) hu)))) ?_
    refine .expect (by simp) (.mk (.mk (.last hd) heos)) fun u hu _ => .last (ih u) (by omega) id ?_
    rintro _ _ ⟨⟨hds, hv⟩⟩
    exact ⟨_, by simp, .mk (.mk (.more hd hu hds) hv)⟩

theorem constants?_phrase (n : Nat) :
    Rule n 1 (constants? n) ConstantsPhrase := by
  simp only [constants?, map_eq_pure_bind]
  refine .test (fun t ht => .last (defines_phrase n t) (by omega) id ?_) (.answer rfl .absent)
  rintro _ _ ⟨⟨hds, hu⟩⟩
  exact ⟨_, rfl, .present ht hds hu⟩

theorem names_phrase (n : Nat) (t : Token) : After n 1 [] [t] (names n)
    (Past t (EndedPhrase NamesPhrase)) (Past t (EndedPhrase NamesPhrase)) := by
  induction n generalizing t with
  | zero => exact .spent [] [t]
  | succ n ih =>
    have heos := kind_sample .eos
    simp only [names]
    refine .succ
      (.advance (.expectName (by simp) (.mk (.mk (.last name_sample) heos)) fun v x hx => ?_))
    refine .advance (.test (fun u hu => .advance (.answer (by simp) (.mk (.mk (.last hx) hu)))) ?_)
    refine .expect (by simp) (.mk (.mk (.last hx) heos)) fun u hu _ => .last (ih u) (by omega) id ?_
    rintro _ _ ⟨⟨hxs, hw⟩⟩
    exact ⟨_, by simp, .mk (.mk (.more hx hu hxs) hw)⟩

theorem variables?_phrase (n : Nat) :
    Rule n 1 (variables? n) VariablesPhrase := by
  simp only [variables?, map_eq_pure_bind]
  refine .test (fun t ht => .last (names_phrase n t) (by omega) id ?_) (.answer rfl .absent)
  rintro _ _ ⟨⟨hxs, hu⟩⟩
  exact ⟨_, rfl, .present ht hxs hu⟩

/-! ## blocks and programs -/

structure BlockRules (n : Nat) : Prop where
  block : Rule n 4 (block n) BlockPhrase
  procedures : Rule n 1 (procedures n) ProceduresPhrase

section

variable {n : Nat}

theorem block_phrase (ih : BlockRules n) :
    Rule (n + 1) 4 (block (n + 1)) BlockPhrase := by
  have hs := printZero_statement
  simp only [block]
  refine .succ (.bind (constants?_phrase n) (by omega)
    (fun h => ⟨_, _, by simp, .mk h .absent .nil hs⟩) fun cs consts hcs => ?_)
  refine .bind (variables?_phrase n) (by omega) (fun h => ⟨_, _, by simp, .mk hcs h .nil hs⟩)
    fun vs vars hvs => ?_
  refine .bind ih.procedures (by omega) (fun h => ⟨_, _, by simp, .mk hcs hvs h hs⟩)
    fun ps procs hps => ?_
  exact .last (statementRules n).statement (by omega) id fun h => ⟨_, by simp, .mk hcs hvs hps h⟩

theorem procedures_phrase (ih : BlockRules n) :
    Rule (n + 1) 1 (procedures (n + 1)) ProceduresPhrase := by
  have heos := kind_sample .eos
  simp only [procedures]
  refine .succ (.test (fun t ht => .advance ?_) (.answer rfl .nil))
  refine .expectName (by simp) (.cons ht name_sample heos printZero_block heos .nil)
    fun u p hp => ?_
  refine .advance (.expect (by simp) (.cons ht hp heos printZero_block heos .nil) fun v hv _ => ?_)
  refine .advance (.bind ih.block (by omega) (fun h => ⟨_, _, by simp, .cons ht hp hv h heos .nil⟩)
    fun bs b hb => ?_)
  refine .expect (by simp) (.cons ht hp hv hb heos .nil) fun w hw _ => .advance ?_
  exact .last ih.procedures (by omega) id fun h => ⟨_, by simp, .cons ht hp hv hb hw h⟩

theorem blockRules (n : Nat) : BlockRules n := by
  induction n with
  | zero => constructor <;> exact .spent [] []
  | succ n ih => exact ⟨block_phrase ih, procedures_phrase ih⟩

theorem program_phrase (n : Nat) : Rule n 4 (program n) ProgramPhrase := by
  have hdot := kind_sample .dot
  refine .bind (blockRules n).block (by omega) (fun h => ⟨_, _, by simp, .mk h hdot⟩)
    fun bs b hb => ?_
  exact .expect (by simp) (.mk hb hdot) fun t ht _ => .advance (.answer (by simp) (.mk hb ht))

end

/-- a program that is answered is that of the tokens consumed -/
theorem program_reads (n : Nat) {c c' : Cursor} {ts : List Token} {p : Program} (hc : c.Has ts)
    (hp : ∀ t ∈ ts, t.Proper) (h : exec (program n) c = (.ok p, c')) :
    ∃ used rest, ts = used ++ rest ∧ c'.Has rest ∧ ProgramPhrase used p := by
  have hrun := program_phrase n hc hp
  rw [h] at hrun
  cases hrun with
  | answer hts hc' hP => exact ⟨_, _, hts, hc', hP⟩

/-- the beginning of a phrase was consumed, and there is a reason to stop -/
def Stuck {α : Type} (R : List Token → α → Prop) (ts : List Token) (e : Fault)
    (c : Cursor) : Prop :=
  ∃ used rest more a, ts = used ++ rest ∧ c.Has rest ∧ R (used ++ more) a ∧ Reason c rest more e

/-- with a budget of three for each token and four more, reading fails only inside a program -/
theorem program_sticks (n : Nat) {c c' : Cursor} {ts : List Token} {e : Fault} (hc : c.Has ts)
    (hp : ∀ t ∈ ts, t.Proper) (hn : 3 * ts.length + 4 ≤ n)
    (h : exec (program n) c = (.error e, c')) : Stuck ProgramPhrase ts e c' := by
  have hrun := program_phrase n hc hp
  rw [h] at hrun
  cases hrun with
  | stop hts hc' hD hreason => exact ⟨_, _, _, _, hts, hc', hD, hreason⟩
  | spent hlasts => exact absurd hn hlasts

end Parse

end Pl0Kit
