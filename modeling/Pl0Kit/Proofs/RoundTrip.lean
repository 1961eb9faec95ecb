import Pl0Kit.Proofs.Shape

/-!
# Written programs read back

Tokens that show the symbols of a program are a phrase for it (`phrase_of_symbols`), and a laid out
text has such tokens (`tokens_of_layout`).  Since the parser takes every phrase, a program that is
written down in any layout is read back as it was.
-/

namespace Pl0Kit

open Pl0Kit.Symbol

/-! ## tokens that show a program are a phrase for it -/

/-- tokens that show `xs` and then `ys` -/
theorem split_symbols {ts : List Token} {xs ys : List Symbol}
    (h : ts.map Token.symbol = xs ++ ys) :
    ∃ us vs, ts = us ++ vs ∧ us.map Token.symbol = xs ∧ vs.map Token.symbol = ys :=
  List.map_eq_append_iff.1 h

/-- tokens of which the first shows `x` -/
theorem uncons_symbols {ts : List Token} {x : Symbol} {ys : List Symbol}
    (h : ts.map Token.symbol = x :: ys) :
    ∃ t vs, ts = t :: vs ∧ t.symbol = x ∧ vs.map Token.symbol = ys :=
  List.map_eq_cons_iff.1 h

theorem single_symbol {ts : List Token} {x : Symbol} (h : ts.map Token.symbol = [x]) :
    ∃ t, ts = [t] ∧ t.symbol = x :=
  List.map_eq_singleton_iff.1 h

mutual

theorem Expr.phrase : ∀ (e : Expr) {ts : List Token}, ts.map Token.symbol = e.symbols →
    ExprPhrase ts e
  | .mk none first rest, ts, h => by
    obtain ⟨us, vs, rfl, hu, hv⟩ := split_symbols h
    exact .mk .absent (Term.phrase first hu) (Expr.tailPhrase rest hv)
  | .mk (some op) first rest, ts, h => by
    obtain ⟨t, ts, rfl, ht, h⟩ := uncons_symbols h
    obtain ⟨us, vs, rfl, hu, hv⟩ := split_symbols h
    exact .mk (.present (Token.kind_of_symbol ht)) (Term.phrase first hu)
      (Expr.tailPhrase rest hv)

theorem Expr.tailPhrase : ∀ (xs : List (AddOp × Term)) {ts : List Token},
    ts.map Token.symbol = Expr.tailSymbols xs → TermsPhrase ts xs
  | [], ts, h => by
    obtain rfl := List.map_eq_nil_iff.1 h
    exact .nil
  | (op, x) :: rest, ts, h => by
    obtain ⟨t, ts, rfl, ht, h⟩ := uncons_symbols h
    obtain ⟨us, vs, rfl, hu, hv⟩ := split_symbols h
    exact .cons (Token.kind_of_symbol ht) (Term.phrase x hu) (Expr.tailPhrase rest hv)

theorem Term.phrase : ∀ (x : Term) {ts : List Token}, ts.map Token.symbol = x.symbols →
    TermPhrase ts x
  | .mk first rest, ts, h => by
    obtain ⟨us, vs, rfl, hu, hv⟩ := split_symbols h
    exact .mk (Factor.phrase first hu) (Term.tailPhrase rest hv)

theorem Term.tailPhrase : ∀ (xs : List (MulOp × Factor)) {ts : List Token},
    ts.map Token.symbol = Term.tailSymbols xs → FactorsPhrase ts xs
  | [], ts, h => by
    obtain rfl := List.map_eq_nil_iff.1 h
    exact .nil
  | (op, x) :: rest, ts, h => by
    obtain ⟨t, ts, rfl, ht, h⟩ := uncons_symbols h
    obtain ⟨us, vs, rfl, hu, hv⟩ := split_symbols h
    exact .cons (Token.kind_of_symbol ht) (Factor.phrase x hu) (Term.tailPhrase rest hv)

theorem Factor.phrase : ∀ (f : Factor) {ts : List Token}, ts.map Token.symbol = f.symbols →
    FactorPhrase ts f
  | .name x, ts, h => by
    obtain ⟨t, rfl, ht⟩ := single_symbol h
    exact .name (Token.isName_of_symbol ht)
  | .number n, ts, h => by
    obtain ⟨t, rfl, ht⟩ := single_symbol h
    exact .number (Token.isNumber_of_symbol ht)
  | .paren e, ts, h => by
    obtain ⟨l, ts, rfl, hl, h⟩ := uncons_symbols h
    obtain ⟨us, vs, rfl, hu, hv⟩ := split_symbols h
    obtain ⟨r, rfl, hr⟩ := single_symbol hv
    exact .paren (Token.kind_of_symbol hl) (Expr.phrase e hu) (Token.kind_of_symbol hr)

end

theorem Condition.phrase (c : Condition) {ts : List Token}
    (h : ts.map Token.symbol = c.symbols) : ConditionPhrase ts c := by
  cases c with
  | odd e =>
    obtain ⟨t, ts, rfl, ht, h⟩ := uncons_symbols h
    exact .odd (Token.kind_of_symbol ht) (Expr.phrase e h)
  | compare l op r =>
    obtain ⟨us, vs, rfl, hu, hv⟩ := split_symbols h
    obtain ⟨t, vs, rfl, ht, hv⟩ := uncons_symbols hv
    exact .compare (Expr.phrase l hu) (Token.kind_of_symbol ht) (Expr.phrase r hv)

mutual

theorem Statement.phrase : ∀ (s : Statement) {ts : List Token}, s.Shaped →
    ts.map Token.symbol = s.symbols → StatementPhrase ts s
  | .assign x e, ts, _, h => by
    obtain ⟨t, ts, rfl, ht, h⟩ := uncons_symbols h
    obtain ⟨u, ts, rfl, hu, h⟩ := uncons_symbols h
    exact .assign (Token.isName_of_symbol ht) (Token.kind_of_symbol hu) (Expr.phrase e h)
  | .call p, ts, _, h => by
    obtain ⟨t, ts, rfl, ht, h⟩ := uncons_symbols h
    obtain ⟨u, rfl, hu⟩ := single_symbol h
    exact .call (Token.kind_of_symbol ht) (Token.isName_of_symbol hu)
  | .block [], ts, hs, _ => absurd rfl hs.1
  | .block (s :: ss), ts, hs, h => by
    obtain ⟨t, ts, rfl, ht, h⟩ := uncons_symbols h
    obtain ⟨us, vs, rfl, hu, h⟩ := split_symbols h
    obtain ⟨vs, ws, rfl, hv, h⟩ := split_symbols h
    obtain ⟨w, rfl, hw⟩ := single_symbol h
    obtain ⟨-, hfirst, hlater⟩ := hs
    exact .block (Token.kind_of_symbol ht) (Statement.phrase s hfirst hu)
      (Statement.laterPhrase ss hlater hv) (Token.kind_of_symbol hw)
  | .ifThen c s, ts, hs, h => by
    obtain ⟨t, ts, rfl, ht, h⟩ := uncons_symbols h
    obtain ⟨us, vs, rfl, hu, hv⟩ := split_symbols h
    obtain ⟨v, vs, rfl, hmid, hbody⟩ := uncons_symbols hv
    exact .ifThen (Token.kind_of_symbol ht) (Condition.phrase c hu) (Token.kind_of_symbol hmid)
      (Statement.phrase s hs hbody)
  | .whileDo c s, ts, hs, h => by
    obtain ⟨t, ts, rfl, ht, h⟩ := uncons_symbols h
    obtain ⟨us, vs, rfl, hu, hv⟩ := split_symbols h
    obtain ⟨v, vs, rfl, hmid, hbody⟩ := uncons_symbols hv
    exact .whileDo (Token.kind_of_symbol ht) (Condition.phrase c hu) (Token.kind_of_symbol hmid)
      (Statement.phrase s hs hbody)
  | .print e, ts, _, h => by
    obtain ⟨t, ts, rfl, ht, h⟩ := uncons_symbols h
    exact .print (Token.kind_of_symbol ht) (Expr.phrase e h)

theorem Statement.laterPhrase : ∀ (ss : List Statement) {ts : List Token},
    Statement.Shaped.shapedAll ss → ts.map Token.symbol = Statement.symbols.laterSymbols ss →
      StatementsPhrase ts ss
  | [], ts, _, h => by
    obtain rfl := List.map_eq_nil_iff.1 h
    exact .nil
  | s :: ss, ts, hs, h => by
    obtain ⟨t, ts, rfl, ht, h⟩ := uncons_symbols h
    obtain ⟨us, vs, rfl, hu, hv⟩ := split_symbols h
    exact .cons (Token.kind_of_symbol ht) (Statement.phrase s hs.1 hu)
      (Statement.laterPhrase ss hs.2 hv)

end

theorem define_phrase (d : String × Nat) {ts : List Token}
    (h : ts.map Token.symbol = defineSymbols d) : DefinePhrase ts [d] := by
  obtain ⟨t, ts, rfl, ht, h⟩ := uncons_symbols h
  obtain ⟨u, ts, rfl, hu, h⟩ := uncons_symbols h
  obtain ⟨v, rfl, hv⟩ := single_symbol h
  exact .present (Token.isName_of_symbol ht) (Token.kind_of_symbol hu)
    (Token.isNumber_of_symbol hv)

theorem defines_phrase : ∀ (ds : List (String × Nat)) {ts : List Token},
    ts.map Token.symbol = commaList (ds.map defineSymbols) → DefinesPhrase ts ds
  | [], ts, h => by
    obtain rfl := List.map_eq_nil_iff.1 h
    exact .last .absent
  | [d], ts, h => .last (define_phrase d h)
  | d :: d' :: ds, ts, h => by
    obtain ⟨us, vs, rfl, hu, hv⟩ := split_symbols h
    obtain ⟨v, vs, rfl, hv, hrest⟩ := uncons_symbols hv
    exact .more (define_phrase d hu) (Token.kind_of_symbol hv) (defines_phrase (d' :: ds) hrest)

theorem constants_phrase (ds : Option (List (String × Nat))) {ts : List Token}
    (h : ts.map Token.symbol = constsSymbols ds) : ConstantsPhrase ts ds := by
  cases ds with
  | none =>
    obtain rfl := List.map_eq_nil_iff.1 h
    exact .absent
  | some ds =>
    obtain ⟨t, ts, rfl, ht, h⟩ := uncons_symbols h
    obtain ⟨us, vs, rfl, hu, h⟩ := split_symbols h
    obtain ⟨v, rfl, hv⟩ := single_symbol h
    exact .present (Token.kind_of_symbol ht) (defines_phrase ds hu) (Token.kind_of_symbol hv)

theorem names_phrase : ∀ (xs : List String) {ts : List Token}, xs ≠ [] →
    ts.map Token.symbol = commaList (xs.map fun x => [.name x]) → NamesPhrase ts xs
  | [], _, hne, _ => absurd rfl hne
  | [x], ts, _, h => by
    obtain ⟨t, rfl, ht⟩ := single_symbol h
    exact .last (Token.isName_of_symbol ht)
  | x :: y :: xs, ts, _, h => by
    obtain ⟨t, ts, rfl, ht, h⟩ := uncons_symbols h
    obtain ⟨u, ts, rfl, hu, h⟩ := uncons_symbols h
    exact .more (Token.isName_of_symbol ht) (Token.kind_of_symbol hu)
      (names_phrase (y :: xs) (List.cons_ne_nil y xs) h)

theorem variables_phrase (xs : Option (List String)) {ts : List Token} (hne : xs ≠ some [])
    (h : ts.map Token.symbol = varsSymbols xs) : VariablesPhrase ts xs := by
  cases xs with
  | none =>
    obtain rfl := List.map_eq_nil_iff.1 h
    exact .absent
  | some xs =>
    have hxs : xs ≠ [] := fun hx => hne (congrArg some hx)
    obtain ⟨t, ts, rfl, ht, h⟩ := uncons_symbols h
    obtain ⟨us, vs, rfl, hu, h⟩ := split_symbols h
    obtain ⟨v, rfl, hv⟩ := single_symbol h
    exact .present (Token.kind_of_symbol ht) (names_phrase xs hxs hu) (Token.kind_of_symbol hv)

mutual

theorem Block.phrase : ∀ (b : Block) {ts : List Token}, b.Shaped →
    ts.map Token.symbol = b.symbols → BlockPhrase ts b
  | .mk consts vars procs body, ts, hb, h => by
    obtain ⟨hvars, hprocs, hbody⟩ := hb
    obtain ⟨cs, ts, rfl, hc, h⟩ := split_symbols h
    obtain ⟨vs, ts, rfl, hv, h⟩ := split_symbols h
    obtain ⟨ps, ss, rfl, hp, hs⟩ := split_symbols h
    exact .mk (constants_phrase consts hc) (variables_phrase vars hvars hv)
      (Block.procPhrase procs hprocs hp) (Statement.phrase body hbody hs)

theorem Block.procPhrase : ∀ (procs : List (String × Block)) {ts : List Token},
    Block.shapedProcs procs → ts.map Token.symbol = Block.procSymbols procs →
      ProceduresPhrase ts procs
  | [], ts, _, h => by
    obtain rfl := List.map_eq_nil_iff.1 h
    exact .nil
  | (p, b) :: procs, ts, hs, h => by
    obtain ⟨t, ts, rfl, ht, h⟩ := uncons_symbols h
    obtain ⟨u, ts, rfl, hu, h⟩ := uncons_symbols h
    obtain ⟨v, ts, rfl, hv, h⟩ := uncons_symbols h
    obtain ⟨bs, ws, rfl, hb, hw⟩ := split_symbols h
    obtain ⟨w, ws, rfl, hw, hrest⟩ := uncons_symbols hw
    exact .cons (Token.kind_of_symbol ht) (Token.isName_of_symbol hu) (Token.kind_of_symbol hv)
      (Block.phrase b hs.1 hb) (Token.kind_of_symbol hw) (Block.procPhrase procs hs.2 hrest)

end

theorem Program.phrase (p : Program) {ts : List Token} (hp : p.block.Shaped)
    (h : ts.map Token.symbol = p.symbols) : ProgramPhrase ts p := by
  obtain ⟨bs, ws, rfl, hb, h⟩ := split_symbols h
  obtain ⟨w, rfl, hw⟩ := single_symbol h
  exact .mk (Block.phrase p.block hp hb) (Token.kind_of_symbol hw)

/-! ## reading back -/

/-- the tokens of a written program start with a phrase for it -/
theorem begins_of_layout {p : Program} (hp : p.Shaped) {lead text : List Char} (hlead : Gap lead)
    (h : Layout p.symbols text) (tail : List Char) :
    ∃ used rest, Begins (tokensOf (String.ofList (lead ++ (text ++ tail)))) used rest p := by
  have hdot : p.symbols.getLast? = some (.sign .dot) := List.getLast?_append
  obtain ⟨l₁, p₁, h₁⟩ := tokensAt_gap hlead 1 0 (text ++ tail)
  obtain ⟨ts, l₂, p₂, hts, h₂⟩ := tokens_of_layout h hp.names hdot tail l₁ p₁
  refine ⟨ts, tokensAt l₂ p₂ tail, ?_, p.phrase hp.block hts⟩
  rw [tokensOf_eq, String.toList_ofList]
  exact h₁.trans h₂

/-- **Written programs are read back**: parsing gives the program itself and its tree, in any layout
and with any text after the final dot.  The programs meant are those that parsing can give. -/
theorem parseText_of_layout :
    (∀ (p : Program), p.Shaped → ∀ lead text tail : List Char, Gap lead → Layout p.symbols text →
      (parseText (String.ofList (lead ++ (text ++ tail)))).1 = .ok p ∧
      (ParserRule.program.parse.run.run
        (({} : Cursor).input (String.ofList (lead ++ (text ++ tail))))).1 = .ok p.toValue) ∧
    ∀ (s : String) (p : Program), (parseText s).1 = .ok p → p.Shaped := by
  refine ⟨fun p hp lead text tail hlead h => ?_, fun s p => shaped_of_parse⟩
  obtain ⟨used, rest, hb⟩ := begins_of_layout hp hlead h tail
  obtain ⟨c, hc, -⟩ := Parse.program_complete (Cursor.input_has _) hb
  have hparse : parseText (String.ofList (lead ++ (text ++ tail))) = (.ok p, c) := hc
  refine ⟨by rw [hparse], ?_⟩
  show (Act.exec (Program.toValue <$> Parse.complete Parse.program) _).1 = _
  rw [Act.exec_map, hc]

/-- one variable, and a compound statement that sets it to `(2)` -/
def assignTwo : Program :=
  ⟨.mk none (some ["x"]) []
    (.block [.assign "x" (.mk none (.mk (.paren (.mk none (.mk (.number 2) []) [])) []) [])])⟩

/-- `Var x ; bEgin x := ( 2 ) #!` and, on the next line, `end .` -/
def assignTwoText : List Char :=
  ['V', 'a', 'r'] ++ ([' '] ++ (['x'] ++ (['\t'] ++ ([';'] ++ (['\n'] ++
    (['b', 'E', 'g', 'i', 'n'] ++ ([' '] ++ (['x'] ++ ([' '] ++ ([':', '='] ++ ([' '] ++ (['('] ++
    ([' '] ++ (['2'] ++ ([' '] ++ ([')'] ++ ([' ', '#', '!', '\n'] ++
    (['e', 'n', 'd'] ++ ([' '] ++ ['.'])))))))))))))))))))

theorem assignTwo_shaped : assignTwo.Shaped := by
  refine ⟨fun x hx => ?_, nofun, trivial, List.cons_ne_nil _ _, trivial, trivial⟩
  have hmem : x = "x" := by
    simpa [assignTwo, Program.symbols, Block.symbols, constsSymbols, varsSymbols, commaList,
      Block.procSymbols, Statement.symbols, Statement.symbols.laterSymbols, Expr.symbols,
      Expr.tailSymbols, Term.symbols, Term.tailSymbols, Factor.symbols, ofKeyword] using hx
  subst hmem
  exact ⟨⟨'x', [], rfl, by decide, by simp⟩, by decide +kernel⟩

theorem assignTwo_layout : Layout assignTwo.symbols assignTwoText := by
  have blank : Gap [' '] := .blank (.inl rfl) .nil
  have hblank : [' '] ≠ [] := List.cons_ne_nil ' ' []
  have comment : Gap ([' '] ++ '#' :: (['!'] ++ ['\n'])) :=
    .blank (.inl rfl) (.comment (by decide) .nil)
  refine .cons (.keyword (w := .var) rfl) blank hblank ?_
  refine .cons (.name "x") (.blank (.inr (.inl rfl)) .nil) (List.cons_ne_nil _ _) ?_
  refine .cons (.mark (by decide)) (.blank (.inr (.inr rfl)) .nil) (List.cons_ne_nil _ _) ?_
  refine .cons (.keyword (w := .begin) rfl) blank hblank ?_
  refine .cons (.name "x") blank hblank ?_
  refine .cons (.mark (by decide)) blank hblank ?_
  refine .cons (.mark (by decide)) blank hblank ?_
  refine .cons (.number 2) blank hblank ?_
  refine .cons (.mark (by decide)) comment (List.cons_ne_nil _ _) ?_
  refine .cons (.keyword (w := .end) rfl) blank hblank ?_
  exact .last (.mark (by decide))

theorem assignTwo_reads_back :
    (parseText (String.ofList (['\n'] ++ (assignTwoText ++ ['e', 'n', 'd'])))).1 =
      .ok assignTwo :=
  (parseText_of_layout.1 assignTwo assignTwo_shaped ['\n'] assignTwoText ['e', 'n', 'd']
    (.blank (.inr (.inr rfl)) .nil) assignTwo_layout).1

end Pl0Kit
