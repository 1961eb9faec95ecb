import Pl0Kit.Proofs.Completion
import Pl0Kit.Proofs.ParseLocal
import Pl0Kit.Proofs.ParsePhrases

/-!
# Syntax errors

A failed parse has consumed the beginning of a program (`Parse.program_sticks`), and no program goes
on with the token that it stopped at, since the parser does the same before that token whatever
follows (`Parse.program_follows`).  So a syntax error is reported at the first impossible token, or
at the end of a text that is cut off.

A text that is cut off right before the comparison operator of a condition is the only one that
fails otherwise.

* `syntax_error_at_first_impossible_token`  where syntax errors are reported;
* `parse_failures`                          which texts fail otherwise.
-/

namespace Pl0Kit

open Act Parse

/-! ## what a failure leaves -/

/-- parsing a text is a run before its tokens, with a budget that is enough for them -/
theorem parseText_run (s : String) : ∃ (c : Cursor) (n : Nat), c.Has (tokensOf s) ∧
    c.label = some "<input>" ∧ 3 * (tokensOf s).length + 4 ≤ n ∧
    parseText s = exec (program n) c := by
  have hc := Cursor.input_has s
  refine ⟨({} : Cursor).input s, _, hc, ?_, ?_, exec_complete program _⟩
  · rw [Cursor.input, Cursor.label_step]
  · have hsize := (({} : Cursor).input s).length_tokens_le
    rw [hc.tokens] at hsize
    rw [Cursor.budget]
    omega

/-- a failed parse of a text stopped inside a program -/
theorem parse_stops {s : String} {e : Fault} (h : (parseText s).1 = .error e) :
    (parseText s).2.label = some "<input>" ∧
    Stuck ProgramPhrase (tokensOf s) e (parseText s).2 := by
  obtain ⟨c, n, hc, hlabel, hn, hrun⟩ := parseText_run s
  have hfollows : Follows [] [] Anywhere (program n) (program n) := program_follows (Nat.le_refl n)
  rw [hrun] at h ⊢
  refine ⟨(hfollows.forward hc trivial).1.trans hlabel, ?_⟩
  exact program_sticks n hc (proper_tokensOf s) hn (Prod.ext h rfl)

/-- no program has the tokens up to the place of a syntax error, and then others -/
theorem no_program_beyond {s : String} {e : Fault} {xs ys ts us : List Token}
    (h : (parseText s).1 = .error e) (he : e.IsSyntax) (hs : tokensOf s = xs ++ ts)
    (hstop : (parseText s).2.Has (ys ++ ts)) (hy : Shared ts us ys) (p : Program) :
    ¬ ProgramPhrase (xs ++ us) p := by
  intro hp
  obtain ⟨c, n, hc, -, -, hrun⟩ := parseText_run s
  rw [hrun] at h hstop
  rw [hs] at hc
  -- the same run before the other tokens, with a budget that is enough for the program
  obtain ⟨m, hm⟩ : ∃ m, m = n + 3 * (xs ++ us).length := ⟨_, rfl⟩
  have hfollows : Follows ts us Anywhere (program n) (program m) := program_follows (by omega)
  have hforward := (hfollows.forward hc trivial).2
  rw [hstop.tokens] at hforward
  have hx : Shared ts us xs := hy.of_suffix (suffix_of_append hforward)
  have hregular : Regular (exec (program n) c).1 := by
    intro e' he'
    rw [h] at he'
    cases he'
    exact he
  have hd := Cursor.replay_has "" (xs ++ us)
  have hagrees := (hfollows.agrees hc hd hx trivial hstop hy hregular).1
  have hd' : (Cursor.replay "" (xs ++ us)).Has ((xs ++ us) ++ []) := by rwa [List.append_nil]
  obtain ⟨d', hok, -⟩ := program_takes hp (show 3 * (xs ++ us).length ≤ m by omega) _ hd'
  rw [hok, h] at hagrees
  cases hagrees

/-! ## tokens of the same kinds -/

/-- if an accepted text starts with tokens of the kinds of `xs`, then a first part of `xs` is a
program, or `xs` is a first part of one -/
theorem program_of_kinds {s : String} {xs : List Token} (hs : Accepted s)
    (hk : xs.map Token.kind <+: (tokensOf s).map Token.kind) (hx : ∀ t ∈ xs, t.Proper) :
    (∃ us vs p, xs = us ++ vs ∧ ProgramPhrase us p) ∨ ∃ more p, ProgramPhrase (xs ++ more) p := by
  obtain ⟨used, rest, p, hts, hp⟩ := accepted_iff.1 hs
  have hproper := proper_tokensOf s
  rw [hts] at hk hproper
  obtain ⟨l, hl⟩ := hk
  rw [List.map_append] at hl
  rcases List.append_eq_append_iff.1 hl with ⟨ks, hused, -⟩ | ⟨ks, hxs, -⟩
  · obtain ⟨us, more, rfl, hus, -⟩ := List.map_eq_append_iff.1 hused
    have hlikes : Likes (xs ++ more) (us ++ more) := by
      refine .of_kinds (by rw [List.map_append, List.map_append, hus]) fun t ht => ?_
      rcases List.mem_append.1 ht with ht | ht
      · exact hx t ht
      · exact hproper t (by simp [ht])
    exact .inr ⟨more, hp.recast hlikes⟩
  · obtain ⟨us, vs, rfl, hus, -⟩ := List.map_eq_append_iff.1 hxs
    have hlikes : Likes us used := .of_kinds hus fun t ht => hx t (List.mem_append_left vs ht)
    obtain ⟨p', hp'⟩ := hp.recast hlikes
    exact .inl ⟨us, vs, p', rfl, hp'⟩

theorem not_accepted {s : String} {e : Fault} (h : (parseText s).1 = .error e) : ¬ Accepted s := by
  rintro ⟨p, hp⟩
  rw [h] at hp
  cases hp

/-- `t` cannot stand after the tokens `us`, which themselves can be the first ones of a program -/
structure FirstImpossible (us : List Token) (t : Token) : Prop where
  possible : ∃ s, Accepted s ∧ us <+: tokensOf s
  impossible : ∀ s, Accepted s → ¬ (us ++ [t]).map Token.kind <+: (tokensOf s).map Token.kind

/-- some program starts with the tokens of the text, but the text ends before it does -/
structure CutOff (s : String) : Prop where
  possible : ∃ s', Accepted s' ∧ tokensOf s <+: tokensOf s'
  incomplete : ∀ used rest p, ¬ Begins (tokensOf s) used rest p

theorem firstImpossible_of_stop {s : String} {e : Fault} {us vs : List Token} {t : Token}
    (h : (parseText s).1 = .error e) (he : e.IsSyntax) (hs : tokensOf s = us ++ t :: vs)
    (hstop : (parseText s).2.Has (t :: vs))
    (hpossible : ∃ more p, ProgramPhrase (us ++ more) p) : FirstImpossible us t := by
  refine ⟨?_, fun s' hs' hk => ?_⟩
  · obtain ⟨more, p, hp⟩ := hpossible
    obtain ⟨s', more', hs', htokens, -⟩ := exists_completion hs hp
    exact ⟨s', hs', htokens ▸ List.prefix_append us more'⟩
  · have hsplit : tokensOf s = (us ++ [t]) ++ vs := by rw [hs, List.append_assoc]; rfl
    have hproper : ∀ u ∈ us ++ [t], u.Proper := by
      intro u hu
      exact proper_tokensOf s u (hsplit ▸ List.mem_append_left vs hu)
    rcases program_of_kinds hs' hk hproper with ⟨us', vs', p, hus, hp⟩ | ⟨more, p, hp⟩
    · -- the text itself would start with a program
      have hbegins : Begins (tokensOf s) us' (vs' ++ vs) p :=
        ⟨by rw [hsplit, hus, List.append_assoc], hp⟩
      exact not_accepted h (accepted_iff.2 ⟨_, _, _, hbegins⟩)
    · have hstop' : (parseText s).2.Has ([t] ++ vs) := hstop
      exact no_program_beyond h he hsplit hstop' nofun p hp

/-! ## where syntax errors are reported -/

/-- **A syntax error is reported at the first impossible token**, and the message shows that token
with its place.  If there is none, then the text is cut off. -/
theorem syntax_error_at_first_impossible_token {s : String} {e : Fault}
    (h : (parseText s).1 = .error e) (he : e.IsSyntax) :
    (∀ t, (parseText s).2.sym = some t → ∃ us vs wanted,
      tokensOf s = us ++ t :: vs ∧ (parseText s).2.tokens = t :: vs ∧ FirstImpossible us t ∧
        e.message = some ("<input>" ++ "[" ++ Text.intText t.line ++ ":" ++ Text.intText t.pos ++
          "]: Expected " ++ wanted ++ " but got " ++
            (t.kind.label ++ " (" ++ t.payload.toValue.text ++ ")"))) ∧
    ((parseText s).2.sym = none → CutOff s) := by
  obtain ⟨hlabel, us, rest, more, p, hs, hstop, hp, hreason⟩ := parse_stops h
  constructor
  · intro t ht
    rw [hstop.sym] at ht
    obtain ⟨vs, rfl⟩ := List.head?_eq_some_iff.1 ht
    cases hreason with
    | comparison hrest => cases hrest
    | wanted w =>
      refine ⟨us, vs, w, hs, hstop.tokens, firstImpossible_of_stop h he hs hstop ⟨more, p, hp⟩, ?_⟩
      rw [unexpected, hstop.sym, hlabel]
      rfl
  · intro hnone
    rw [hstop.sym, List.head?_eq_none_iff] at hnone
    subst hnone
    rw [List.append_nil] at hs
    have hs₁ : tokensOf s = us ++ [] := by rw [hs, List.append_nil]
    obtain ⟨s', more', hs', htokens, -⟩ := exists_completion hs₁ hp
    refine ⟨⟨s', hs', ?_⟩, fun used rest q hb => ?_⟩
    · rw [htokens, hs]
      exact List.prefix_append us more'
    · exact not_accepted h (accepted_iff.2 ⟨used, rest, q, hb⟩)

def strayBracketText : String := "begin ! 1; ! (2 + ) end."

def strayBracket : Token := ⟨.rparen, .text ")", 1, 18⟩

/-- a bracket in the place of an operand, and a text that ends after an operator -/
theorem strayBracket_and_end_reported :
    (parseText strayBracketText).1 =
      .error (.expected (some "<input>") 1 18 "~lhs-factor" (some ("RPAREN", ")"))) ∧
    (∃ us vs, tokensOf strayBracketText = us ++ strayBracket :: vs ∧
      (parseText strayBracketText).2.tokens = strayBracket :: vs ∧
      FirstImpossible us strayBracket) ∧
    (parseText "! 2 +").1 = .error (.expected (some "<input>") 1 6 "~lhs-factor" none) ∧
    CutOff "! 2 +" := by
  have hbracket : (parseText strayBracketText).1 =
      .error (.expected (some "<input>") 1 18 "~lhs-factor" (some ("RPAREN", ")"))) := by
    with_unfolding_all rfl
  have hsym : (parseText strayBracketText).2.sym = some strayBracket := by
    with_unfolding_all rfl
  have hend : (parseText "! 2 +").1 =
      .error (.expected (some "<input>") 1 6 "~lhs-factor" none) := by
    with_unfolding_all rfl
  have hnone : (parseText "! 2 +").2.sym = none := by
    with_unfolding_all rfl
  obtain ⟨us, vs, -, hs, hstop, hfirst, -⟩ :=
    (syntax_error_at_first_impossible_token hbracket trivial).1 strayBracket hsym
  exact ⟨hbracket, ⟨us, vs, hs, hstop, hfirst⟩, hend,
    (syntax_error_at_first_impossible_token hend trivial).2 hnone⟩

/-! ## failures that are no syntax errors -/

/-- a program goes on with a comparison operator where the text ends -/
def EndsBeforeComparison (s : String) : Prop :=
  ∃ s' t op, Accepted s' ∧ tokensOf s ++ [t] <+: tokensOf s' ∧ t.kind = RelOp.kind op

theorem failure_cases {s : String} {e : Fault} (h : (parseText s).1 = .error e) :
    e.IsSyntax ∨ e = .noSuchField ∧ EndsBeforeComparison s := by
  obtain ⟨-, us, rest, more, p, hs, -, hp, hreason⟩ := parse_stops h
  cases hreason with
  | wanted w => exact .inl (isSyntax_unexpected _ w)
  | @comparison t ts op hrest hmore ht =>
    subst hrest hmore
    obtain ⟨s', more', hs', htokens, hkinds⟩ := exists_completion hs hp
    obtain ⟨t', ts', rfl, ht', -⟩ := List.map_eq_cons_iff.1 hkinds
    rw [List.append_nil] at hs
    refine .inr ⟨rfl, s', t', op, hs', ?_, ht'.trans ht⟩
    rw [htokens, hs]
    exact ⟨ts', by rw [List.append_assoc]; rfl⟩

theorem not_isSyntax {s : String} {e : Fault} (h : (parseText s).1 = .error e)
    (hends : EndsBeforeComparison s) : ¬ e.IsSyntax := by
  intro he
  obtain ⟨s', t, op, hs', ⟨l, hl⟩, ht⟩ := hends
  obtain ⟨-, us, rest, more, p, hs, hstop, hp, -⟩ := parse_stops h
  cases rest with
  | cons u vs =>
    -- a token that is impossible in the text is impossible in the longer one
    refine (firstImpossible_of_stop h he hs hstop ⟨more, p, hp⟩).impossible s' hs' ?_
    rw [← hl, hs]
    simp
  | nil =>
    obtain ⟨used, left, q, hused, hq⟩ := accepted_iff.1 hs'
    rw [← hl, List.append_assoc] at hused
    rcases List.append_eq_append_iff.1 hused with ⟨ts, rfl, hts⟩ | ⟨ts, hts, -⟩
    · cases ts with
      | nil =>
        rw [List.append_nil] at hq
        exact not_accepted h (accepted_iff.2 ⟨_, [], q, (List.append_nil _).symm, hq⟩)
      | cons t' ts =>
        obtain ⟨rfl, -⟩ := List.cons.inj hts
        have hblind : Shared [] (t :: ts) [] := fun _ => ⟨rfl, t, ts, op, rfl, ht⟩
        have hs₁ : tokensOf s = tokensOf s ++ [] := (List.append_nil _).symm
        exact no_program_beyond h he hs₁ hstop hblind q hq
    · exact not_accepted h (accepted_iff.2 ⟨used, ts, q, hts, hq⟩)

/-- **Every text is accepted, or fails with a syntax error, or is cut off in a condition** right
before its comparison operator: exactly such a text fails because there is no token to look at. -/
theorem parse_failures (s : String) :
    (Accepted s ∨ ∃ e, (parseText s).1 = .error e ∧ (e.IsSyntax ∨ e = .noSuchField)) ∧
    ((parseText s).1 = .error .noSuchField ↔ ¬ Accepted s ∧ EndsBeforeComparison s) := by
  cases h : (parseText s).1 with
  | ok p =>
    have hs : Accepted s := ⟨p, h⟩
    exact ⟨.inl hs, nofun, fun hn => absurd hs hn.1⟩
  | error e =>
    have hcases := failure_cases h
    refine ⟨.inr ⟨e, rfl, hcases.imp_right And.left⟩, fun he => ?_, fun hn => ?_⟩
    · cases he
      exact ⟨not_accepted h, (hcases.resolve_left id).2⟩
    · rw [(hcases.resolve_left (not_isSyntax h hn.2)).1]

/-- a text that is cut off in a condition: no syntax error is reported -/
theorem condition_cut_off : (parseText "if 1").1 = .error .noSuchField := by
  with_unfolding_all rfl

end Pl0Kit
