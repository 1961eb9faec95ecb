import Pl0Kit.Proofs.Acceptance
import Pl0Kit.Proofs.LineEnds
import Pl0Kit.Proofs.PhraseKinds

/-!
# Completing a text

If the first tokens of a text can be completed to a program, then there is a text that the parser
accepts and that starts with these very tokens.  For this the text is broken off after them, at the
end of a lexeme, and the missing tokens are written on a line of their own each.

* `lexemes_beginning`    a text that is broken off at the end of a lexeme has the lexemes up to
                         there;
* `exists_text_of_kinds` any kinds of tokens in a row are the kinds of the tokens of some text;
* `exists_completion`    the two put together.
-/

namespace Pl0Kit

/-! ## a text that is broken off -/

/-- a run of characters that ends before `w'` is the same without `w'` -/
theorem takeWhile_beginning {p : Char → Bool} {ds w w' : List Char}
    (h : (ds ++ w').dropWhile p = w ++ w') :
    ds.takeWhile p = (ds ++ w').takeWhile p ∧ ds.dropWhile p = w := by
  have hsplit : (ds ++ w').takeWhile p ++ w ++ w' = ds ++ w' := by
    rw [List.append_assoc, ← h, List.takeWhile_append_dropWhile]
  have hds := List.append_cancel_right hsplit
  have hrun : ∀ c ∈ (ds ++ w').takeWhile p, p c = true := fun c hc => List.mem_takeWhile_imp hc
  have hstop : ∀ c, w.head? = some c → p c = false := by
    intro c hc
    have hhead : ((ds ++ w').dropWhile p).head? = some c := by
      rw [h, List.head?_append, hc]
      rfl
    exact head?_dropWhile hhead
  have hcut := takeWhile_stop hrun hstop
  rwa [hds] at hcut

namespace Lexeme

/-- a mark of two characters is the only one that needs the second character -/
theorem mark?_of_short {c : Char} {next : Option Char}
    (h : ∀ k, mark? c next ≠ some (k, [c, '='])) : mark? c none = mark? c next := by
  by_cases hn : next = some '='
  · subst hn
    unfold mark? at h ⊢
    split at h <;> simp_all
  · exact (mark?_eq_none hn c).symm

theorem mark?_beginning {c : Char} {ds w' : List Char}
    (h : ds = [] → ∀ k, mark? c w'.head? ≠ some (k, [c, '='])) :
    mark? c ds.head? = mark? c (ds ++ w').head? := by
  cases ds with
  | nil => exact mark?_of_short (h rfl)
  | cons d ds => rfl

/-- a lexeme that ends before `w'` is the same without `w'` -/
theorem cut_beginning {c : Char} {ds w w' : List Char} {x : Lexeme}
    (h : cut c (ds ++ w') = (x, w ++ w')) : cut c ds = (x, w) := by
  by_cases hs : isSpace c = true
  · simp only [cut, hs, if_true, Prod.mk.injEq, List.append_cancel_right_eq] at h ⊢
    exact h
  by_cases hname : isNameStart c = true
  · simp only [cut, hs, hname, if_true, if_false, Bool.false_eq_true, Prod.mk.injEq] at h ⊢
    obtain ⟨htake, hdrop⟩ := takeWhile_beginning h.2
    exact ⟨htake ▸ h.1, hdrop⟩
  by_cases hnl : (c == '\n') = true
  · simp only [cut, hs, hname, hnl, if_true, if_false, Bool.false_eq_true, Prod.mk.injEq] at h ⊢
    obtain ⟨htake, hdrop⟩ := takeWhile_beginning h.2
    exact ⟨htake ▸ h.1, hdrop⟩
  by_cases hcm : (c == '#') = true
  · simp only [cut, hs, hname, hnl, hcm, if_true, if_false, Bool.false_eq_true,
      Prod.mk.injEq] at h ⊢
    obtain ⟨htake, hdrop⟩ := takeWhile_beginning h.2
    exact ⟨htake ▸ h.1, hdrop⟩
  by_cases hd : Text.isDigit c = true
  · simp only [cut, hs, hname, hnl, hcm, hd, if_true, if_false, Bool.false_eq_true,
      Prod.mk.injEq] at h ⊢
    obtain ⟨htake, hdrop⟩ := takeWhile_beginning h.2
    exact ⟨htake ▸ h.1, hdrop⟩
  rw [Bool.not_eq_true] at hs hname hnl hcm hd
  rw [cut_mark? hs hname hnl hcm hd] at h ⊢
  -- the second character of a mark of two is not in `w'`, since `w'` is left over
  have hmark : mark? c ds.head? = mark? c (ds ++ w').head? := by
    refine mark?_beginning ?_
    rintro rfl k hk
    rw [List.nil_append, hk] at h
    obtain ⟨-, hw⟩ := Prod.mk.inj h
    have hlen := congrArg List.length hw
    obtain ⟨-, hne⟩ := (mark?_mem_spellings hk).2.resolve_left (by simp)
    obtain ⟨es, rfl⟩ := List.head?_eq_some_iff.1 hne
    simp only [List.length_drop, List.length_append, List.length_cons, List.length_nil] at hlen
    omega
  rw [hmark]
  cases hm : mark? c (ds ++ w').head? with
  | none =>
    rw [hm] at h
    simpa using h
  | some kt =>
    obtain ⟨k, t⟩ := kt
    rw [hm] at h
    rcases (mark?_mem_spellings hm).2 with rfl | ⟨rfl, -⟩
    · simpa using h
    · cases ds with
      | nil =>
        rw [← hmark] at hm
        exact absurd (mark?_mem_spellings hm).2 (by simp)
      | cons d ds => simpa using h

/-- a lexeme with some of the text after it is a beginning of the text -/
theorem exists_beginning_cut {c : Char} {cs w w' : List Char} (h : (cut c cs).2 = w ++ w') :
    ∃ ds, (cut c cs).1.text ++ w = c :: ds ∧ ds ++ w' = cs := by
  have htext := cut_text c cs
  rw [h, ← List.append_assoc] at htext
  rcases List.append_eq_cons_iff.1 htext with ⟨hnil, hw⟩ | ⟨ds, hds, hcs⟩
  · have hlen := cut_length c cs
    rw [h, hw, List.length_append, List.length_cons] at hlen
    omega
  · exact ⟨ds, hds, hcs.symm⟩

end Lexeme

/-- the lexemes of a text cover it -/
theorem flatMap_lexemes (cs : List Char) : (lexemes cs).flatMap Lexeme.text = cs := by
  fun_induction lexemes cs with
  | case1 => rfl
  | case2 c cs ih => rw [List.flatMap_cons, ih, Lexeme.cut_text]

theorem lexemes_beginning {cs : List Char} {xs ys : List Lexeme} (h : lexemes cs = xs ++ ys) :
    lexemes (xs.flatMap Lexeme.text) = xs := by
  induction xs generalizing cs with
  | nil => rw [List.flatMap_nil, lexemes]
  | cons x xs ih =>
    cases cs with
    | nil =>
      rw [lexemes] at h
      cases h
    | cons c cs =>
      rw [lexemes, List.cons_append] at h
      obtain ⟨rfl, hrest⟩ := List.cons.inj h
      have hcut : (Lexeme.cut c cs).2 = xs.flatMap Lexeme.text ++ ys.flatMap Lexeme.text := by
        rw [← flatMap_lexemes (Lexeme.cut c cs).2, hrest, List.flatMap_append]
      obtain ⟨ds, hds, rfl⟩ := Lexeme.exists_beginning_cut hcut
      rw [List.flatMap_cons, hds, lexemes_cons (Lexeme.cut_beginning (Prod.ext rfl hcut)), ih hrest]

/-- the first tokens are those of the first lexemes -/
theorem tokensFrom_beginning {xs : List Lexeme} : ∀ {line pos : Int} {us vs : List Token},
    tokensFrom line pos xs = us ++ vs → ∃ ys zs, xs = ys ++ zs ∧ tokensFrom line pos ys = us := by
  induction xs with
  | nil =>
    intro line pos us vs h
    obtain ⟨rfl, -⟩ := List.append_eq_nil_iff.1 h.symm
    exact ⟨[], [], rfl, rfl⟩
  | cons x xs ih =>
    intro line pos us vs h
    cases us with
    | nil => exact ⟨[], x :: xs, rfl, rfl⟩
    | cons u us =>
      rw [tokensFrom] at h
      cases hx : x.token? line pos with
      | none =>
        rw [hx] at h
        obtain ⟨ys, zs, rfl, hys⟩ := ih h
        exact ⟨x :: ys, zs, rfl, by rw [tokensFrom, hx, hys]; rfl⟩
      | some t =>
        rw [hx] at h
        obtain ⟨rfl, hrest⟩ := List.cons.inj h
        obtain ⟨ys, zs, rfl, hys⟩ := ih hrest
        exact ⟨x :: ys, zs, rfl, by rw [tokensFrom, hx, hys]; rfl⟩

/-- a text with the first tokens of another one -/
theorem exists_beginning {line pos : Int} {cs : List Char} {us vs : List Token}
    (h : tokensAt line pos cs = us ++ vs) : ∃ ds, tokensAt line pos ds = us := by
  obtain ⟨ys, zs, hlex, hys⟩ := tokensFrom_beginning h
  refine ⟨ys.flatMap Lexeme.text, ?_⟩
  rw [tokensAt, lexemes_beginning hlex, hys]

/-! ## a text for given kinds of tokens -/

/-- a symbol that can be written, and that tokens of the kind `k` show -/
def Writable (k : Kind) : Prop :=
  ∃ x cs, Spelled x cs ∧ (∀ y, x = .name y → Identifier y) ∧ ∀ t : Token, t.symbol = x → t.kind = k

theorem writable_mark {k : Kind} (hk : k ∈ Lexeme.markKinds) : Writable k := by
  have hspelled : ∀ k ∈ Lexeme.markKinds, ∃ m ∈ markSpellings, m.1 = k := by decide
  obtain ⟨⟨_, cs⟩, hm, rfl⟩ := hspelled k hk
  exact ⟨_, cs, .mark hm, nofun, fun t ht => Token.kind_of_symbol ht⟩

theorem writable (k : Kind) : Writable k := by
  cases k with
  | name =>
    refine ⟨.name "x", _, .name "x", ?_, fun t ht => (Token.isName_of_symbol ht).1⟩
    rintro _ ⟨⟩
    exact ⟨⟨'x', [], by decide +kernel, by decide, nofun⟩, by decide +kernel⟩
  | number => exact ⟨.number 0, _, .number 0, nofun, fun t ht => (Token.isNumber_of_symbol ht).1⟩
  | keyword w =>
    refine ⟨.ofKeyword w, w.word.toList, .keyword ?_, nofun, fun t ht => Token.kind_of_symbol ht⟩
    cases w <;> decide +kernel
  | _ => exact writable_mark (by decide)

theorem exists_text_of_kinds (ks : List Kind) :
    ∃ cs, ∀ line pos, (tokensAt line pos cs).map Token.kind = ks := by
  induction ks with
  | nil => exact ⟨[], fun line pos => by rw [tokensAt, lexemes]; rfl⟩
  | cons k ks ih =>
    obtain ⟨x, ds, hds, hx, hkind⟩ := writable k
    obtain ⟨cs, hcs⟩ := ih
    refine ⟨ds ++ '\n' :: cs, fun line pos => ?_⟩
    have hbreaks : Breaks ('\n' :: cs) := by
      rintro c ⟨⟩
      decide +kernel
    obtain ⟨t, pos', ht, htokens⟩ := tokensAt_symbol hds hx hbreaks line pos
    rw [htokens, tokensAt_newline, List.map_cons, hkind t ht, hcs]

/-! ## accepted texts -/

/-- the parser finds a program at the start of the text -/
def Accepted (s : String) : Prop := ∃ p, (parseText s).1 = .ok p

theorem accepted_iff {s : String} :
    Accepted s ↔ ∃ used rest p, Begins (tokensOf s) used rest p := by
  have h := (Parse.followsGrammar (Cursor.input_has s) (proper_tokensOf s)).accepts
  constructor
  · rintro ⟨p, hp⟩
    obtain ⟨used, rest, hb⟩ := (h p).1 hp
    exact ⟨used, rest, p, hb⟩
  · rintro ⟨used, rest, p, hb⟩
    exact ⟨p, (h p).2 ⟨used, rest, hb⟩⟩

theorem exists_completion {s : String} {us vs more : List Token} {p : Program}
    (hs : tokensOf s = us ++ vs) (hp : ProgramPhrase (us ++ more) p) :
    ∃ s' more', Accepted s' ∧ tokensOf s' = us ++ more' ∧
      more'.map Token.kind = more.map Token.kind := by
  have hs₁ : tokensAt 1 0 s.toList = us ++ vs := (tokensOf_eq s).symm.trans hs
  obtain ⟨ds, hds⟩ := exists_beginning hs₁
  obtain ⟨cs, hcs⟩ := exists_text_of_kinds (more.map Token.kind)
  have htokens := (lexed_append_newline cs ds 1 0).1
  rw [hds] at htokens
  generalize hs' : String.ofList (ds ++ '\n' :: cs) = s'
  have htext : tokensOf s' = tokensAt 1 0 (ds ++ '\n' :: cs) := by
    rw [tokensOf_eq, ← hs', String.toList_ofList, tokensAt]
  rw [← htext] at htokens
  refine ⟨s', _, accepted_iff.2 ?_, htokens, hcs _ _⟩
  have hlikes : Likes (tokensOf s') (us ++ more) := by
    refine .of_kinds ?_ (proper_tokensOf s')
    rw [htokens, List.map_append, hcs, List.map_append]
  obtain ⟨p', hp'⟩ := hp.recast hlikes
  exact ⟨tokensOf s', [], p', (List.append_nil _).symm, hp'⟩

end Pl0Kit
