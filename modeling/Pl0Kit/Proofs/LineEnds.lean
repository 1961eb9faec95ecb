import Pl0Kit.Proofs.Coverage

/-!
# Texts joined by a line end

No lexeme reaches over a line end except a run of line ends, and such a run stands for no token.  So
a text can be read line by line: the tokens of `s₁`, a line end and `s₂` are those of `s₁` and those
of `s₂`, moved to their new places.

* `cut_append_newline`      a lexeme that is no run of line ends is cut as if the text ended before
                            the next line end;
* `lexed_append_newline`    tokens and reports of two texts joined by a line end;
* `lexing_splits_at_line_end`  the same for what lexers answer.
-/

namespace Pl0Kit

/-! ## a lexeme before a line end -/

/-- a run of characters stops at a character outside it, whatever follows -/
theorem takeWhile_border {p : Char → Bool} {b : Char} (hb : p b = false) (cs ds : List Char) :
    (cs ++ b :: ds).takeWhile p = cs.takeWhile p ∧
      (cs ++ b :: ds).dropWhile p = cs.dropWhile p ++ b :: ds := by
  induction cs with
  | nil => simp [hb]
  | cons c cs ih =>
    rw [List.cons_append, List.takeWhile_cons, List.dropWhile_cons, List.takeWhile_cons,
      List.dropWhile_cons, ih.1, ih.2]
    by_cases hc : p c = true
    · simp [hc]
    · simp [hc]

namespace Lexeme

/-- a line end is the second character of no mark -/
theorem mark?_append_newline (c : Char) (cs ds : List Char) :
    mark? c (cs ++ '\n' :: ds).head? = mark? c cs.head? := by
  cases cs with
  | nil => exact mark?_eq_none (by simp) c
  | cons d cs => rfl

theorem cut_append_newline {c : Char} (hc : c ≠ '\n') (cs ds : List Char) :
    cut c (cs ++ '\n' :: ds) = ((cut c cs).1, (cut c cs).2 ++ '\n' :: ds) := by
  have hnl : (c == '\n') = false := beq_eq_false_iff_ne.2 hc
  by_cases hs : isSpace c = true
  · rw [cut, if_pos hs, cut, if_pos hs]
  by_cases hname : isNameStart c = true
  · obtain ⟨htake, hdrop⟩ := takeWhile_border (p := isNameChar) (b := '\n') (by decide) cs ds
    rw [cut, if_neg hs, if_pos hname, cut, if_neg hs, if_pos hname, htake, hdrop]
  by_cases hcm : (c == '#') = true
  · obtain ⟨htake, hdrop⟩ := takeWhile_border (p := (· != '\n')) (b := '\n') (by decide) cs ds
    simp only [cut, hs, hname, hnl, hcm, htake, hdrop, if_true, if_false, Bool.false_eq_true]
  by_cases hd : Text.isDigit c = true
  · obtain ⟨htake, hdrop⟩ := takeWhile_border (p := Text.isDigit) (b := '\n') (by decide) cs ds
    simp only [cut, hs, hname, hnl, hcm, hd, htake, hdrop, if_true, if_false, Bool.false_eq_true]
  rw [Bool.not_eq_true] at hs hname hcm hd
  rw [cut_mark? hs hname hnl hcm hd, cut_mark? hs hname hnl hcm hd, mark?_append_newline]
  cases hm : mark? c cs.head? with
  | none => rfl
  | some kt =>
    obtain ⟨k, t⟩ := kt
    rcases (mark?_mem_spellings hm).2 with rfl | ⟨rfl, hnext⟩
    · rfl
    · obtain ⟨es, rfl⟩ := List.head?_eq_some_iff.1 hnext
      rfl

/-- the lines a lexeme ends are the line ends in its text -/
theorem lineCount_cut (c : Char) (cs : List Char) :
    (cut c cs).1.lineCount = (cut c cs).1.text.count '\n' := by
  obtain ⟨p, hp⟩ := exists_piece_cut [] c cs
  exact hp.lines

end Lexeme

/-! ## texts joined by a line end -/

def reports (cs : List Char) : List Char := (lexemes cs).flatMap Lexeme.reported

theorem reports_newline (cs : List Char) : reports ('\n' :: cs) = reports cs := by
  rw [reports, lexemes_cons (cut_newline cs), List.flatMap_cons]
  cases cs with
  | nil => rfl
  | cons c cs =>
    by_cases hc : c = '\n'
    · subst hc
      rw [reports, lexemes_cons (cut_newline cs), List.flatMap_cons]
      rfl
    · have hb : (c == '\n') = false := beq_eq_false_iff_ne.2 hc
      simp only [List.dropWhile_cons, hb]
      rfl

/-- The lexemes of a text joined to another by a line end are its own, one by one; a run of line
ends at its end is the only one that may grow, and counts for the lines it has. -/
theorem lexed_append_newline (ds : List Char) (cs : List Char) : ∀ line pos : Int,
    tokensAt line pos (cs ++ '\n' :: ds) = tokensAt line pos cs ++
        tokensAt (line + (cs.count '\n' + 1)) (pos + (cs.length + 1)) ds ∧
      reports (cs ++ '\n' :: ds) = reports cs ++ reports ds := by
  induction hn : cs.length using Nat.strongRecOn generalizing cs with
  | ind n ih =>
    intro line pos
    subst hn
    cases cs with
    | nil =>
      rw [List.nil_append, tokensAt_newline, reports_newline]
      exact ⟨by simp [tokensAt, lexemes, tokensFrom], by simp [reports, lexemes]⟩
    | cons c cs =>
      by_cases hc : c = '\n'
      · -- one line end is taken off the run, which leaves a shorter text
        subst hc
        obtain ⟨htokens, hreports⟩ := ih cs.length (by simp) cs rfl (line + 1) (pos + 1)
        rw [List.cons_append, tokensAt_newline, tokensAt_newline, reports_newline, reports_newline,
          htokens, hreports, List.count_cons_self, List.length_cons]
        refine ⟨congrArg₂ _ rfl (congrArg₂ (tokensAt · · ds) ?_ ?_), rfl⟩ <;> push_cast <;> ring
      · have htext := Lexeme.cut_text c cs
        have hlines := Lexeme.lineCount_cut c cs
        have hshort := Lexeme.cut_length c cs
        have hcut : Lexeme.cut c (cs ++ '\n' :: ds) = _ := Lexeme.cut_append_newline hc cs ds
        have hown : Lexeme.cut c cs = ((Lexeme.cut c cs).1, (Lexeme.cut c cs).2) := rfl
        obtain ⟨htokens, hreports⟩ := ih _ (by rw [List.length_cons]; omega) (Lexeme.cut c cs).2 rfl
          (line + (Lexeme.cut c cs).1.lineCount) (pos + (Lexeme.cut c cs).1.text.length)
        rw [List.cons_append, tokensAt, tokensAt, reports, reports, lexemes_cons hcut,
          lexemes_cons hown, tokensFrom, tokensFrom, List.flatMap_cons,
          List.flatMap_cons]
        have hline : line + (Lexeme.cut c cs).1.lineCount + ((Lexeme.cut c cs).2.count '\n' + 1) =
            line + ((c :: cs).count '\n' + 1) := by
          rw [hlines, ← htext, List.count_append]
          push_cast
          ring
        have hpos : pos + (Lexeme.cut c cs).1.text.length + ((Lexeme.cut c cs).2.length + 1) =
            pos + ((c :: cs).length + 1) := by
          rw [← htext, List.length_append]
          push_cast
          ring
        rw [hline, hpos] at htokens
        rw [List.append_assoc, List.append_assoc]
        exact ⟨congrArg _ htokens, congrArg _ hreports⟩

/-! ## tokens in another place -/

def Token.moved (lines chars : Int) (t : Token) : Token :=
  { t with line := t.line + lines, pos := t.pos + chars }

theorem Lexeme.token?_moved (x : Lexeme) (line pos lines chars : Int) :
    x.token? (line + lines) (pos + chars) = (x.token? line pos).map (Token.moved lines chars) := by
  cases x with
  | word cs =>
    simp only [Lexeme.token?]
    cases Keyword.ofWord? (String.ofList (cs.map Char.toUpper)) <;> rfl
  | _ => rfl

/-- a text further on has the same tokens, further on -/
theorem tokensFrom_moved (lines chars : Int) (xs : List Lexeme) : ∀ line pos : Int,
    tokensFrom (line + lines) (pos + chars) xs =
      (tokensFrom line pos xs).map (Token.moved lines chars) := by
  induction xs with
  | nil => exact fun line pos => rfl
  | cons x xs ih =>
    intro line pos
    have hrest := ih (line + x.lineCount) (pos + x.text.length)
    rw [add_right_comm line, add_right_comm pos] at hrest
    rw [tokensFrom, tokensFrom, Lexeme.token?_moved, hrest, List.map_append]
    cases x.token? line pos <;> rfl

/-- **Lexing splits at line ends.**  What a new lexer answers for `s₁`, a line end and `s₂` is what
new lexers answer for the two texts: the tokens of `s₁`, then those of `s₂` moved by the characters
of `s₁` and one, and by the line ends of `s₁` and one; and the reports of `s₁`, then those of
`s₂`. -/
theorem lexing_splits_at_line_end (s₁ s₂ : String) :
    ∃ (rs rs₁ rs₂ : List Reading) (l l₁ l₂ : Lexer),
      Asked (({} : Lexer).input (s₁ ++ "\n" ++ s₂)) rs l ∧
      Asked (({} : Lexer).input s₁) rs₁ l₁ ∧ Asked (({} : Lexer).input s₂) rs₂ l₂ ∧
      rs.filterMap Reading.token = rs₁.filterMap Reading.token ++
        (rs₂.filterMap Reading.token).map
          (Token.moved (1 + s₁.toList.count '\n') (s₁.length + 1)) ∧
      String.join (rs.map Reading.report) =
        String.join (rs₁.map Reading.report) ++ String.join (rs₂.map Reading.report) := by
  obtain ⟨l, hl, -⟩ := asked_readings 1 [] (s₁ ++ "\n" ++ s₂).toList
  obtain ⟨l₁, hl₁, -⟩ := asked_readings 1 [] s₁.toList
  obtain ⟨l₂, hl₂, -⟩ := asked_readings 1 [] s₂.toList
  obtain ⟨htokens, hreports⟩ := lexed_append_newline s₂.toList s₁.toList 1 0
  have htext : (s₁ ++ "\n" ++ s₂).toList = s₁.toList ++ '\n' :: s₂.toList := by simp
  refine ⟨_, _, _, l, l₁, l₂, hl, hl₁, hl₂, ?_, ?_⟩
  · rw [filterMap_readings, filterMap_readings, filterMap_readings, ← tokensFrom_moved, htext]
    refine htokens.trans ?_
    rw [tokensAt, tokensAt, add_comm ((s₁.toList.count '\n' : Nat) : Int) 1, String.length_toList]
    rfl
  · rw [join_report, join_report, join_report, illegal_readings, illegal_readings,
      illegal_readings, ← String.join_append, ← List.map_append, htext]
    exact congrArg (fun cs => String.join (cs.map illegalLine)) hreports

end Pl0Kit
