import Mathlib.Data.List.TakeWhile
import Pl0Kit.Replay
import Pl0Kit.Proofs.ParseRun

/-!
# Tokens of a text

The readings of a text find its tokens one after the other.  `tokensFrom` lists them directly from
the lexemes, and `filterMap_readings` shows that the readings find the same list.  Every token of a
text is `Proper`, and its names are identifiers that are no keyword in any letter case.
-/

namespace Pl0Kit

/-- a letter or underscore, then letters, digits and underscores; no keyword in any letter case -/
structure Identifier (x : String) : Prop where
  start : ∃ c cs, x.toList = c :: cs ∧ Lexeme.isNameStart c = true ∧
    ∀ d ∈ cs, Lexeme.isNameChar d = true
  plain : Keyword.ofWord? (String.ofList (x.toList.map Char.toUpper)) = none

namespace Lexeme

theorem isNameChar_of_isNameStart {c : Char} (h : isNameStart c = true) : isNameChar c = true := by
  rw [isNameStart, Bool.or_eq_true] at h
  rw [isNameChar, Char.isAlphanum, Bool.or_eq_true, Bool.or_eq_true]
  exact h.imp_left .inl

/-- kinds of tokens that are spelled by marks -/
def markKinds : List Kind :=
  [.dot, .eos, .update, .comma, .lparen, .rparen, .lt, .lte, .gt, .gte, .e, .ne, .plus, .minus,
    .times, .divide, .assign, .print]

/-- what a lexeme that was cut from a text is made of -/
def Formed : Lexeme → Prop
  | word cs => ∃ c rest, cs = c :: rest ∧ isNameStart c = true ∧ ∀ d ∈ rest, isNameChar d = true
  | digits cs => cs ≠ [] ∧ ∀ d ∈ cs, Text.isDigit d = true
  | mark k _ => k ∈ markKinds
  | _ => True

theorem mark?_mem {c : Char} {next : Option Char} {k : Kind} {cs : List Char}
    (h : mark? c next = some (k, cs)) : k ∈ markKinds := by
  unfold mark? at h
  split at h <;> cases h <;> decide

theorem cut_formed (c : Char) (cs : List Char) : (cut c cs).1.Formed := by
  unfold cut
  split
  · trivial
  split
  · rename_i hc
    exact ⟨c, _, rfl, hc, fun d hd => List.mem_takeWhile_imp hd⟩
  split
  · trivial
  split
  · trivial
  split
  · rename_i hc
    refine ⟨List.cons_ne_nil _ _, fun d hd => ?_⟩
    rcases List.mem_cons.1 hd with rfl | hd
    · exact hc
    · exact List.mem_takeWhile_imp hd
  · split
    · rename_i hm
      exact mark?_mem hm
    · rename_i hm
      exact mark?_mem hm
    · trivial

/-- a token keeps to its line -/
theorem lineCount_of_token? {x : Lexeme} {line pos : Int} {t : Token}
    (h : x.token? line pos = some t) : x.lineCount = 0 := by
  cases x with
  | newlines n => cases h
  | _ => rfl

end Lexeme

theorem lexemes_formed (cs : List Char) : ∀ x ∈ lexemes cs, x.Formed := by
  fun_induction lexemes cs with
  | case1 => intro x hx; cases hx
  | case2 c cs ih =>
    intro x hx
    rcases List.mem_cons.1 hx with rfl | hx
    · exact Lexeme.cut_formed c cs
    · exact ih x hx

/-! ## the tokens of some lexemes -/

/-- the tokens of some lexemes that start at the given line and offset -/
def tokensFrom (line pos : Int) : List Lexeme → List Token
  | [] => []
  | x :: xs =>
    (x.token? line pos).toList ++ tokensFrom (line + x.lineCount) (pos + x.text.length) xs

theorem tokensFrom_firstReading (xs : List Lexeme) : ∀ (line pos : Int) (seen : List Char),
    match (firstReading line pos seen xs).1.token with
    | some t => tokensFrom line pos xs = t :: tokensFrom (firstReading line pos seen xs).1.line
        (firstReading line pos seen xs).1.pos (firstReading line pos seen xs).2
    | none => tokensFrom line pos xs = [] := by
  induction xs with
  | nil => intro line pos seen; rfl
  | cons x xs ih =>
    intro line pos seen
    rw [firstReading, tokensFrom]
    cases hx : x.token? line pos with
    | some t =>
      simp only [Option.toList_some, Lexeme.lineCount_of_token? hx, Int.natCast_zero,
        Int.add_zero]
      rfl
    | none =>
      simp only [Option.toList_none, List.nil_append]
      exact ih _ _ _

/-- reading by reading, the tokens of a text are those of its lexemes -/
theorem filterMap_readings (line pos : Int) (xs : List Lexeme) :
    (readings line pos xs).filterMap Reading.token = tokensFrom line pos xs := by
  fun_induction readings line pos xs with
  | case1 line pos xs r h ih =>
    have hf := tokensFrom_firstReading xs line pos []
    obtain ⟨t, ht⟩ := Option.isSome_iff_exists.1 h
    rw [show (firstReading line pos [] xs).1.token = some t from ht] at hf
    rw [List.filterMap_cons, ht, ih]
    exact hf.symm
  | case2 line pos xs r h =>
    have hf := tokensFrom_firstReading xs line pos []
    have ht : r.1.token = none := by simpa using h
    rw [show (firstReading line pos [] xs).1.token = none from ht] at hf
    rw [List.filterMap_cons, ht, hf]
    rfl

theorem upcoming_readings (line pos : Int) (xs : List Lexeme) :
    upcoming (readings line pos xs) = tokensFrom line pos xs := by
  rw [← filterMap_readings]
  fun_induction readings line pos xs with
  | case1 line pos xs r h ih =>
    obtain ⟨t, ht⟩ := Option.isSome_iff_exists.1 h
    rw [upcoming, List.filterMap_cons, ht]
    exact congrArg (t :: ·) ih
  | case2 line pos xs r h =>
    have ht : r.1.token = none := by simpa using h
    rw [upcoming, List.filterMap_cons, ht]
    rfl

theorem tokensOf_eq (s : String) : tokensOf s = tokensFrom 1 0 (lexemes s.toList) :=
  filterMap_readings 1 0 _

theorem mem_tokensFrom {t : Token} {xs : List Lexeme} : ∀ {line pos : Int},
    t ∈ tokensFrom line pos xs → ∃ x ∈ xs, ∃ l p, x.token? l p = some t := by
  induction xs with
  | nil => intro line pos h; cases h
  | cons x xs ih =>
    intro line pos h
    rw [tokensFrom] at h
    rcases List.mem_append.1 h with h | h
    · exact ⟨x, List.mem_cons_self, line, pos, Option.mem_toList.1 h⟩
    · obtain ⟨y, hy, l, p, ht⟩ := ih h
      exact ⟨y, List.mem_cons_of_mem x hy, l, p, ht⟩

/-! ## what tokens of a text carry -/

theorem Lexeme.Formed.token {x : Lexeme} (hx : x.Formed) {l p : Int} {t : Token}
    (h : x.token? l p = some t) :
    t.Proper ∧ ∀ y, t.IsName y → Identifier y := by
  cases x with
  | word cs =>
    simp only [Lexeme.token?] at h
    cases hk : Keyword.ofWord? (String.ofList (cs.map Char.toUpper)) with
    | some k =>
      rw [hk] at h
      cases h
      refine ⟨⟨fun h => ?_, fun h => ?_⟩, fun y hy => ?_⟩
      · cases h
      · cases h
      · cases hy.1
    | none =>
      rw [hk] at h
      cases h
      refine ⟨⟨fun _ => ⟨_, rfl⟩, fun h => ?_⟩, fun y hy => ?_⟩
      · cases h
      · obtain ⟨-, hp⟩ := hy
        cases hp
        exact ⟨by rw [String.toList_ofList]; exact hx, by rw [String.toList_ofList]; exact hk⟩
  | digits cs =>
    cases h
    refine ⟨⟨fun h => ?_, fun _ => ⟨_, rfl⟩⟩, fun y hy => ?_⟩
    · cases h
    · cases hy.1
  | mark k cs =>
    cases h
    have hk : k ∈ markKinds := hx
    refine ⟨⟨fun h => ?_, fun h => ?_⟩, fun y hy => ?_⟩
    · cases (show k = _ from h); exact absurd hk (by decide)
    · cases (show k = _ from h); exact absurd hk (by decide)
    · cases (show k = _ from hy.1); exact absurd hk (by decide)
  | newlines n | comment cs | blank c | illegal c => cases h

theorem proper_tokensOf (s : String) : ∀ t ∈ tokensOf s, t.Proper := by
  intro t ht
  rw [tokensOf_eq] at ht
  obtain ⟨x, hx, l, p, h⟩ := mem_tokensFrom ht
  exact ((lexemes_formed _ x hx).token h).1

/-- a name that a text holds is an identifier -/
theorem identifier_of_mem {s : String} {t : Token} {x : String} (ht : t ∈ tokensOf s)
    (hx : t.IsName x) : Identifier x := by
  rw [tokensOf_eq] at ht
  obtain ⟨y, hy, l, p, h⟩ := mem_tokensFrom ht
  exact ((lexemes_formed _ y hy).token h).2 x hx

/-! ## cursors at the start of a text or a list -/

theorem Cursor.input_has (s : String) : (({} : Cursor).input s).Has (tokensOf s) := by
  constructor
  · rw [Cursor.input, Cursor.label_step]
    rfl
  · rw [Cursor.input, Cursor.step_tokens, tokensOf_eq]
    exact upcoming_readings _ _ _

theorem upcoming_replay (ts : List Token) : upcoming (ts.map Reading.replay) = ts := by
  induction ts with
  | nil => rfl
  | cons t ts ih => exact congrArg (t :: ·) ih

theorem Cursor.replay_has (label : String) (ts : List Token) :
    (Cursor.replay label ts).Has ts := by
  constructor
  · rw [Cursor.replay, Cursor.label_step]
    rfl
  · rw [Cursor.replay, Cursor.step_tokens]
    exact upcoming_replay ts

end Pl0Kit
