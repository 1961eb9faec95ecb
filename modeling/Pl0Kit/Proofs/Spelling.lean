import Pl0Kit.Proofs.Lexical
import Pl0Kit.Proofs.Numeral

/-!
# Programs as text

A program is written as its symbols in the order of the grammar (`Program.symbols`), each in one of
its spellings (`Spelled`), with a gap of blanks, line ends and comments between two of them
(`Layout`). `tokens_of_layout` shows that a text laid out in this way has exactly these symbols as
its tokens, whatever follows.

* `Symbol`       a token without its place;
* `Spelled`      keywords in any letter case, numbers in decimal, marks in their one spelling;
* `Gap`          blanks, tabs, line ends, and comments with the line end after them;
* `tokensAt`     the tokens of a text that starts at a line and an offset.
-/

namespace Pl0Kit

/-! ## symbols -/

/-- a token without its place -/
inductive Symbol where
  | name (x : String)
  | number (n : Nat)
  | sign (k : Kind)
  deriving DecidableEq

/-- the symbol that a token shows -/
def Token.symbol (t : Token) : Symbol :=
  match t.kind, t.payload with
  | .name, .text x => .name x
  | .number, .number n => .number n
  | k, _ => .sign k

theorem Token.isName_of_symbol {t : Token} {x : String} (h : t.symbol = .name x) : t.IsName x := by
  unfold symbol at h
  split at h
  · rename_i hk hp
    cases h
    exact ⟨hk, hp⟩
  · cases h
  · cases h

theorem Token.isNumber_of_symbol {t : Token} {n : Nat} (h : t.symbol = .number n) :
    t.IsNumber n := by
  unfold symbol at h
  split at h
  · cases h
  · rename_i hk hp
    cases h
    exact ⟨hk, hp⟩
  · cases h

theorem Token.kind_of_symbol {t : Token} {k : Kind} (h : t.symbol = .sign k) : t.kind = k := by
  unfold symbol at h
  split at h
  · cases h
  · cases h
  · cases h
    rfl

namespace Symbol

def ofKeyword (w : Keyword) : Symbol := .sign (.keyword w)

/-- parts with commas between them -/
def commaList : List (List Symbol) → List Symbol
  | [] => []
  | [x] => x
  | x :: y :: xs => x ++ .sign .comma :: commaList (y :: xs)

end Symbol

open Pl0Kit.Symbol

mutual

def Expr.symbols : Expr → List Symbol
  | .mk none first rest => first.symbols ++ Expr.tailSymbols rest
  | .mk (some op) first rest => .sign op.kind :: (first.symbols ++ Expr.tailSymbols rest)

def Expr.tailSymbols : List (AddOp × Term) → List Symbol
  | [] => []
  | (op, t) :: rest => .sign op.kind :: (t.symbols ++ Expr.tailSymbols rest)

def Term.symbols : Term → List Symbol
  | .mk first rest => first.symbols ++ Term.tailSymbols rest

def Term.tailSymbols : List (MulOp × Factor) → List Symbol
  | [] => []
  | (op, f) :: rest => .sign op.kind :: (f.symbols ++ Term.tailSymbols rest)

def Factor.symbols : Factor → List Symbol
  | .name x => [.name x]
  | .number n => [.number n]
  | .paren e => .sign .lparen :: (e.symbols ++ [.sign .rparen])

end

def Condition.symbols : Condition → List Symbol
  | .odd e => ofKeyword .odd :: e.symbols
  | .compare l op r => l.symbols ++ .sign op.kind :: r.symbols

def Statement.symbols : Statement → List Symbol
  | .assign x e => .name x :: .sign .update :: e.symbols
  | .call p => [ofKeyword .call, .name p]
  | .block [] => [ofKeyword .begin, ofKeyword .end]
  | .block (s :: ss) => ofKeyword .begin :: (s.symbols ++ (laterSymbols ss ++ [ofKeyword .end]))
  | .ifThen c s => ofKeyword .if :: (c.symbols ++ ofKeyword .then :: s.symbols)
  | .whileDo c s => ofKeyword .while :: (c.symbols ++ ofKeyword .do :: s.symbols)
  | .print e => .sign .print :: e.symbols
where
  laterSymbols : List Statement → List Symbol
    | [] => []
    | s :: ss => .sign .eos :: (s.symbols ++ laterSymbols ss)

def defineSymbols (d : String × Nat) : List Symbol := [.name d.1, .sign .assign, .number d.2]

def constsSymbols : Option (List (String × Nat)) → List Symbol
  | none => []
  | some ds => ofKeyword .const :: (commaList (ds.map defineSymbols) ++ [.sign .eos])

def varsSymbols : Option (List String) → List Symbol
  | none => []
  | some xs => ofKeyword .var :: (commaList (xs.map fun x => [.name x]) ++ [.sign .eos])

mutual

def Block.symbols : Block → List Symbol
  | .mk consts vars procs body =>
    constsSymbols consts ++ (varsSymbols vars ++ (Block.procSymbols procs ++ body.symbols))

def Block.procSymbols : List (String × Block) → List Symbol
  | [] => []
  | (p, b) :: rest =>
    ofKeyword .procedure :: .name p :: .sign .eos ::
      (b.symbols ++ .sign .eos :: Block.procSymbols rest)

end

/-- the symbols of a program in the order of the grammar -/
def Program.symbols (p : Program) : List Symbol := p.block.symbols ++ [.sign .dot]

/-! ## spellings -/

/-- the marks and their spellings -/
def markSpellings : List (Kind × List Char) :=
  [(.dot, ['.']), (.eos, [';']), (.update, [':', '=']), (.comma, [',']), (.lparen, ['(']),
    (.rparen, [')']), (.lt, ['<']), (.lte, ['<', '=']), (.gt, ['>']), (.gte, ['>', '=']),
    (.e, ['=', '=']), (.ne, ['!', '=']), (.plus, ['+']), (.minus, ['-']), (.times, ['*']),
    (.divide, ['/']), (.assign, ['=']), (.print, ['!'])]

/-- the ways to write a symbol -/
inductive Spelled : Symbol → List Char → Prop
  | name (x : String) : Spelled (.name x) x.toList
  | number (n : Nat) : Spelled (.number n) (toString n).toList
  | keyword {w : Keyword} {cs : List Char} :
      cs.map Char.toUpper = w.word.toList → Spelled (ofKeyword w) cs
  | mark {k : Kind} {cs : List Char} : (k, cs) ∈ markSpellings → Spelled (.sign k) cs

/-- blanks, tabs, line ends, and comments with the line end after them -/
inductive Gap : List Char → Prop
  | nil : Gap []
  | blank {c : Char} {cs : List Char} : c = ' ' ∨ c = '\t' ∨ c = '\n' → Gap cs → Gap (c :: cs)
  | comment {body cs : List Char} : '\n' ∉ body → Gap cs → Gap ('#' :: (body ++ '\n' :: cs))

/-- symbols written one after the other, with a gap between any two of them -/
inductive Layout : List Symbol → List Char → Prop
  | last {x : Symbol} {cs : List Char} : Spelled x cs → Layout [x] cs
  | cons {x y : Symbol} {xs : List Symbol} {cs gap rest : List Char} :
      Spelled x cs → Gap gap → gap ≠ [] → Layout (y :: xs) rest →
        Layout (x :: y :: xs) (cs ++ (gap ++ rest))

/-! ## cutting a written text -/

/-- the tokens of a text that starts at the given line and offset -/
def tokensAt (line pos : Int) (cs : List Char) : List Token := tokensFrom line pos (lexemes cs)

theorem lexemes_cons {c : Char} {cs rest : List Char} {x : Lexeme}
    (h : Lexeme.cut c cs = (x, rest)) : lexemes (c :: cs) = x :: lexemes rest := by
  rw [lexemes, h]

theorem tokensAt_blank {c : Char} (hc : c = ' ' ∨ c = '\t') (line pos : Int) (cs : List Char) :
    tokensAt line pos (c :: cs) = tokensAt line (pos + 1) cs := by
  have hcut : Lexeme.cut c cs = (.blank c, cs) := by
    rw [Lexeme.cut, if_pos]
    rcases hc with rfl | rfl <;> rfl
  rw [tokensAt, lexemes_cons hcut, tokensFrom]
  simp [Lexeme.token?, Lexeme.lineCount, Lexeme.text, tokensAt]

theorem cut_newline (cs : List Char) : Lexeme.cut '\n' cs =
    (.newlines ((cs.takeWhile (· == '\n')).length + 1), cs.dropWhile (· == '\n')) := rfl

theorem tokensFrom_newlines (line pos : Int) (n : Nat) (xs : List Lexeme) :
    tokensFrom line pos (.newlines n :: xs) = tokensFrom (line + n) (pos + n) xs := by
  rw [tokensFrom]
  simp [Lexeme.token?, Lexeme.lineCount, Lexeme.text]

/-- a line end counts for itself, also at the start of a longer run of them -/
theorem tokensAt_newline (line pos : Int) (cs : List Char) :
    tokensAt line pos ('\n' :: cs) = tokensAt (line + 1) (pos + 1) cs := by
  rw [tokensAt, lexemes_cons (cut_newline cs), tokensFrom_newlines]
  cases cs with
  | nil => rfl
  | cons c cs =>
    by_cases hc : c = '\n'
    · subst hc
      rw [tokensAt, lexemes_cons (cut_newline cs), tokensFrom_newlines]
      simp only [beq_self_eq_true, List.takeWhile_cons_of_pos, List.length_cons,
        List.dropWhile_cons_of_pos]
      congr 1 <;> omega
    · have hb : (c == '\n') = false := beq_eq_false_iff_ne.mpr hc
      simp only [List.takeWhile_cons, List.dropWhile_cons, hb]
      rfl

theorem tokensAt_comment {body : List Char} (hb : '\n' ∉ body) (line pos : Int)
    (cs : List Char) : tokensAt line pos ('#' :: (body ++ '\n' :: cs)) =
      tokensAt line (pos + (body.length + 1)) ('\n' :: cs) := by
  have hall : ∀ c ∈ body, (c != '\n') = true := by
    intro c hc
    rw [bne_iff_ne]
    rintro rfl
    exact hb hc
  have hcut : Lexeme.cut '#' (body ++ '\n' :: cs) = (.comment ('#' :: body), '\n' :: cs) := by
    show (Lexeme.comment ('#' :: (body ++ '\n' :: cs).takeWhile (· != '\n')),
      (body ++ '\n' :: cs).dropWhile (· != '\n')) = _
    rw [List.takeWhile_append_of_pos hall, List.dropWhile_append_of_pos hall]
    simp
  rw [tokensAt, lexemes_cons hcut, tokensFrom]
  simp [Lexeme.token?, Lexeme.lineCount, Lexeme.text, tokensAt]

/-- a gap holds no tokens -/
theorem tokensAt_gap {gap : List Char} (h : Gap gap) (line pos : Int) (cs : List Char) :
    ∃ line' pos', tokensAt line pos (gap ++ cs) = tokensAt line' pos' cs := by
  induction h generalizing line pos with
  | nil => exact ⟨line, pos, rfl⟩
  | @blank c gap hc _ ih =>
    rcases hc with hc | hc | rfl
    · obtain ⟨l, p, hlp⟩ := ih line (pos + 1)
      exact ⟨l, p, by rw [List.cons_append, tokensAt_blank (.inl hc), hlp]⟩
    · obtain ⟨l, p, hlp⟩ := ih line (pos + 1)
      exact ⟨l, p, by rw [List.cons_append, tokensAt_blank (.inr hc), hlp]⟩
    · obtain ⟨l, p, hlp⟩ := ih (line + 1) (pos + 1)
      exact ⟨l, p, by rw [List.cons_append, tokensAt_newline, hlp]⟩
  | @comment body gap hb _ ih =>
    obtain ⟨l, p, hlp⟩ := ih (line + 1) (pos + (body.length + 1) + 1)
    refine ⟨l, p, ?_⟩
    rw [List.cons_append, List.append_assoc, List.cons_append, tokensAt_comment hb,
      tokensAt_newline, hlp]

/-! ## symbols in a text -/

/-- a rest of a text that no word, number or mark can reach into -/
def Breaks (rest : List Char) : Prop :=
  ∀ c, rest.head? = some c → Lexeme.isNameChar c = false ∧ Text.isDigit c = false ∧ c ≠ '='

theorem Gap.breaks {gap rest : List Char} (h : Gap gap) (hne : gap ≠ []) :
    Breaks (gap ++ rest) := by
  intro c hc
  cases h with
  | nil => exact absurd rfl hne
  | blank hb _ =>
    cases hc
    rcases hb with rfl | rfl | rfl <;> decide
  | comment _ _ =>
    cases hc
    decide

theorem takeWhile_stop {p : Char → Bool} {cs rest : List Char} (hcs : ∀ c ∈ cs, p c = true)
    (hr : ∀ c, rest.head? = some c → p c = false) :
    (cs ++ rest).takeWhile p = cs ∧ (cs ++ rest).dropWhile p = rest := by
  rw [List.takeWhile_append_of_pos hcs, List.dropWhile_append_of_pos hcs]
  cases rest with
  | nil => simp
  | cons c rest =>
    have hc := hr c rfl
    simp [hc]

theorem cut_word {c : Char} {cs rest : List Char} (hc : Lexeme.isNameStart c = true)
    (hcs : ∀ d ∈ cs, Lexeme.isNameChar d = true) (hr : Breaks rest) :
    Lexeme.cut c (cs ++ rest) = (.word (c :: cs), rest) := by
  obtain ⟨ht, hd⟩ := takeWhile_stop hcs fun d hd => (hr d hd).1
  have hs : Lexeme.isSpace c = false := by
    rw [Lexeme.isSpace, Bool.or_eq_false_iff]
    constructor <;> rw [beq_eq_false_iff_ne] <;> rintro rfl <;> revert hc <;> decide
  rw [Lexeme.cut, hs, if_neg Bool.false_ne_true, if_pos hc, ht, hd]

theorem cut_digits {c : Char} {cs rest : List Char} (hc : c.isDigit = true)
    (hcs : ∀ d ∈ cs, d.isDigit = true) (hr : Breaks rest) :
    Lexeme.cut c (cs ++ rest) = (.digits (c :: cs), rest) := by
  obtain ⟨ht, hd⟩ := takeWhile_stop (p := Text.isDigit)
    (fun d hd => Text.isDigit_of_isDigit (hcs d hd)) fun d hd => (hr d hd).2.1
  have hn : 48 ≤ c.toNat ∧ c.toNat ≤ 57 := Text.toNat_of_isDigit hc
  have hne : ∀ d : Char, ¬ (48 ≤ d.toNat ∧ d.toNat ≤ 57) → (c == d) = false := by
    intro d hd
    rw [beq_eq_false_iff_ne]
    rintro rfl
    exact hd hn
  have hs : Lexeme.isSpace c = false := by
    rw [Lexeme.isSpace, hne ' ' (by decide), hne '\t' (by decide)]
    rfl
  have hstart : Lexeme.isNameStart c = false := by
    rw [Lexeme.isNameStart, hne '_' (by decide), Bool.or_false]
    exact Text.isAlpha_of_isDigit hc
  rw [Lexeme.cut, hs, hstart, hne '\n' (by decide), hne '#' (by decide),
    Text.isDigit_of_isDigit hc, ht, hd]
  rfl

/-- only an equals sign can lengthen a mark -/
theorem mark?_eq_none {next : Option Char} (hn : next ≠ some '=') (c : Char) :
    Lexeme.mark? c next = Lexeme.mark? c none := by
  cases next with
  | none => rfl
  | some d =>
    have hd : d ≠ '=' := fun h => hn (congrArg some h)
    unfold Lexeme.mark?
    split <;> simp_all

theorem cut_mark {k : Kind} {cs rest : List Char} (h : (k, cs) ∈ markSpellings)
    (hr : rest.head? ≠ some '=') :
    ∃ c ds, cs = c :: ds ∧ Lexeme.cut c (ds ++ rest) = (.mark k cs, rest) := by
  simp only [markSpellings, List.mem_cons, Prod.mk.injEq, List.not_mem_nil, or_false] at h
  have hm := fun c => mark?_eq_none hr c
  rcases h with ⟨rfl, rfl⟩ | ⟨rfl, rfl⟩ | ⟨rfl, rfl⟩ | ⟨rfl, rfl⟩ | ⟨rfl, rfl⟩ | ⟨rfl, rfl⟩ |
    ⟨rfl, rfl⟩ | ⟨rfl, rfl⟩ | ⟨rfl, rfl⟩ | ⟨rfl, rfl⟩ | ⟨rfl, rfl⟩ | ⟨rfl, rfl⟩ | ⟨rfl, rfl⟩ |
    ⟨rfl, rfl⟩ | ⟨rfl, rfl⟩ | ⟨rfl, rfl⟩ | ⟨rfl, rfl⟩ | ⟨rfl, rfl⟩ <;>
  refine ⟨_, _, rfl, ?_⟩ <;> simp [Lexeme.cut, hm] <;> rfl

theorem tokensAt_cons {c : Char} {cs rest : List Char} {x : Lexeme} {t : Token} {line pos : Int}
    (hcut : Lexeme.cut c cs = (x, rest)) (ht : x.token? line pos = some t) :
    tokensAt line pos (c :: cs) = t :: tokensAt line (pos + x.text.length) rest := by
  rw [tokensAt, lexemes_cons hcut, tokensFrom, ht, Lexeme.lineCount_of_token? ht]
  simp [tokensAt]

theorem isAlpha_of_toUpper {c : Char} (h : c.toUpper.isUpper = true) : c.isAlpha = true := by
  show (c.isUpper || c.isLower) = true
  rw [Bool.or_eq_true]
  by_cases hl : c.isLower = true
  · exact .inr hl
  · have hc : c.toUpper = c := by
      refine dif_neg fun hlower => hl ?_
      show (decide (97 ≤ c.val) && decide (c.val ≤ 122)) = true
      rw [Bool.and_eq_true, decide_eq_true_eq, decide_eq_true_eq]
      exact hlower
    rw [hc] at h
    exact .inl h

theorem word_isUpper (w : Keyword) : w.word.toList.all Char.isUpper = true := by
  cases w <;> decide

theorem word_ne_nil (w : Keyword) : w.word.toList ≠ [] := by
  cases w <;> decide

theorem ofWord?_word (w : Keyword) : Keyword.ofWord? w.word = some w := by
  cases w <;> decide

/-- a keyword in any letter case is a word -/
theorem keyword_chars {w : Keyword} {cs : List Char} (h : cs.map Char.toUpper = w.word.toList) :
    ∃ c ds, cs = c :: ds ∧ Lexeme.isNameStart c = true ∧
      ∀ d ∈ ds, Lexeme.isNameChar d = true := by
  have halpha : ∀ c ∈ cs, c.isAlpha = true := by
    intro c hc
    have hmem : c.toUpper ∈ w.word.toList := by
      rw [← h]
      exact List.mem_map_of_mem hc
    exact isAlpha_of_toUpper (List.all_eq_true.1 (word_isUpper w) _ hmem)
  cases cs with
  | nil => exact absurd h.symm (word_ne_nil w)
  | cons c ds =>
    refine ⟨c, ds, rfl, ?_, fun d hd => ?_⟩
    · simp [Lexeme.isNameStart, halpha c List.mem_cons_self]
    · simp [Lexeme.isNameChar, Char.isAlphanum, halpha d (List.mem_cons_of_mem c hd)]

theorem toList_number (n : Nat) : (toString n).toList = Nat.toDigits 10 n :=
  Nat.toList_repr

theorem Lexeme.mark_symbol {k : Kind} {cs : List Char} (h : (k, cs) ∈ markSpellings)
    (line pos : Int) : (⟨k, .text (String.ofList cs), line, pos⟩ : Token).symbol = .sign k := by
  have hk : k ≠ .name := by
    rintro rfl
    revert h
    simp [markSpellings]
  unfold Token.symbol
  split
  · rename_i hname _
    exact absurd hname hk
  · rename_i hp
    cases hp
  · rfl

/-- a spelled symbol is read as a token that shows it -/
theorem tokensAt_symbol {x : Symbol} {cs rest : List Char} (h : Spelled x cs)
    (hx : ∀ y, x = .name y → Identifier y) (hr : Breaks rest) (line pos : Int) :
    ∃ t pos', t.symbol = x ∧ tokensAt line pos (cs ++ rest) = t :: tokensAt line pos' rest := by
  cases h with
  | name y =>
    have hy := hx y rfl
    obtain ⟨c, ds, hcs, hc, hds⟩ := hy.start
    rw [hcs, List.cons_append]
    refine ⟨⟨.name, .text y, line, pos⟩, _, rfl, tokensAt_cons (cut_word hc hds hr) ?_⟩
    rw [← hcs, Lexeme.token?, hy.plain, String.ofList_toList]
  | number n =>
    rw [toList_number]
    cases hcs : Nat.toDigits 10 n with
    | nil => exact absurd hcs Nat.toDigits_ne_nil
    | cons c ds =>
      have hd : ∀ d ∈ c :: ds, d.isDigit = true := by
        rw [← hcs]
        exact fun d => Text.isDigit_of_mem_toDigits
      have hcut := cut_digits (hd c List.mem_cons_self)
        (fun d hm => hd d (List.mem_cons_of_mem c hm)) hr
      refine ⟨⟨.number, .number n, line, pos⟩, _, rfl, tokensAt_cons hcut ?_⟩
      rw [← hcs, Lexeme.token?, Text.readDigits_toDigits]
      rfl
  | @keyword w cs hw =>
    obtain ⟨c, ds, rfl, hc, hds⟩ := keyword_chars hw
    refine ⟨⟨.keyword w, .text w.word, line, pos⟩, _, rfl,
      tokensAt_cons (cut_word hc hds hr) ?_⟩
    rw [Lexeme.token?, hw, String.ofList_toList, ofWord?_word]
  | @mark k cs hk =>
    obtain ⟨c, ds, rfl, hcut⟩ := cut_mark hk fun he => (hr '=' he).2.2 rfl
    exact ⟨⟨k, .text (String.ofList (c :: ds)), line, pos⟩, _, Lexeme.mark_symbol hk line pos,
      tokensAt_cons hcut rfl⟩

theorem spelled_dot {cs : List Char} (h : Spelled (.sign .dot) cs) : cs = ['.'] := by
  generalize hx : Symbol.sign .dot = x at h
  cases h with
  | name y | number n | keyword _ => cases hx
  | mark hk =>
    cases hx
    simpa [markSpellings] using hk

/-- a text laid out from symbols up to a dot has these symbols as its tokens, whatever follows -/
theorem tokens_of_layout {xs : List Symbol} {text : List Char} (h : Layout xs text)
    (hx : ∀ y, Symbol.name y ∈ xs → Identifier y) (hdot : xs.getLast? = some (.sign .dot))
    (tail : List Char) (line pos : Int) :
    ∃ ts line' pos', ts.map Token.symbol = xs ∧
      tokensAt line pos (text ++ tail) = ts ++ tokensAt line' pos' tail := by
  induction h generalizing line pos with
  | @last x cs hs =>
    obtain rfl : x = .sign .dot := Option.some.inj hdot
    rw [spelled_dot hs]
    exact ⟨[⟨.dot, .text ".", line, pos⟩], line, pos + 1, rfl, tokensAt_cons rfl rfl⟩
  | @cons x y xs cs gap rest hs hg hne _ ih =>
    rw [List.append_assoc, List.append_assoc]
    have hbreaks : Breaks (gap ++ (rest ++ tail)) := hg.breaks hne
    obtain ⟨t, p₁, ht, h₁⟩ :=
      tokensAt_symbol hs (fun z hz => hx z (by simp [hz])) hbreaks line pos
    obtain ⟨l₂, p₂, h₂⟩ := tokensAt_gap hg line p₁ (rest ++ tail)
    obtain ⟨ts, l₃, p₃, hts, h₃⟩ := ih (fun z hz => hx z (List.mem_cons_of_mem x hz))
      (by simpa using hdot) l₂ p₂
    exact ⟨t :: ts, l₃, p₃, by rw [List.map_cons, ht, hts], by rw [h₁, h₂, h₃]; rfl⟩

end Pl0Kit
