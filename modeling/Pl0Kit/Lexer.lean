import Pl0Kit.Reading

/-!
# Lexers

A lexer is a text with a place in it.  Requests move the place; a clone starts from the same place
and goes its own way, but all clones share one stack of saved conditions.  The only condition a
lexer of this language can be in is `INITIAL`, so the stack is a number.
-/

namespace Pl0Kit

structure Lexer where
  source : Option (List Char) := none
  pos : Int := 0
  line : Int := 1
  deriving Inhabited, Repr

namespace Lexer

/-- a new text, read from its start; the line count goes on -/
def input (l : Lexer) (s : String) : Lexer := { l with source := some s.toList, pos := 0 }

def skip (l : Lexer) (n : Int) : Lexer := { l with pos := l.pos + n }

/-- One reading at a place before the start of the text, `k` characters before its end.  Blanks are
seen at that place, all else is matched at the start of the text. -/
def readBefore (cs : List Char) (line : Int) (illegal : List Char) : Nat → Except Fault Reading
  | 0 =>
    let r := (firstReading line 0 illegal (lexemes cs)).1
    .ok r
  | k + 1 =>
    if cs.length < k + 1 then .error .outOfRange
    else
      match cs[cs.length - (k + 1)]? with
      | none => .error .outOfRange
      | some c =>
        if Lexeme.isSpace c then readBefore cs line illegal k
        else
          match lexemes cs with
          | [] => .error .outOfRange
          | .blank _ :: _ => readBefore cs line (c :: illegal) k
          | .illegal _ :: _ => readBefore cs line (c :: illegal) k
          | x :: xs =>
            match x.token? line (-((k : Int) + 1)) with
            | some t => .ok ⟨some t, illegal.reverse, line, x.text.length⟩
            | none => .ok (firstReading (line + x.lineCount) x.text.length illegal xs).1

/-- the next reading, and the lexer after it -/
def read (l : Lexer) : Except Fault Reading × Lexer :=
  match l.source with
  | none => (.error .noInput, { l with pos := l.pos + 1 })
  | some cs =>
    if l.pos < 0 then
      match readBefore cs l.line [] l.pos.natAbs with
      | .ok r => (.ok r, { l with pos := r.pos, line := r.line })
      | .error f => (.error f, l)
    else if (cs.length : Int) ≤ l.pos then
      (.ok ⟨none, [], l.line, l.pos + 1⟩, { l with pos := l.pos + 1 })
    else
      let r := (firstReading l.line l.pos [] (lexemes (cs.drop l.pos.toNat))).1
      (.ok r, { l with pos := r.pos, line := r.line })

end Lexer

/-- lexers numbered from 0, the one in use, and the number of saved conditions they share -/
structure LexerShelf where
  lexers : List Lexer := [{}]
  current : Nat := 0
  saved : Nat := 0
  deriving Inhabited, Repr

inductive LexerRequest where
  | input (s : String)
  | skip (n : Int)
  | begin (condition : String)
  | push (condition : String)
  | pop
  | condition
  | token
  | next
  | clone
  | use (n : Int)
  | setLine (n : Int)
  deriving Inhabited, Repr

/-- what a request answers -/
inductive LexerAnswer where
  | nothing
  | condition (name : String)
  | token (t : Option Token)
  | number (n : Nat)
  deriving Inhabited, Repr

namespace LexerShelf

def onlyCondition : String := "INITIAL"

def lexer (s : LexerShelf) : Lexer := s.lexers[s.current]?.getD {}

def setLexer (s : LexerShelf) (l : Lexer) : LexerShelf :=
  { s with lexers := s.lexers.set s.current l }

def checkCondition (name : String) : Except Fault LexerAnswer :=
  if name == onlyCondition then .ok .nothing else .error .badValue

/-- the outcome of a request, the report it prints, and the shelf after it -/
def run (s : LexerShelf) : LexerRequest → Except Fault LexerAnswer × String × LexerShelf
  | .input t => (.ok .nothing, "", s.setLexer (s.lexer.input t))
  | .skip n => (.ok .nothing, "", s.setLexer (s.lexer.skip n))
  | .begin c => (checkCondition c, "", s)
  | .push c => (checkCondition c, "", { s with saved := s.saved + 1 })
  | .pop =>
    if s.saved = 0 then (.error .outOfRange, "", s)
    else (.ok .nothing, "", { s with saved := s.saved - 1 })
  | .condition => (.ok (.condition onlyCondition), "", s)
  | .token =>
    match s.lexer.read with
    | (.ok r, l) => (.ok (.token r.token), r.report, s.setLexer l)
    | (.error f, l) => (.error f, "", s.setLexer l)
  | .next =>
    match s.lexer.read with
    | (.ok r, l) =>
      (match r.token with
        | some t => .ok (.token (some t))
        | none => .error .ended, r.report, s.setLexer l)
    | (.error f, l) => (.error f, "", s.setLexer l)
  | .clone =>
    (.ok (.number s.lexers.length), "", { s with lexers := s.lexers ++ [s.lexer] })
  | .use n =>
    let i : Int := if n < 0 then n + s.lexers.length else n
    if 0 ≤ i ∧ i < s.lexers.length then (.ok .nothing, "", { s with current := i.toNat })
    else (.error .outOfRange, "", s)
  | .setLine n => (.ok .nothing, "", s.setLexer { s.lexer with line := n })

end LexerShelf

end Pl0Kit
