import Pl0Kit.Parse

/-!
# Parsing a list of tokens

A list of tokens can be parsed in place of a text.  Such a list has no lines and offsets of its own,
so a fault at its end is reported at line 1 and offset 0.
-/

namespace Pl0Kit

/-- the tokens of a text -/
def tokensOf (source : String) : List Token := (readText 1 source.toList).filterMap Reading.token

/-- a reading that finds a token of a list -/
def Reading.replay (t : Token) : Reading := ⟨some t, [], 1, 0⟩

/-- a cursor at the first of some tokens -/
def Cursor.replay (label : String) (ts : List Token) : Cursor :=
  ({ ahead := ts.map Reading.replay, label := some label, overrun := 0 } : Cursor).step

/-- the program that a list of tokens holds -/
def parseTokens (label : String) (ts : List Token) : Except Fault Program × Cursor :=
  (Parse.complete Parse.program).run.run (Cursor.replay label ts)

end Pl0Kit
