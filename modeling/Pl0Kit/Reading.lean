import Pl0Kit.Lexeme

/-!
# Reading tokens

One reading is what a single request for a token does: the characters that belonged to nothing and
were reported on the way, the token found (none at the end of the text), and the line and offset at
which the reader stands afterwards.
-/

namespace Pl0Kit

structure Reading where
  token : Option Token
  /-- characters reported as illegal before the token -/
  illegal : List Char
  line : Int
  pos : Int
  deriving DecidableEq, Inhabited, Repr

def illegalLine (c : Char) : String := "Illegal character '" ++ String.singleton c ++ "'\n"

def Reading.report (r : Reading) : String := String.join (r.illegal.map illegalLine)

/-- the first reading of a text cut into lexemes, and the lexemes after it.  At the end of the text
the reader stands one past it. -/
def firstReading (line pos : Int) (seen : List Char) : List Lexeme → Reading × List Lexeme
  | [] => (⟨none, seen.reverse, line, pos + 1⟩, [])
  | x :: xs =>
    match x.token? line pos with
    | some t => (⟨some t, seen.reverse, line, pos + x.text.length⟩, xs)
    | none =>
      firstReading (line + x.lineCount) (pos + x.text.length) (x.reported ++ seen) xs

theorem firstReading_length (xs : List Lexeme) : ∀ (line pos : Int) (seen : List Char),
    (firstReading line pos seen xs).1.token.isSome →
      (firstReading line pos seen xs).2.length < xs.length := by
  induction xs with
  | nil => intro line pos seen h; simp [firstReading] at h
  | cons x xs ih =>
    intro line pos seen h
    rw [firstReading] at h ⊢
    split
    · simp
    · rename_i hx
      rw [hx] at h
      exact Nat.lt_succ_of_lt (ih _ _ _ h)

def readings (line pos : Int) (xs : List Lexeme) : List Reading :=
  let r := firstReading line pos [] xs
  if r.1.token.isSome then r.1 :: readings r.1.line r.1.pos r.2 else [r.1]
termination_by xs.length
decreasing_by exact firstReading_length xs line pos [] (by assumption)

def readText (line : Int) (source : List Char) : List Reading := readings line 0 (lexemes source)

end Pl0Kit
