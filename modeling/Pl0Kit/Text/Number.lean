import Pl0Kit.Text.Chars

/-!
# Integers in text

Reading decimal integers: an optional sign, then digits of any script, where single underscores
may stand between digits.  Blanks around the number are ignored.
-/

namespace Pl0Kit.Text

/-- value of a run of digits read after the digits that make up `acc`; `none` at a non-digit -/
def readDigits (acc : Nat) : List Char → Option Nat
  | [] => some acc
  | c :: cs =>
    match digitValue? c with
    | some d => readDigits (acc * 10 + d) cs
    | none => none

def joinDigitGroups : List Char → List Char
  | a :: '_' :: b :: rest =>
    if isDigit a && isDigit b then a :: joinDigitGroups (b :: rest)
    else a :: '_' :: joinDigitGroups (b :: rest)
  | a :: rest => a :: joinDigitGroups rest
  | [] => []

def readNat? (cs : List Char) : Option Nat :=
  match joinDigitGroups cs with
  | [] => none
  | ds => readDigits 0 ds

def trimLeft (cs : List Char) : List Char := cs.dropWhile isBlank
def trimRight (cs : List Char) : List Char := (cs.reverse.dropWhile isBlank).reverse
def trim (cs : List Char) : List Char := trimRight (trimLeft cs)

def readInt? (cs : List Char) : Option Int :=
  match trim cs with
  | '-' :: ds => (readNat? ds).map fun n => -(n : Int)
  | '+' :: ds => (readNat? ds).map fun n => (n : Int)
  | ds => (readNat? ds).map fun n => (n : Int)

def intText (n : Int) : String := toString n

end Pl0Kit.Text
