import Pl0Kit.Text.Chars

/-!
# Quoted text

Text between quotes: single quotes, or double ones when the text has a single quote and no double
one.  The backslash, the enclosing quote, line ends and tabs are escaped, and so is every
character that shows nothing of its own, by its code point in hexadecimal.
-/

namespace Pl0Kit.Text

def hexDigit (n : Nat) : Char := (Nat.digitChar n)

def hexText : Nat → Nat → List Char
  | 0, _ => []
  | width + 1, n => hexText width (n / 16) ++ [hexDigit (n % 16)]

def escapeChar (mark c : Char) : List Char :=
  if c = mark || c = '\\' then ['\\', c]
  else if c = '\n' then ['\\', 'n']
  else if c = '\r' then ['\\', 'r']
  else if c = '\t' then ['\\', 't']
  else if isShown c then [c]
  else if c.toNat < 0x100 then '\\' :: 'x' :: hexText 2 c.toNat
  else if c.toNat < 0x10000 then '\\' :: 'u' :: hexText 4 c.toNat
  else '\\' :: 'U' :: hexText 8 c.toNat

def quoteMark (s : List Char) : Char :=
  if s.contains '\'' && !s.contains '"' then '"' else '\''

def quoteChars (s : List Char) : List Char :=
  let mark := quoteMark s
  mark :: (s.flatMap (escapeChar mark) ++ [mark])

def quote (s : String) : String := String.ofList (quoteChars s.toList)

end Pl0Kit.Text
