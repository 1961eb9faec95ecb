import Pl0Kit.Text.WordRanges
import Pl0Kit.Text.HiddenRanges

/-!
# Character classes

Blanks, line ends, decimal digits of every script, word characters and characters that text
shows as they are.  The ASCII part of each class is spelled out; the rest is looked up in tables.
-/

namespace Pl0Kit.Text

def inRanges (rs : List (Nat × Nat)) (n : Nat) : Bool :=
  rs.any fun r => r.1 ≤ n && n ≤ r.2

/-- code points of the zeros: a decimal digit lies at most nine above one of them -/
def digitZeros : List Nat :=
  [0x30, 0x660, 0x6F0, 0x7C0, 0x966, 0x9E6, 0xA66, 0xAE6, 0xB66, 0xBE6, 0xC66, 0xCE6, 0xD66, 0xDE6,
   0xE50, 0xED0, 0xF20, 0x1040, 0x1090, 0x17E0, 0x1810, 0x1946, 0x19D0, 0x1A80, 0x1A90, 0x1B50,
   0x1BB0, 0x1C40, 0x1C50, 0xA620, 0xA8D0, 0xA900, 0xA9D0, 0xA9F0, 0xAA50, 0xABF0, 0xFF10, 0x104A0,
   0x10D30, 0x11066, 0x110F0, 0x11136, 0x111D0, 0x112F0, 0x11450, 0x114D0, 0x11650, 0x116C0,
   0x11730, 0x118E0, 0x11950, 0x11C50, 0x11D50, 0x11DA0, 0x16A60, 0x16AC0, 0x16B50, 0x1D7CE,
   0x1D7D8, 0x1D7E2, 0x1D7EC, 0x1D7F6, 0x1E140, 0x1E2F0, 0x1E950, 0x1FBF0]

def digitValue? (c : Char) : Option Nat :=
  (digitZeros.find? fun z => z ≤ c.toNat && c.toNat ≤ z + 9).map fun z => c.toNat - z

def isDigit (c : Char) : Bool := (digitValue? c).isSome

/-- blanks, tabs, line and page ends, and the separator characters -/
def isBlank (c : Char) : Bool :=
  let n := c.toNat
  (9 ≤ n && n ≤ 13) || (28 ≤ n && n ≤ 32) || n = 0x85 || n = 0xA0 || n = 0x1680 ||
    (0x2000 ≤ n && n ≤ 0x200A) || n = 0x2028 || n = 0x2029 || n = 0x202F || n = 0x205F || n = 0x3000

def isLineEnd (c : Char) : Bool :=
  let n := c.toNat
  (10 ≤ n && n ≤ 13) || (28 ≤ n && n ≤ 30) || n = 0x85 || n = 0x2028 || n = 0x2029

def isWord (c : Char) : Bool :=
  if c.toNat < 128 then c.isAlphanum || c == '_' else inRanges wordRanges c.toNat

/-- characters that quoted text shows as they are -/
def isShown (c : Char) : Bool :=
  if c.toNat < 128 then 32 ≤ c.toNat && c.toNat < 127 else !inRanges hiddenRanges c.toNat

/-- upper case of a character, as the text that stands for it; ASCII, Latin, Greek and Cyrillic -/
def upperChar (c : Char) : String :=
  let n := c.toNat
  let shift (k : Nat) := String.singleton (Char.ofNat (n - k))
  if n = 0xDF then "SS"
  else if n = 0xB5 then String.singleton (Char.ofNat 0x39C)
  else if n = 0xFF then String.singleton (Char.ofNat 0x178)
  else if (97 ≤ n && n ≤ 122) || (0xE0 ≤ n && n ≤ 0xFE && n ≠ 0xF7) then shift 32
  else if n = 0x3C2 then String.singleton (Char.ofNat 0x3A3)
  else if 0x3B1 ≤ n && n ≤ 0x3CB then shift 32
  else if 0x430 ≤ n && n ≤ 0x44F then shift 32
  else if 0x450 ≤ n && n ≤ 0x45F then shift 80
  else String.singleton c

def upperText (s : String) : String := String.join (s.toList.map upperChar)

end Pl0Kit.Text
