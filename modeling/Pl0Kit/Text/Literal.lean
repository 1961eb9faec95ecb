import Pl0Kit.Text.Number

/-!
# String literals

Reading a quoted text back: single or double quotes, three of them for a text over several lines,
backslash escapes, and neighbouring literals joined.
-/

namespace Pl0Kit.Text

def hexDigit? (c : Char) : Option Nat :=
  if '0' ≤ c ∧ c ≤ '9' then some (c.toNat - '0'.toNat)
  else if 'a' ≤ c ∧ c ≤ 'f' then some (c.toNat - 'a'.toNat + 10)
  else if 'A' ≤ c ∧ c ≤ 'F' then some (c.toNat - 'A'.toNat + 10)
  else none

def octalDigit? (c : Char) : Option Nat :=
  if '0' ≤ c ∧ c ≤ '7' then some (c.toNat - '0'.toNat) else none

def hexDigits? : Nat → Nat → List Char → Option (Nat × List Char)
  | 0, acc, cs => some (acc, cs)
  | n + 1, acc, c :: cs =>
    match hexDigit? c with
    | some d => hexDigits? n (16 * acc + d) cs
    | none => none
  | _ + 1, _, [] => none

def octalDigits : Nat → Nat → List Char → Nat × List Char
  | 0, acc, cs => (acc, cs)
  | n + 1, acc, c :: cs =>
    match octalDigit? c with
    | some d => octalDigits n (8 * acc + d) cs
    | none => (acc, c :: cs)
  | _ + 1, acc, [] => (acc, [])

/-- the characters that an escape stands for, given what follows the backslash -/
def escape? : List Char → Option (List Char × List Char)
  | [] => none
  | 'n' :: cs => some (['\n'], cs)
  | 't' :: cs => some (['\t'], cs)
  | 'r' :: cs => some (['\r'], cs)
  | '\\' :: cs => some (['\\'], cs)
  | '\'' :: cs => some (['\''], cs)
  | '"' :: cs => some (['"'], cs)
  | '\n' :: cs => some ([], cs)
  | 'a' :: cs => some (['\x07'], cs)
  | 'b' :: cs => some (['\x08'], cs)
  | 'f' :: cs => some (['\x0c'], cs)
  | 'v' :: cs => some (['\x0b'], cs)
  | 'x' :: cs => (hexDigits? 2 0 cs).map fun r => ([Char.ofNat r.1], r.2)
  | 'u' :: cs => (hexDigits? 4 0 cs).map fun r => ([Char.ofNat r.1], r.2)
  | 'U' :: cs => (hexDigits? 8 0 cs).map fun r => ([Char.ofNat r.1], r.2)
  | c :: cs =>
    if (octalDigit? c).isSome then
      let r := octalDigits 3 0 (c :: cs)
      some ([Char.ofNat r.1], r.2)
    else some (['\\', c], cs)

/-- the text up to the closing quotes, and what follows them; `n` bounds the length -/
def literalBody (quote : Char) (triple : Bool) : Nat → List Char → Option (List Char × List Char)
  | 0, _ => none
  | _ + 1, [] => none
  | n + 1, '\\' :: cs => do
    let (xs, rest) ← escape? cs
    let (ys, rest) ← literalBody quote triple n rest
    pure (xs ++ ys, rest)
  | n + 1, c :: cs =>
    if c == quote then
      if triple then
        match cs with
        | d :: e :: rest =>
          if d == quote && e == quote then some ([], rest)
          else (literalBody quote triple n cs).map fun r => (c :: r.1, r.2)
        | _ => none
      else some ([], cs)
    else if c == '\n' && !triple then none
    else (literalBody quote triple n cs).map fun r => (c :: r.1, r.2)

def literalHead : List Char → Option (List Char × List Char)
  | q :: cs =>
    if q == '\'' || q == '"' then
      match cs with
      | d :: e :: rest =>
        if d == q && e == q then literalBody q true (rest.length + 1) rest
        else literalBody q false (cs.length + 1) cs
      | _ => literalBody q false (cs.length + 1) cs
    else none
  | [] => none

def literals : Nat → List Char → Option (List Char)
  | 0, _ => none
  | n + 1, cs => do
    let (xs, rest) ← literalHead cs
    match rest.dropWhile (fun c => c == ' ' || c == '\t' || c == '\x0c') with
    | [] => pure xs
    | rest => do
      let ys ← literals n rest
      pure (xs ++ ys)

def readLiteral? (s : String) : Option String :=
  (literals (s.length + 1) s.toList).map String.ofList

end Pl0Kit.Text
