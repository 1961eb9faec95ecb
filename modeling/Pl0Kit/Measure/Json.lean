import Pl0Kit.Decimal
import Pl0Kit.Text.Literal

/-!
# JSON texts

Reading and writing JSON.  Objects keep the order of their keys, and of equal keys the last value
counts.  Text is written in ASCII.
-/

namespace Pl0Kit.Measure

inductive Json where
  | null
  | bool (b : Bool)
  | int (n : Int)
  | num (d : Decimal)
  | str (s : String)
  | arr (items : List Json)
  | obj (entries : List (String × Json))
  deriving Inhabited

/-- what was expected, and how many characters were left -/
structure JsonFault where
  wanted : String
  left : Nat
  deriving Inhabited, Repr

namespace Json

def field? (j : Json) (key : String) : Option Json :=
  match j with
  | obj es => es.lookup key
  | _ => none

/-! ## reading -/

def isSpace (c : Char) : Bool := c == ' ' || c == '\t' || c == '\n' || c == '\r'

def skip (cs : List Char) : List Char := cs.dropWhile isSpace

/-- the code unit of an escape `\u`, given what follows it -/
def unit? (cs : List Char) : Option (Nat × List Char) := Text.hexDigits? 4 0 cs

/-- text up to the closing quote, and what follows it; `start` is the number of characters left at
the opening quote -/
def textBody (start : Nat) : Nat → List Char → Except JsonFault (List Char × List Char)
  | 0, _ => .error ⟨"Unterminated string starting at", start⟩
  | _ + 1, [] => .error ⟨"Unterminated string starting at", start⟩
  | _ + 1, '"' :: cs => .ok ([], cs)
  | n + 1, '\\' :: cs => do
    let simple (c : Char) (rest : List Char) := do
      let (xs, rest) ← textBody start n rest
      pure (c :: xs, rest)
    match cs with
    | [] => .error ⟨"Unterminated string starting at", start⟩
    | 'n' :: r => simple '\n' r
    | 't' :: r => simple '\t' r
    | 'r' :: r => simple '\r' r
    | 'b' :: r => simple '\x08' r
    | 'f' :: r => simple '\x0c' r
    | '"' :: r => simple '"' r
    | '\\' :: r => simple '\\' r
    | '/' :: r => simple '/' r
    | 'u' :: r =>
      match unit? r with
      | none => .error ⟨"Invalid \\uXXXX escape", cs.length⟩
      | some (hi, r) =>
        match r with
        | '\\' :: 'u' :: r' =>
          match unit? r' with
          | some (lo, r') =>
            if 0xD800 ≤ hi ∧ hi < 0xDC00 ∧ 0xDC00 ≤ lo ∧ lo < 0xE000 then
              simple (Char.ofNat (0x10000 + (hi - 0xD800) * 0x400 + (lo - 0xDC00))) r'
            else simple (Char.ofNat hi) r
          | none => simple (Char.ofNat hi) r
        | _ => simple (Char.ofNat hi) r
    | _ => .error ⟨"Invalid \\escape", cs.length + 1⟩
  | n + 1, c :: cs => do
    if c.toNat < 32 then .error ⟨"Invalid control character at", cs.length + 1⟩
    let (xs, rest) ← textBody start n cs
    pure (c :: xs, rest)

/-- sets the value of a key; a known key keeps its place -/
def put (key : String) (v : Json) : List (String × Json) → List (String × Json)
  | [] => [(key, v)]
  | (k, w) :: es => if k == key then (k, v) :: es else (k, w) :: put key v es

mutual

/-- a value at the head of a text, and the rest -/
def value : Nat → List Char → Except JsonFault (Json × List Char)
  | 0, cs => .error ⟨"Expecting value", cs.length⟩
  | n + 1, cs =>
    match cs with
    | '"' :: r => do
      let (s, rest) ← textBody cs.length (r.length + 1) r
      pure (str (String.ofList s), rest)
    | '\x7b' :: r =>
      match skip r with
      | '\x7d' :: rest => pure (obj [], rest)
      | r => entries n [] r
    | '[' :: r =>
      match skip r with
      | ']' :: rest => pure (arr [], rest)
      | r => elements n [] r
    | 'n' :: 'u' :: 'l' :: 'l' :: rest => pure (null, rest)
    | 't' :: 'r' :: 'u' :: 'e' :: rest => pure (bool true, rest)
    | 'f' :: 'a' :: 'l' :: 's' :: 'e' :: rest => pure (bool false, rest)
    | _ =>
      match Decimal.read? cs with
      | some (d, true, rest) => pure (int d.digits, rest)
      | some (d, false, rest) => pure (num d, rest)
      | none => .error ⟨"Expecting value", cs.length⟩

def entries : Nat → List (String × Json) → List Char → Except JsonFault (Json × List Char)
  | 0, _, cs => .error ⟨"Expecting value", cs.length⟩
  | n + 1, es, cs =>
    match cs with
    | '"' :: r => do
      let (k, rest) ← textBody cs.length (r.length + 1) r
      match skip rest with
      | ':' :: rest => do
        let (v, rest) ← value n (skip rest)
        let es := put (String.ofList k) v es
        match skip rest with
        | '\x7d' :: rest => pure (obj es, rest)
        | ',' :: rest => entries n es (skip rest)
        | rest => .error ⟨"Expecting ',' delimiter", rest.length⟩
      | rest => .error ⟨"Expecting ':' delimiter", rest.length⟩
    | _ => .error ⟨"Expecting property name enclosed in double quotes", cs.length⟩

def elements : Nat → List Json → List Char → Except JsonFault (Json × List Char)
  | 0, _, cs => .error ⟨"Expecting value", cs.length⟩
  | n + 1, xs, cs => do
    let (v, rest) ← value n cs
    match skip rest with
    | ']' :: rest => pure (arr (v :: xs).reverse, rest)
    | ',' :: rest => elements n (v :: xs) (skip rest)
    | rest => .error ⟨"Expecting ',' delimiter", rest.length⟩

end

/-- the value that a whole text is -/
def read (text : String) : Except JsonFault Json := do
  let cs := text.toList
  let (v, rest) ← value (cs.length + 1) (skip cs)
  match skip rest with
  | [] => pure v
  | rest => .error ⟨"Extra data", rest.length⟩

/-- the wording of a fault in a text, with its line, column and offset -/
def faultText (text : String) (f : JsonFault) : String :=
  let before := text.toList.take (text.length - f.left)
  let line := (before.filter (· == '\n')).length + 1
  let column := (before.reverse.takeWhile (· != '\n')).length + 1
  f.wanted ++ ": line " ++ toString line ++ " column " ++ toString column ++ " (char " ++
    toString before.length ++ ")"

/-! ## writing -/

def hex4 (n : Nat) : String :=
  let ds := Nat.toDigits 16 n
  "\\u" ++ String.ofList (List.replicate (4 - ds.length) '0' ++ ds)

def escaped (c : Char) : String :=
  match c with
  | '"' => "\\\""
  | '\\' => "\\\\"
  | '\n' => "\\n"
  | '\r' => "\\r"
  | '\t' => "\\t"
  | '\x08' => "\\b"
  | '\x0c' => "\\f"
  | c =>
    let n := c.toNat
    if 32 ≤ n ∧ n < 127 then String.singleton c
    else if n < 0x10000 then hex4 n
    else hex4 (0xD800 + (n - 0x10000) / 0x400) ++ hex4 (0xDC00 + (n - 0x10000) % 0x400)

def quoted (s : String) : String := "\"" ++ String.join (s.toList.map escaped) ++ "\""

def text : Json → String
  | null => "null"
  | bool true => "true"
  | bool false => "false"
  | int n => Text.intText n
  | num d => d.text
  | str s => quoted s
  | arr xs => "[" ++ ", ".intercalate (texts xs) ++ "]"
  | obj es => "\x7b" ++ ", ".intercalate (entryTexts es) ++ "\x7d"
where
  texts : List Json → List String
    | [] => []
    | x :: xs => x.text :: texts xs
  entryTexts : List (String × Json) → List String
    | [] => []
    | (k, v) :: es => (quoted k ++ ": " ++ v.text) :: entryTexts es

end Json

end Pl0Kit.Measure
