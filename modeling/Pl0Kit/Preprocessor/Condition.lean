import Pl0Kit.Text.Literal
import Pl0Kit.Value.Access

/-!
# Conditions

The expressions that conditions are: integers, texts, arithmetic, chained comparisons and logic, of
which `and` and `or` give one of their operands and look at the second one only if it matters.
Division rounds down.  A condition is read (`read`) and then worked out (`Expr.value`); what is
never worked out does not matter.
-/

namespace Pl0Kit.Preprocessor.Condition

inductive Expr where
  | lit (v : Value)
  | name (s : String)
  | unary (op : String) (e : Expr)
  | binary (op : String) (a b : Expr)
  | negated (e : Expr)
  | both (a b : Expr)
  | either (a b : Expr)
  | compared (first : Expr) (rest : List (String × Expr))
  | tuple (es : List Expr)
  | list (es : List Expr)
  /-- use of a value as a function; no value is one -/
  | called (f : Expr)
  deriving Inhabited

/-! ## words -/

inductive Word where
  | number (n : Nat)
  | text (s : String)
  | name (s : String)
  | op (s : String)
  | newline
  deriving Inhabited, BEq, Repr

def isNameStart (c : Char) : Bool := Text.isWord c && !Text.isDigit c

def doubles : List String := ["**", "//", "<<", ">>", "<=", ">=", "==", "<>"]

def singles : List Char := "+-*/%|&~^<>=()[],.:;@\x7b\x7d".toList

/-- a number in some base, read after the digits that make up `acc`, and the rest -/
def digitsIn (base : Nat) (acc : Nat) : List Char → Nat × List Char
  | [] => (acc, [])
  | c :: cs =>
    match Text.hexDigit? c with
    | some d => if d < base then digitsIn base (base * acc + d) cs else (acc, c :: cs)
    | none => (acc, c :: cs)

/-- A number at the head of a text.  A leading zero makes it octal; a suffix `L` is passed over, and
no letter or digit may follow. -/
def number? (cs : List Char) : Option (Nat × List Char) :=
  let (n, rest) := match cs with
    | '0' :: 'x' :: ds => digitsIn 16 0 ds
    | '0' :: 'X' :: ds => digitsIn 16 0 ds
    | '0' :: ds => digitsIn 8 0 ds
    | ds => digitsIn 10 0 ds
  let rest := match rest with
    | 'L' :: r => r
    | 'l' :: r => r
    | r => r
  match rest with
  | c :: _ => if Text.isWord c || c == '.' then none else some (n, rest)
  | [] => some (n, rest)

/-- The words of a text, `depth` parentheses being open.  Line ends count outside of them only. -/
def words : Nat → Nat → List Char → Option (List Word)
  | 0, _, _ => none
  | _ + 1, _, [] => some []
  | fuel + 1, depth, c :: cs =>
    if c == ' ' || c == '\t' || c == '\x0c' then words fuel depth cs
    else if c == '\n' || c == '\r' then
      if depth == 0 then (words fuel depth cs).map (.newline :: ·) else words fuel depth cs
    else if c == '#' then words fuel depth (cs.dropWhile (· != '\n'))
    else if c == '\\' then
      match cs with
      | '\n' :: cs => words fuel depth cs
      | _ => none
    else if '0' ≤ c && c ≤ '9' then do
      let (n, rest) ← number? (c :: cs)
      (words fuel depth rest).map (.number n :: ·)
    else if c == '"' || c == '\'' then do
      let (s, rest) ← Text.literalHead (c :: cs)
      (words fuel depth rest).map (.text (String.ofList s) :: ·)
    else if isNameStart c then
      let run := (c :: cs).takeWhile Text.isWord
      (words fuel depth ((c :: cs).dropWhile Text.isWord)).map (.name (String.ofList run) :: ·)
    else
      let two := String.ofList ((c :: cs).take 2)
      if doubles.contains two then (words fuel depth (cs.drop 1)).map (.op two :: ·)
      else if singles.contains c then
        let depth := if c == '(' || c == '[' then depth + 1
          else if c == ')' || c == ']' then depth - 1 else depth
        (words fuel depth cs).map (.op (String.singleton c) :: ·)
      else none

/-! ## reading -/

/-- how tightly the operators of arithmetic bind, the loosest first -/
def levels : List (List String) :=
  [["|"], ["^"], ["&"], ["<<", ">>"], ["+", "-"], ["*", "/", "%", "//"]]

def comparisons : List String := ["<", ">", "==", "<=", ">=", "<>"]

inductive Part where
  | any
  | items
  | conjunction
  | negation
  | comparison
  | arithmetic (level : Nat)
  | factor
  | power
  deriving Inhabited

def reserved : List String :=
  ["and", "or", "not", "if", "else", "in", "is", "for", "lambda", "while", "def", "class", "return",
    "import", "from", "as", "with", "try", "except", "finally", "raise", "pass", "break",
    "continue", "del", "global", "nonlocal", "assert", "yield", "elif", "async", "await"]

mutual

def part : Nat → Part → List Word → Option (Expr × List Word)
  | 0, _, _ => none
  | n + 1, .any, ws => do
    let (e, ws) ← part n .conjunction ws
    match ws with
    | .name "or" :: ws => do
      let (r, ws) ← part n .any ws
      pure (.either e r, ws)
    | ws => pure (e, ws)
  | n + 1, .items, ws => do
    let (e, ws) ← part n .any ws
    match ws with
    | .op "," :: ws => do
      let (es, ws) ← items n ws
      pure (.tuple (e :: es), ws)
    | ws => pure (e, ws)
  | n + 1, .conjunction, ws => do
    let (e, ws) ← part n .negation ws
    match ws with
    | .name "and" :: ws => do
      let (r, ws) ← part n .conjunction ws
      pure (.both e r, ws)
    | ws => pure (e, ws)
  | n + 1, .negation, ws =>
    match ws with
    | .name "not" :: ws => do
      let (e, ws) ← part n .negation ws
      pure (.negated e, ws)
    | ws => part n .comparison ws
  | n + 1, .comparison, ws => do
    let (e, ws) ← part n (.arithmetic 0) ws
    let (es, ws) ← chain n ws
    pure (if es.isEmpty then e else .compared e es, ws)
  | n + 1, .arithmetic level, ws =>
    match levels[level]? with
    | none => part n .factor ws
    | some ops => do
      let (e, ws) ← part n (.arithmetic (level + 1)) ws
      further n ops level e ws
  | n + 1, .factor, ws =>
    match ws with
    | .op "+" :: ws => do
      let (e, ws) ← part n .factor ws
      pure (.unary "+" e, ws)
    | .op "-" :: ws => do
      let (e, ws) ← part n .factor ws
      pure (.unary "-" e, ws)
    | .op "~" :: ws => do
      let (e, ws) ← part n .factor ws
      pure (.unary "~" e, ws)
    | ws => part n .power ws
  | n + 1, .power, ws => do
    let (e, ws) ← atom n ws
    let (e, ws) ← trailers n e ws
    match ws with
    | .op "**" :: ws => do
      let (r, ws) ← part n .factor ws
      pure (.binary "**" e r, ws)
    | ws => pure (e, ws)

def further : Nat → List String → Nat → Expr → List Word → Option (Expr × List Word)
  | 0, _, _, _, _ => none
  | n + 1, ops, level, e, ws =>
    match ws with
    | .op o :: rest =>
      if ops.contains o then do
        let (r, rest) ← part n (.arithmetic (level + 1)) rest
        further n ops level (.binary o e r) rest
      else some (e, ws)
    | _ => some (e, ws)

def chain : Nat → List Word → Option (List (String × Expr) × List Word)
  | 0, _ => none
  | n + 1, ws =>
    match ws with
    | .op o :: rest =>
      if comparisons.contains o then do
        let (r, rest) ← part n (.arithmetic 0) rest
        let (es, rest) ← chain n rest
        pure ((o, r) :: es, rest)
      else some ([], ws)
    | _ => some ([], ws)

def items : Nat → List Word → Option (List Expr × List Word)
  | 0, _ => none
  | n + 1, ws =>
    match ws with
    | [] => some ([], ws)
    | .newline :: _ => some ([], ws)
    | .op ")" :: _ => some ([], ws)
    | .op "]" :: _ => some ([], ws)
    | ws => do
      let (e, ws) ← part n .any ws
      match ws with
      | .op "," :: ws => do
        let (es, ws) ← items n ws
        pure (e :: es, ws)
      | ws => pure ([e], ws)

def atom : Nat → List Word → Option (Expr × List Word)
  | 0, _ => none
  | n + 1, ws =>
    match ws with
    | .number k :: ws => some (.lit (.int k), ws)
    | .text s :: ws => moreText n s ws
    | .name "True" :: ws => some (.lit (.bool true), ws)
    | .name "False" :: ws => some (.lit (.bool false), ws)
    | .name "None" :: ws => some (.lit .none, ws)
    | .name s :: ws => if reserved.contains s then none else some (.name s, ws)
    | .op "(" :: .op ")" :: ws => some (.tuple [], ws)
    | .op "(" :: ws => do
      let (e, ws) ← part n .items ws
      match ws with
      | .op ")" :: ws => pure (e, ws)
      | _ => none
    | .op "[" :: ws => do
      let (es, ws) ← items n ws
      match ws with
      | .op "]" :: ws => pure (.list es, ws)
      | _ => none
    | _ => none

/-- neighbouring texts are one text -/
def moreText : Nat → String → List Word → Option (Expr × List Word)
  | 0, _, _ => none
  | n + 1, s, ws =>
    match ws with
    | .text t :: ws => moreText n (s ++ t) ws
    | ws => some (.lit (.str s), ws)

/-- brackets after a value, which use it as a function or a table -/
def trailers : Nat → Expr → List Word → Option (Expr × List Word)
  | 0, _, _ => none
  | n + 1, e, ws =>
    match ws with
    | .op "(" :: ws => do
      let (_, ws) ← items n ws
      match ws with
      | .op ")" :: ws => trailers n (.called e) ws
      | _ => none
    | .op "[" :: ws => do
      let (es, ws) ← items n ws
      match es, ws with
      | _ :: _, .op "]" :: ws => trailers n (.called e) ws
      | _, _ => none
    | ws => some (e, ws)

end

def read (text : String) : Option Expr := do
  let ws ← words (text.length + 1) 0 text.toList
  let ws := ws.dropWhile (· == .newline)
  let (e, rest) ← part (16 * (ws.length + 2)) .items ws
  if rest.all (· == .newline) then pure e else none

/-! ## values -/

/-- `a` and `b` on the infinite binary digits of both -/
def bitAnd (a b : Int) : Int :=
  match a, b with
  | .ofNat m, .ofNat n => (m &&& n : Nat)
  | .ofNat m, .negSucc n => (m - (m &&& n) : Nat)
  | .negSucc m, .ofNat n => (n - (n &&& m) : Nat)
  | .negSucc m, .negSucc n => .negSucc (m ||| n)

def bitNot (a : Int) : Int := -a - 1

def bitOr (a b : Int) : Int := bitNot (bitAnd (bitNot a) (bitNot b))

def bitXor (a b : Int) : Int :=
  match a, b with
  | .ofNat m, .ofNat n => (m ^^^ n : Nat)
  | .ofNat m, .negSucc n => .negSucc (m ^^^ n)
  | .negSucc m, .ofNat n => .negSucc (m ^^^ n)
  | .negSucc m, .negSucc n => (m ^^^ n : Nat)

/-- an operation on digits keeps truth values if both are -/
def bitwise (f : Int → Int → Int) (a b : Value) : Except Fault Value :=
  match a, b with
  | .bool p, .bool q =>
    .ok (.bool (f (if p then 1 else 0) (if q then 1 else 0) != 0))
  | a, b =>
    match a.toInt?, b.toInt? with
    | some m, some n => .ok (.int (f m n))
    | _, _ => .error .wrongType

def onInts (f : Int → Int → Except Fault Int) (a b : Value) : Except Fault Value :=
  match a.toInt?, b.toInt? with
  | some m, some n => (f m n).map .int
  | _, _ => .error .wrongType

def binaryValue (op : String) (a b : Value) : Except Fault Value :=
  match op with
  | "+" => a.add b
  | "-" => a.sub b
  | "*" => a.mul b
  | "/" | "//" => a.floorDiv b
  | "%" => onInts (fun m n => if n = 0 then .error .divisionByZero else .ok (m.fmod n)) a b
  | "<<" => onInts (fun m n => if n < 0 then .error .badValue else .ok (m * Nat.pow 2 n.toNat)) a b
  | ">>" =>
    onInts (fun m n => if n < 0 then .error .badValue else .ok (m.fdiv (Nat.pow 2 n.toNat))) a b
  | "&" => bitwise bitAnd a b
  | "|" => bitwise bitOr a b
  | "^" => bitwise bitXor a b
  | "**" => onInts (fun m n => if n < 0 then .error .badValue else .ok (m.pow n.toNat)) a b
  | _ => .error .malformed

def unaryValue (op : String) (a : Value) : Except Fault Value :=
  match a.toInt? with
  | none => .error .wrongType
  | some n => .ok (.int (match op with | "-" => -n | "~" => bitNot n | _ => n))

def compareValue (op : String) (a b : Value) : Except Fault Bool :=
  match op with
  | "==" => .ok (a.same b)
  | "<>" => .ok (!a.same b)
  | "<" => (a.order b).map (· == .lt)
  | ">" => (a.order b).map (· == .gt)
  | "<=" => (a.order b).map (· != .gt)
  | ">=" => (a.order b).map (· != .lt)
  | _ => .error .malformed

def Expr.value : Expr → Except Fault Value
  | lit v => .ok v
  | name s => .error (.undefinedName (.str s))
  | unary op e => do unaryValue op (← e.value)
  | binary op a b => do
    let x ← a.value
    let y ← b.value
    binaryValue op x y
  | negated e => do pure (.bool (!(← e.value).truthy))
  | both a b => do
    let x ← a.value
    if x.truthy then b.value else pure x
  | either a b => do
    let x ← a.value
    if x.truthy then pure x else b.value
  | compared first rest => do
    let x ← first.value
    chainValue x rest
  | tuple es => (valuesOf es).map .tuple
  | list es => (valuesOf es).map .list
  | called _ => .error .wrongType
where
  /-- comparisons from left to right, up to the first that fails -/
  chainValue (x : Value) : List (String × Expr) → Except Fault Value
    | [] => .ok (.bool true)
    | (op, e) :: rest => do
      let y ← e.value
      let r ← compareValue op x y
      if r then chainValue y rest else pure (.bool false)
  valuesOf : List Expr → Except Fault (List Value)
    | [] => .ok []
    | e :: es => do
      let v ← e.value
      let vs ← valuesOf es
      pure (v :: vs)

def evaluate (text : String) : Option Value :=
  match read text with
  | none => none
  | some e => e.value.toOption

end Pl0Kit.Preprocessor.Condition
