import Pl0Kit.Regex.Match
import Pl0Kit.Text.Literal

/-!
# Reading regular expressions

The written form of expressions.  White space outside classes is left out, and a number sign starts
a comment that goes to the end of its line.  Groups are numbered by their opening brackets; a name
can be given to one group only.
-/

namespace Pl0Kit.Regex

inductive PatternFault where
  | nothingToRepeat
  | repeatedRepeat
  | badRange
  | badEscape
  | badGroup
  | nameTwice (name : String)
  | unclosed
  | unopened
  deriving Inhabited, Repr

structure Reader where
  rest : List Char
  groups : Nat := 0
  names : Ordered String Nat := []
  deriving Inhabited

abbrev Read (α : Type) := StateT Reader (Except PatternFault) α

def nextChar? : Read (Option Char) := do
  let r ← get
  match r.rest with
  | [] => pure none
  | c :: cs =>
    set { r with rest := cs }
    pure (some c)

def taken (c : Char) : Read Bool := do
  let r ← get
  match r.rest with
  | d :: cs => if c == d then set { r with rest := cs }; pure true else pure false
  | [] => pure false

def asciiLetter (c : Char) : Bool := c.isAlpha

def hexChar (n : Nat) : Read Char := do
  let r ← get
  match Text.hexDigits? n 0 r.rest with
  | some (v, rest) =>
    set { r with rest }
    pure (Char.ofNat v)
  | none => throw .badEscape

def octalChar (first : Char) (n : Nat) : Read Char := do
  let r ← get
  let (v, rest) := Text.octalDigits n ((Text.octalDigit? first).getD 0) r.rest
  set { r with rest }
  if v > 255 then throw .badEscape
  pure (Char.ofNat v)

/-- the character that a letter after a backslash stands for, in a class or outside -/
def controlChar? : Char → Option Char
  | 'a' => some '\x07'
  | 'f' => some '\x0c'
  | 'n' => some '\n'
  | 'r' => some '\r'
  | 't' => some '\t'
  | 'v' => some '\x0b'
  | '\\' => some '\\'
  | _ => none

def category? : Char → Option ClassItem
  | 'd' => some (.digit false)
  | 'D' => some (.digit true)
  | 's' => some (.space false)
  | 'S' => some (.space true)
  | 'w' => some (.word false)
  | 'W' => some (.word true)
  | _ => none

def anchorOf? : Char → Option Anchor
  | 'A' => some .textStart
  | 'Z' => some .textEnd
  | 'b' => some .wordEdge
  | 'B' => some .notWordEdge
  | _ => none

def escapedChar (c : Char) : Read Char := do
  match controlChar? c with
  | some d => pure d
  | none =>
    if c == 'x' then hexChar 2
    else if c == 'u' then hexChar 4
    else if c == 'U' then hexChar 8
    else if asciiLetter c then throw .badEscape
    else pure c

def classEscape : Read ClassItem := do
  match ← nextChar? with
  | none => throw .unclosed
  | some c =>
    match category? c with
    | some i => pure i
    | none =>
      if c == 'b' then pure (.char '\x08')
      else if (Text.octalDigit? c).isSome then return .char (← octalChar c 2)
      else if c.isDigit then throw .badEscape
      else return .char (← escapedChar c)

def escapeNode : Read Node := do
  match ← nextChar? with
  | none => throw .badEscape
  | some c =>
    match category? c, anchorOf? c with
    | some i, _ => pure (.oneOf false [i])
    | _, some a => pure (.anchor a)
    | _, _ =>
      if c == '0' then return .char (← octalChar c 2)
      else if c.isDigit then
        match (← get).rest with
        | d :: e :: _ =>
          if (Text.octalDigit? c).isSome && (Text.octalDigit? d).isSome &&
              (Text.octalDigit? e).isSome then
            return .char (← octalChar c 2)
          else throw .badGroup
        | _ => throw .badGroup
      else return .char (← escapedChar c)

def classItem (c : Char) : Read ClassItem := if c == '\\' then classEscape else pure (.char c)

def classItems : Nat → List ClassItem → Read (List ClassItem)
  | 0, _ => throw .unclosed
  | fuel + 1, items => do
    match ← nextChar? with
    | none => throw .unclosed
    | some c =>
      if c == ']' && !items.isEmpty then pure items
      else
        let i ← classItem c
        if ← taken '-' then
          match ← nextChar? with
          | none => throw .unclosed
          | some d =>
            if d == ']' then pure (items ++ [i, .char '-'])
            else
              match i, ← classItem d with
              | .char lo, .char hi =>
                if hi < lo then throw .badRange
                classItems fuel (items ++ [.range lo hi])
              | _, _ => throw .badRange
        else classItems fuel (items ++ [i])

def digits : Read (Option Nat) := do
  let r ← get
  match r.rest.takeWhile Char.isDigit with
  | [] => pure none
  | ds =>
    set { r with rest := r.rest.dropWhile Char.isDigit }
    pure (Text.readNat? ds)

/-- the bounds of a repetition, if what follows the brace is one -/
def bounds : Read (Option (Nat × Option Nat)) := do
  let start ← get
  if start.rest.head? == some '\x7d' then return none
  let lo ← digits
  let hi ← if ← taken ',' then digits else pure lo
  if ← taken '\x7d' then
    match lo, hi with
    | some l, some h => if h < l then throw .badRange
    | _, _ => pure ()
    return some (lo.getD 0, hi)
  set start
  return none

inductive PartKind where
  | plain | anchor | repeated
  deriving DecidableEq, Inhabited

abbrev Parts := List (Node × PartKind)

def seqOf (parts : Parts) : Node := (parts.reverse.map Prod.fst).foldr Node.seq .empty

def repeatLast (parts : Parts) (least : Nat) (most : Option Nat) : Read Parts := do
  match parts with
  | [] => throw .nothingToRepeat
  | (_, .anchor) :: _ => throw .nothingToRepeat
  | (_, .repeated) :: _ => throw .repeatedRepeat
  | (n, .plain) :: rest =>
    if ← taken '?' then return (.loop n least most .lazy, .repeated) :: rest
    if ← taken '+' then return (.atomic (.loop n least most .greedy), .repeated) :: rest
    return (.loop n least most .greedy, .repeated) :: rest

def isName (s : List Char) : Bool :=
  match s with
  | [] => false
  | c :: _ => s.all Text.isWord && !Text.isDigit c

def openGroup (name : Option String) : Read Nat := do
  let r ← get
  let n := r.groups + 1
  match name with
  | none => set { r with groups := n }
  | some s =>
    if r.names.has s then throw (.nameTwice s)
    set { r with groups := n, names := r.names.put s n }
  pure n

inductive GroupKind where
  | numbered (n : Nat) | plain | ahead (negated : Bool) | atomic | comment

def groupKind : Read GroupKind := do
  if !(← taken '?') then return .numbered (← openGroup none)
  match ← nextChar? with
  | some ':' => return .plain
  | some '=' => return .ahead false
  | some '!' => return .ahead true
  | some '>' => return .atomic
  | some '#' => return .comment
  | some 'P' =>
    if ← taken '<' then
      let r ← get
      let name := r.rest.takeWhile (· != '>')
      if name.length == r.rest.length || !isName name then throw .badGroup
      set { r with rest := r.rest.drop (name.length + 1) }
      return .numbered (← openGroup (some (String.ofList name)))
    throw .badGroup
  | _ => throw .badGroup

def isPatternBlank (c : Char) : Bool :=
  c == ' ' || c == '\t' || c == '\n' || c == '\r' || c == '\x0b' || c == '\x0c'

mutual

/-- alternatives up to a closing bracket or the end; every call takes up a character or is followed
by one that does -/
def readAlt : Nat → Read Node
  | 0 => throw .unclosed
  | fuel + 1 => do
    let a ← readSeq fuel []
    if ← taken '|' then return .alt a (← readAlt fuel)
    pure a

def readSeq : Nat → Parts → Read Node
  | 0, _ => throw .unclosed
  | fuel + 1, parts => do
    let r ← get
    match r.rest with
    | [] => pure (seqOf parts)
    | '|' :: _ => pure (seqOf parts)
    | ')' :: _ => pure (seqOf parts)
    | c :: cs =>
      set { r with rest := cs }
      if isPatternBlank c then readSeq fuel parts
      else if c == '#' then
        set { r with rest := (cs.dropWhile (· != '\n')).drop 1 }
        readSeq fuel parts
      else if c == '*' then readSeq fuel (← repeatLast parts 0 none)
      else if c == '+' then readSeq fuel (← repeatLast parts 1 none)
      else if c == '?' then readSeq fuel (← repeatLast parts 0 (some 1))
      else if c == '\x7b' then
        match ← bounds with
        | some (l, h) => readSeq fuel (← repeatLast parts l h)
        | none => readSeq fuel ((.char c, .plain) :: parts)
      else if c == '.' then readSeq fuel ((.any, .plain) :: parts)
      else if c == '^' then readSeq fuel ((.anchor .start, .anchor) :: parts)
      else if c == '$' then readSeq fuel ((.anchor .finish, .anchor) :: parts)
      else if c == '[' then
        let negated ← taken '^'
        let items ← classItems (cs.length + 1) []
        readSeq fuel ((.oneOf negated items, .plain) :: parts)
      else if c == '\\' then
        let n ← escapeNode
        let kind := match n with
          | .anchor _ => PartKind.anchor
          | _ => PartKind.plain
        readSeq fuel ((n, kind) :: parts)
      else if c == '(' then
        match ← groupKind with
        | .comment =>
          let r ← get
          match r.rest.dropWhile (· != ')') with
          | [] => throw .unclosed
          | _ :: rest =>
            set { r with rest }
            readSeq fuel parts
        | kind =>
          let a ← readAlt fuel
          if !(← taken ')') then throw .unclosed
          let n := match kind with
            | .numbered i => Node.group i a
            | .ahead negated => Node.ahead negated a
            | .atomic => Node.atomic a
            | _ => Node.seq a .empty
          readSeq fuel ((n, .plain) :: parts)
      else readSeq fuel ((.char c, .plain) :: parts)

end

structure Compiled where
  node : Node
  flags : Flags
  groups : Nat
  names : Ordered String Nat
  deriving Inhabited

def compile (pattern : String) (flags : Flags) : Except PatternFault Compiled := do
  let cs := pattern.toList
  let (node, r) ← (readAlt (2 * cs.length + 2)).run { rest := cs }
  if !r.rest.isEmpty then throw .unopened
  pure { node, flags, groups := r.groups, names := r.names }

structure Found where
  stop : Nat
  last : Nat
  deriving Inhabited, Repr

namespace Compiled

def matchAt? (r : Compiled) (before : Option Char) (pos : Nat) (rest : List Char) : Option Found :=
  (r.node.run r.flags { pos, before, rest } some).map fun q => ⟨q.pos, q.last⟩

def matchesEmpty (r : Compiled) : Bool := (r.matchAt? none 0 []).isSome

end Compiled

end Pl0Kit.Regex
