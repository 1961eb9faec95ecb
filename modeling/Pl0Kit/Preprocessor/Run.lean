import Pl0Kit.Preprocessor.Expand
import Pl0Kit.Preprocessor.Condition
import Pl0Kit.Preprocessor.Paths

/-!
# Preprocessing

A text is read line by line.  Lines that start with `#` are directives; the tokens of other lines
are gathered, and expanded when a directive changes the definitions or the text ends.  Tokens are
given out one at a time (`token`), and nothing is read before it is needed.

A directive may include another text, which is then read in a layer of its own on top of the present
one.
-/

namespace Pl0Kit.Preprocessor

open Scanner (Tok)

/-! ## lines -/

def trigraphs : List (Char × Char) :=
  [('=', '#'), ('/', '\\'), ('\'', '^'), ('(', '['), (')', ']'), ('!', '|'), ('<', '\x7b'),
    ('>', '\x7d'), ('-', '~')]

def replaceTrigraphs : List Char → List Char
  | '?' :: '?' :: c :: cs =>
    match trigraphs.lookup c with
    | some d => d :: replaceTrigraphs cs
    | none => '?' :: replaceTrigraphs ('?' :: c :: cs)
  | c :: cs => c :: replaceTrigraphs cs
  | [] => []

def trigraph (text : String) : String := String.ofList (replaceTrigraphs text.toList)

/-- Joins a line that ends in a backslash with the lines after it.  Empty lines take the place of
those joined. -/
def joinLine (line : List Char) (joined : Nat) :
    List (List Char) → List Char × Nat × List (List Char)
  | [] => (line, joined, [])
  | next :: rest =>
    if line.getLast? == some '\\' then joinLine (line.dropLast ++ next) (joined + 1) rest
    else (line, joined, next :: rest)

def joinLines : Nat → List (List Char) → List (List Char)
  | 0, lines => lines
  | _ + 1, [] => []
  | n + 1, line :: rest =>
    let (line, joined, rest) := joinLine line 0 rest
    line :: List.replicate joined [] ++ joinLines n rest

def lineReader (r : Reader) (text : String) : Reader :=
  let lines := (Text.lines text).map fun l => Text.trimRight l.toList
  let text := "\n".intercalate ((joinLines lines.length lines).map String.ofList)
  (r.input text).atLine 1

def endsLine (k : Kinds) (t : Tok) : Bool :=
  k.isSpace t && match t.value with
    | .str s => s.toList.contains '\n'
    | _ => false

def readLine (k : Kinds) (line : List Tok) : Nat → Reader → PreM (List Tok × Reader)
  | 0, _ => throw .outOfFuel
  | n + 1, r => do
    let (t, printed, r) := r.next
    modify fun s => { s with output := s.output ++ printed }
    match t with
    | .error f => throw f
    | .ok none => pure (line.reverse, r)
    | .ok (some t) =>
      if endsLine k t then pure ((t :: line).reverse, r) else readLine k (t :: line) n r

def readLines (k : Kinds) : Nat → Reader → PreM (List (List Tok))
  | 0, _ => throw .outOfFuel
  | n + 1, r => do
    let (line, r) ← readLine k [] r.bound r
    if line.isEmpty then pure []
    else
      let lines ← readLines k n r
      pure (line :: lines)

def groupLines (text : String) : PreM (List (List Tok)) := do
  let s ← get
  let r := lineReader s.reader text
  readLines s.kinds r.bound r

/-! ## conditions -/

/-- Reads what `defined` asks for: the result so far, whether a parenthesis is open, and the tokens
that follow.  Gives the result and the tokens left. -/
def definedRest (s : State) (name : String) (line : Int) (result needParen : Bool) :
    List Tok → PreM (Bool × List Tok)
  | [] => pure (result, [])
  | t :: ts =>
    if s.kinds.isSpace t then definedRest s name line result needParen ts
    else if t.kind == name then
      let result := s.isDefined t.value
      if needParen then definedRest s name line result needParen ts else pure (result, ts)
    else if t.is "(" then definedRest s name line result true ts
    else if t.is ")" then pure (result, ts)
    else do
      report line "Malformed defined()"
      definedRest s name line result needParen ts

/-- replaces each use of `defined` by a number; `n` bounds the tokens -/
def replaceDefined (name number : String) : Nat → List Tok → PreM (List Tok)
  | 0, ts => pure ts
  | _ + 1, [] => pure []
  | n + 1, t :: ts => do
    if t.kind == name && t.is "defined" then
      let s ← get
      let (result, ts) ← definedRest s name t.line false false ts
      match s.kinds.longValue (if result then "1L" else "0L") with
      | .error f => throw f
      | .ok value =>
        let ts ← replaceDefined name number n ts
        pure ({ t with kind := number, value } :: ts)
    else
      let ts ← replaceDefined name number n ts
      pure (t :: ts)

def dropSuffix (text : String) : Except Fault String :=
  match text.toList.reverse.dropWhile fun c => (Text.hexDigit? c).isNone with
  | [] => .error .outOfRange
  | cs => .ok (String.ofList cs.reverse)

/-- the text of a token in a condition; names without a definition count as zero -/
def conditionText (k : Kinds) (name number : String) (t : Tok) : Except Fault String :=
  if t.kind == name then (k.longValue "0L").map Value.text
  else if t.kind == number then dropSuffix t.value.text
  else .ok t.value.text

def spellOut : List Char → List Char
  | '&' :: '&' :: cs => " and ".toList ++ spellOut cs
  | '|' :: '|' :: cs => " or ".toList ++ spellOut cs
  | '!' :: cs => " not ".toList ++ spellOut cs
  | c :: cs => c :: spellOut cs
  | [] => []

def evaluate (ts : List Tok) : PreM Value := do
  let k := (← get).kinds
  let name ← kindOf (·.name)
  let number ← kindOf (·.number)
  let ts ← replaceDefined name number ts.length ts
  let ts ← expand ts
  match ts.mapM (conditionText k name number) with
  | .error f => throw f
  | .ok parts =>
    match Condition.evaluate (String.ofList (spellOut (String.join parts).toList)) with
    | some v => pure v
    | none =>
      let source ← sourceName
      match ts with
      | [] => throw .outOfRange
      | t :: _ =>
        reportIn source t.line "Couldn't evaluate expression"
        pure (.int 0)

/-! ## texts -/

def fileLabel : Value := .str "__FILE__"

def enter (text source : String) (back : Option Return) : PreM Layer := do
  defineText ("__FILE__ \"" ++ source ++ "\"")
  let s ← get
  set { s with source := some source }
  pure { source, reader := lineReader s.reader (trigraph text), back }

def includeName (ts : List Tok) : PreM (Option (String × List String)) := do
  let ts ← match ts with
    | t :: _ => do
      if t.is "<" then pure ts
      else
        let text ← kindOf (·.text)
        if t.kind == text then pure ts else expand ts
    | [] => pure ts
  let s ← get
  match ts with
  | [] => throw .outOfRange
  | t :: rest =>
    if t.is "<" then
      if !rest.any (·.is ">") then
        print "Malformed #include <...>"
        pure none
      else
        match joinValues (rest.takeWhile fun u => !u.is ">") with
        | .ok name => pure (some (name, s.path ++ [""] ++ s.nearby))
        | .error f => throw f
    else if s.kinds.text == some t.kind then
      let cs := t.value.text.toList
      pure (some (String.ofList (cs.drop 1).dropLast, s.nearby ++ [""] ++ s.path))
    else
      print "Malformed #include statement"
      pure none

def searchFile (files : List (String × String)) (name : String) :
    List String → Option (String × String)
  | [] => none
  | dir :: dirs =>
    match readFile? files (joinPath dir name) with
    | some text => some (joinPath dir name, text)
    | none => searchFile files name dirs

def includeLayer (fileName : Definition) (ts : List Tok) : PreM (Option Layer) := do
  if ts.isEmpty then return none
  match ← includeName ts with
  | none => pure none
  | some (name, dirs) =>
    match searchFile (← get).files name dirs with
    | none =>
      print ("Couldn't find '" ++ name ++ "'")
      pure none
    | some (path, text) =>
      let dir := dirName path
      if !dir.isEmpty then modify fun s => { s with nearby := dir :: s.nearby }
      let text := Text.fileText text
      let l ← enter text name (some ⟨fileName, !dir.isEmpty⟩)
      pure (some l)

/-! ## directives -/

def flush (l : Layer) (todo : Todo) : PreM Layer := do
  let pending ← expand l.chunk
  pure { l with pending, chunk := [], todo }

def firstValue (args : List Tok) : PreM Value := do
  match args with
  | t :: _ => pure t.value
  | [] => throw .outOfRange

/-- opens a condition, which is looked at only if the lines count -/
def openCondition (l : Layer) (holds : PreM Bool) : PreM Layer := do
  let l' := { l with outer := (l.enabled, l.taken) :: l.outer }
  if l.enabled then
    if ← holds then pure { l' with taken := true }
    else pure { l' with enabled := false, taken := false }
  else pure l'

/-- goes on to another branch, whose condition is looked at only if none was taken -/
def nextBranch (l : Layer) (holds : PreM Bool) : PreM Layer := do
  match l.outer with
  | (true, _) :: _ =>
    if l.enabled then pure { l with enabled := false }
    else if l.taken then pure l
    else if ← holds then pure { l with enabled := true, taken := true }
    else pure l
  | _ => pure l

def directive (l : Layer) (ts : List Tok) : PreM Layer := do
  match ts with
  | [] => pure l
  | t :: rest =>
    let args := (← get).kinds.strip rest
    let misplaced (what : String) : PreM Layer := do
      report t.line ("Misplaced #" ++ what)
      pure l
    match t.value with
    | .str "define" => if l.enabled then flush l (.define args) else pure l
    | .str "include" => if l.enabled then flush l (.insertFile args) else pure l
    | .str "undef" => if l.enabled then flush l (.undefine args) else pure l
    | .str "ifdef" => openCondition l do
        let name ← firstValue args
        pure ((← get).isDefined name)
    | .str "ifndef" => openCondition l do
        let name ← firstValue args
        pure (!(← get).isDefined name)
    | .str "if" => openCondition l do pure (← evaluate args).truthy
    | .str "elif" =>
      if l.outer.isEmpty then misplaced "elif"
      else nextBranch l do pure (← evaluate args).truthy
    | .str "else" => if l.outer.isEmpty then misplaced "else" else nextBranch l (pure true)
    | .str "endif" =>
      match l.outer with
      | [] => misplaced "endif"
      | (enabled, taken) :: outer => pure { l with enabled, taken, outer }
    | _ => pure l

def performLine (l : Layer) (line : List Tok) : PreM Layer := do
  let k := (← get).kinds
  match line.dropWhile k.isSpace with
  | t :: rest =>
    if t.is "#" then directive l (k.strip rest)
    else pure (if l.enabled then { l with chunk := l.chunk ++ line } else l)
  | [] => pure (if l.enabled then { l with chunk := l.chunk ++ line } else l)

/-! ## giving out tokens -/

def comeBack (source : String) (back : Option Return) : PreM Unit := do
  match back with
  | none => pure ()
  | some b =>
    modify fun s => { (s.bind fileLabel b.fileName) with
      nearby := if b.nearby then s.nearby.tail else s.nearby
      source := some source }

def layerLimit : Nat := 480

/-- one step of reading: a token, or the layers to go on with -/
inductive Step where
  | token (t : Tok) (layers : List Layer)
  | on (layers : List Layer)

def step (l : Layer) (below : List Layer) : PreM Step := do
  match l.pending with
  | t :: pending => pure (.token t ({ l with pending } :: below))
  | [] =>
    let l' := { l with todo := .nothing }
    match l.todo with
    | .nothing =>
      let (line, reader) ← readLine (← get).kinds [] l.reader.bound l.reader
      let l := { l with reader }
      if line.isEmpty then pure (.on ((← flush l .leave) :: below))
      else pure (.on ((← performLine l line) :: below))
    | .define args =>
      define args
      pure (.on (l' :: below))
    | .undefine args =>
      undefine args
      pure (.on (l' :: below))
    | .insertFile args =>
      match (← get).find? fileLabel with
      | none => throw (.missingKey fileLabel)
      | some fileName =>
        match ← includeLayer fileName args with
        | some inner =>
          if layerLimit ≤ below.length then throw .tooDeep
          pure (.on (inner :: l' :: below))
        | none =>
          comeBack l.source (some ⟨fileName, false⟩)
          pure (.on (l' :: below))
    | .leave =>
      comeBack ((below.head?.map (·.source)).getD "") l.back
      pure (.on below)

def run : Nat → List Layer → PreM (Option (Tok × List Layer))
  | 0, _ => throw .outOfFuel
  | _ + 1, [] => pure none
  | n + 1, l :: below => do
    match ← step l below with
    | .token t layers => pure (some (t, layers))
    | .on layers => run n layers

def advance (fuel : Nat) (r : Reading) : PreM (Option (Tok × Reading)) := do
  match r with
  | .over => pure none
  | .waiting text source =>
    let l ← enter text source none
    pure ((← run fuel [l]).map fun x => (x.1, .running x.2))
  | .running layers => pure ((← run fuel layers).map fun x => (x.1, .running x.2))

/-- Gives out the next token that is not ignored, none at the end.  After a fault the reading is
over. -/
def token (fuel : Nat) : Nat → PreM (Option Tok)
  | 0 => throw .outOfFuel
  | n + 1 => do
    match (← get).reading with
    | none => throw .wrongType
    | some r =>
      modify fun s => { s with reading := some .over }
      match ← advance fuel r with
      | none =>
        modify fun s => { s with reading := none }
        pure none
      | some (t, r) =>
        modify fun s => { s with reading := some r }
        if (← get).ignored.contains t.kind then token fuel n else pure (some t)

def tokens (fuel : Nat) : Nat → State → List Tok × Option Fault × State
  | 0, s => ([], some .outOfFuel, s)
  | n + 1, s =>
    match (token fuel fuel).run.run s with
    | (.ok none, s) => ([], none, s)
    | (.ok (some t), s) =>
      let r := tokens fuel n s
      (t :: r.1, r.2)
    | (.error f, s) => ([], some f, s)

/-! ## a preprocessor -/

def start (date time : String) : PreM Unit := do
  probe
  defineText ("__DATE__ \"" ++ date ++ "\"")
  defineText ("__TIME__ \"" ++ time ++ "\"")

def parse (text : String) (source : Option String) (ignored : List String) : PreM Unit :=
  modify fun s => { s with ignored, reading := some (.waiting text (source.getD "")) }

def addPath (dir : String) : PreM Unit := modify fun s => { s with path := s.path ++ [dir] }

def printTokens (fuel : Nat) : Nat → PreM Unit
  | 0 => throw .outOfFuel
  | n + 1 => do
    match ← token fuel fuel with
    | none => pure ()
    | some t =>
      print ((← sourceName) ++ " " ++ t.asValue.text)
      printTokens fuel n

def runFile (fuel : Nat) (date time file : String) : PreM Unit := do
  match readFile? (← get).files file with
  | none => throw .noSuchFile
  | some text =>
    start date time
    parse (Text.fileText text) (some file) []
    printTokens fuel fuel

end Pl0Kit.Preprocessor
