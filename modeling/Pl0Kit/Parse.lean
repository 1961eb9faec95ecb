import Pl0Kit.Ast
import Pl0Kit.Lexer

/-!
# Parsing

A recursive-descent parser with one token of lookahead over the readings of a text.  The cursor
survives a failure, so a caller sees how far parsing came.  Each rule takes a budget of nested
calls; `Cursor.budget` is enough for every text, since each round of nested rules consumes a token.
-/

namespace Pl0Kit

/-- the lookahead token, the readings still to come, and where the lexer stands -/
structure Cursor where
  sym : Option Token := none
  ahead : List Reading := []
  line : Int := 1
  pos : Int := 0
  /-- what messages call the text; none before there is one -/
  label : Option String := none
  /-- reports of illegal characters, in order -/
  report : String := ""
  /-- how far the offset grows with each request past the end; a list of tokens has no offsets -/
  overrun : Int := 1
  deriving Inhabited

abbrev Parse (α : Type) := ExceptT Fault (StateM Cursor) α

namespace Cursor

/-- moves to the next token; past the end of the text only the offset grows -/
def step (c : Cursor) : Cursor :=
  match c.ahead with
  | r :: rest =>
    { c with sym := r.token, ahead := rest, line := r.line, pos := r.pos,
             report := c.report ++ r.report }
  | [] => { c with sym := none, pos := c.pos + c.overrun }

/-- a new text: parsing starts at its first token -/
def input (c : Cursor) (s : String) : Cursor :=
  { c with ahead := readText c.line s.toList, pos := 0, label := some "<input>" }.step

/-- tokens that can still be met -/
def size (c : Cursor) : Nat := c.ahead.length + (if c.sym.isSome then 1 else 0)

/-- a number of nested calls that parsing from here never reaches -/
def budget (c : Cursor) : Nat := 8 * c.size + 16

end Cursor

namespace Parse

def advance : Parse Unit := do
  let c ← get
  set c.step
  if c.label.isNone then throw .noInput

def sym : Parse (Option Token) := return (← get).sym

def isSym (k : Kind) : Parse Bool :=
  return match (← get).sym with
    | some t => t.kind == k
    | none => false

/-- the fault of meeting something else than `wanted` here -/
def unexpected (c : Cursor) (wanted : String) : Fault :=
  match c.sym with
  | some t => .expected c.label t.line t.pos wanted (some (t.kind.label, t.payload.toValue.text))
  | none => .expected c.label c.line c.pos wanted none

def fail {α : Type} (wanted : String) : Parse α := do throw (unexpected (← get) wanted)

/-- the lookahead token, which must be of the kind called `wanted` -/
def expectLabel (wanted : String) : Parse Token := do
  match (← get).sym with
  | some t => if t.kind.label == wanted then pure t else fail wanted
  | none => fail wanted

def expect (k : Kind) : Parse Token := expectLabel k.label

/-- a part that was read, or the fault of missing it when it is empty -/
def required (part : Value) (name : String) : Parse Value :=
  if part.truthy then pure part else fail ("~" ++ name)

/-- the text of the name at the cursor -/
def expectName : Parse String := do
  match (← expect .name).payload with
  | .text s => pure s
  | .number n => pure (toString n)

def addOp? : Parse (Option AddOp) := do
  if ← isSym .plus then advance; pure (some .plus)
  else if ← isSym .minus then advance; pure (some .minus)
  else pure none

def mulOp? : Parse (Option MulOp) := do
  if ← isSym .times then advance; pure (some .times)
  else if ← isSym .divide then advance; pure (some .divide)
  else pure none

def relOp? : Kind → Option RelOp
  | .lt => some .lt | .lte => some .lte | .gt => some .gt | .gte => some .gte
  | .e => some .e | .ne => some .ne
  | _ => none

mutual

def expression : Nat → Parse Expr
  | 0 => throw .outOfFuel
  | n + 1 => do
    let sign ← addOp?
    let first ← term n
    let rest ← expressionTail n
    pure (.mk sign first rest)

def expressionTail : Nat → Parse (List (AddOp × Term))
  | 0 => throw .outOfFuel
  | n + 1 => do
    match ← addOp? with
    | none => pure []
    | some op =>
      let t ← term n
      let rest ← expressionTail n
      pure ((op, t) :: rest)

def term : Nat → Parse Term
  | 0 => throw .outOfFuel
  | n + 1 => do
    match ← factor? n with
    | none => fail "~lhs-factor"
    | some first =>
      let rest ← termTail n
      pure (.mk first rest)

def termTail : Nat → Parse (List (MulOp × Factor))
  | 0 => throw .outOfFuel
  | n + 1 => do
    match ← mulOp? with
    | none => pure []
    | some op =>
      match ← factor? n with
      | none => fail "~rhs-factor"
      | some f =>
        let rest ← termTail n
        pure ((op, f) :: rest)

/-- a factor, or nothing when no factor starts here -/
def factor? : Nat → Parse (Option Factor)
  | 0 => throw .outOfFuel
  | n + 1 => do
    match ← sym with
    | some ⟨.name, .text x, _, _⟩ => advance; pure (some (.name x))
    | some ⟨.number, .number v, _, _⟩ => advance; pure (some (.number v))
    | some ⟨.lparen, _, _, _⟩ =>
      advance
      let e ← expression n
      let _ ← expect .rparen
      advance
      pure (some (.paren e))
    | _ => pure none

end

/-- a condition; at the end of the text there is no comparison to look at -/
def condition (n : Nat) : Parse Condition := do
  if ← isSym (.keyword .odd) then
    advance
    let e ← expression n
    pure (.odd e)
  else
    let lhs ← expression n
    match ← sym with
    | none => throw .noSuchField
    | some t =>
      match relOp? t.kind with
      | some op =>
        advance
        let rhs ← expression n
        pure (.compare lhs op rhs)
      | none => fail "~comparison-operator"

def assign? (n : Nat) : Parse (Option Statement) := do
  match ← sym with
  | some ⟨.name, .text x, _, _⟩ =>
    advance
    let _ ← expect .update
    advance
    let e ← expression n
    pure (some (.assign x e))
  | _ => pure none

def print? (n : Nat) : Parse (Option Statement) := do
  if ← isSym .print then
    advance
    let e ← expression n
    pure (some (.print e))
  else pure none

def call? : Parse (Option Statement) := do
  if ← isSym (.keyword .call) then
    advance
    let p ← expectName
    advance
    pure (some (.call p))
  else pure none

mutual

def statement : Nat → Parse Statement
  | 0 => throw .outOfFuel
  | n + 1 => do
    match ← assign? n with
    | some s => pure s
    | none =>
    match ← call? with
    | some s => pure s
    | none =>
    match ← begin? n with
    | some s => pure s
    | none =>
    match ← if? n with
    | some s => pure s
    | none =>
    match ← while? n with
    | some s => pure s
    | none =>
    match ← print? n with
    | some s => pure s
    | none => fail "~statement"

def begin? : Nat → Parse (Option Statement)
  | 0 => throw .outOfFuel
  | n + 1 => do
    if ← isSym (.keyword .begin) then
      let body ← compound n
      pure (some (.block body))
    else pure none

/-- the statements of a compound statement, from the token before the first one on -/
def compound : Nat → Parse (List Statement)
  | 0 => throw .outOfFuel
  | n + 1 => do
    advance
    let s ← statement n
    if ← isSym (.keyword .end) then
      advance
      pure [s]
    else
      let _ ← expect .eos
      let rest ← compound n
      pure (s :: rest)

def if? : Nat → Parse (Option Statement)
  | 0 => throw .outOfFuel
  | n + 1 => do
    if ← isSym (.keyword .if) then
      advance
      let c ← condition n
      let _ ← expect (.keyword .then)
      advance
      let s ← statement n
      pure (some (.ifThen c s))
    else pure none

def while? : Nat → Parse (Option Statement)
  | 0 => throw .outOfFuel
  | n + 1 => do
    if ← isSym (.keyword .while) then
      advance
      let c ← condition n
      let _ ← expect (.keyword .do)
      advance
      let s ← statement n
      pure (some (.whileDo c s))
    else pure none

end

/-- one constant definition, or nothing when no name stands here -/
def define? : Parse (Option (String × Nat)) := do
  match ← sym with
  | some ⟨.name, .text x, _, _⟩ =>
    advance
    let _ ← expect .assign
    advance
    let t ← expect .number
    advance
    match t.payload with
    | .number v => pure (some (x, v))
    | .text _ => pure (some (x, 0))
  | _ => pure none

/-- the constant definitions, from the token before the first one on -/
def defines : Nat → Parse (List (String × Nat))
  | 0 => throw .outOfFuel
  | n + 1 => do
    advance
    let d ← define?
    if ← isSym .eos then
      advance
      pure d.toList
    else
      let _ ← expect .comma
      let rest ← defines n
      pure (d.toList ++ rest)

def constants? (n : Nat) : Parse (Option (List (String × Nat))) := do
  if ← isSym (.keyword .const) then some <$> defines n else pure none

/-- the declared names, from the token before the first one on -/
def names : Nat → Parse (List String)
  | 0 => throw .outOfFuel
  | n + 1 => do
    advance
    let x ← expectName
    advance
    if ← isSym .eos then
      advance
      pure [x]
    else
      let _ ← expect .comma
      let rest ← names n
      pure (x :: rest)

def variables? (n : Nat) : Parse (Option (List String)) := do
  if ← isSym (.keyword .var) then some <$> names n else pure none

mutual

def block : Nat → Parse Block
  | 0 => throw .outOfFuel
  | n + 1 => do
    let consts ← constants? n
    let vars ← variables? n
    let procs ← procedures n
    let body ← statement n
    pure (.mk consts vars procs body)

def procedures : Nat → Parse (List (String × Block))
  | 0 => throw .outOfFuel
  | n + 1 => do
    if ← isSym (.keyword .procedure) then
      advance
      let p ← expectName
      advance
      let _ ← expect .eos
      advance
      let b ← block n
      let _ ← expect .eos
      advance
      let rest ← procedures n
      pure ((p, b) :: rest)
    else pure []

end

def program (n : Nat) : Parse Program := do
  let b ← block n
  let _ ← expect .dot
  advance
  pure ⟨b⟩

/-- runs a rule with a budget that suffices -/
def complete {α : Type} (rule : Nat → Parse α) : Parse α := do rule (← get).budget

end Parse

/-- the program that a text holds, and the cursor after its final dot or where parsing stopped -/
def parseText (s : String) : Except Fault Program × Cursor :=
  (Parse.complete Parse.program).run.run (({} : Cursor).input s)

/-- the rules of the grammar that can be asked for one at a time -/
inductive ParserRule where
  | program | block | constDecl | constAssign | varDecl | proceduresDecl
  | statement | statementAssign | statementPrint | statementCall | statementBegin | statementIf
  | statementWhile | condition | termOp | expression | factorOp | term | factor
  deriving DecidableEq, Inhabited, Repr

def optionValue {α : Type} (f : α → Value) : Option α → Value
  | some a => f a
  | none => .none

/-- the tree that a rule makes at the cursor -/
def ParserRule.parse : ParserRule → Parse Value
  | program => Program.toValue <$> Parse.complete Parse.program
  | block => Block.toValue <$> Parse.complete Parse.block
  | constDecl => constsValue <$> Parse.complete Parse.constants?
  | constAssign => optionValue defineValue <$> Parse.define?
  | varDecl => varsValue <$> Parse.complete Parse.variables?
  | proceduresDecl => (procsValue ∘ Block.procValues) <$> Parse.complete Parse.procedures
  | statement => Statement.toValue <$> Parse.complete Parse.statement
  | statementAssign => optionValue Statement.toValue <$> Parse.complete Parse.assign?
  | statementPrint => optionValue Statement.toValue <$> Parse.complete Parse.print?
  | statementCall => optionValue Statement.toValue <$> Parse.call?
  | statementBegin => optionValue Statement.toValue <$> Parse.complete Parse.begin?
  | statementIf => optionValue Statement.toValue <$> Parse.complete Parse.if?
  | statementWhile => optionValue Statement.toValue <$> Parse.complete Parse.while?
  | condition => Condition.toValue <$> Parse.complete Parse.condition
  | termOp => signValue <$> Parse.addOp?
  | expression => Expr.toValue <$> Parse.complete Parse.expression
  | factorOp => optionValue (fun op => .str op.word) <$> Parse.mulOp?
  | term => Term.toValue <$> Parse.complete Parse.term
  | factor => optionValue Factor.toValue <$> Parse.complete Parse.factor?

end Pl0Kit
